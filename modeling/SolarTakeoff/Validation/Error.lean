import SolarTakeoff.Formula.Error

/-!
# What validation finds
-/

namespace SolarTakeoff

inductive ValidationError where
  | missing (field : String)
  | negative (field : String)
  | notFinite (field : String)
  | tooSmall (field : String) (minimum : Nat)
  | outOfRange (field : String) (minimum maximum : Nat)
  | conflict (field other reason : String)
  | formula (error : FormulaError)
  | unknownStrategy (tag : String)
  | duplicate (field value : String)
  | inRule (ruleId : String) (error : ValidationError)
deriving DecidableEq

def ValidationError.message : ValidationError → String
  | .missing field => field ++ " is required"
  | .negative field => field ++ " must not be negative"
  | .notFinite field => field ++ " must be a finite number"
  | .tooSmall field minimum => field ++ s!" must be at least {minimum}"
  | .outOfRange field minimum maximum =>
    field ++ s!" must be between {minimum} and {maximum}"
  | .conflict field other reason =>
    field ++ " conflicts with " ++ other ++ ": " ++ reason
  | .formula error => "formula is invalid: " ++ error.message
  | .unknownStrategy tag => "unknown calculation type '" ++ tag ++ "'"
  | .duplicate field value => field ++ " '" ++ value ++ "' already exists"
  | .inRule ruleId error => "rule " ++ ruleId ++ ": " ++ error.message

/-- The message where the error stands among others of the engine. -/
def ValidationError.engineMessage (error : ValidationError) : String :=
  "Validation error: " ++ error.message

end SolarTakeoff
