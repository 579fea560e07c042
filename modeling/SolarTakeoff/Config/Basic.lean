import SolarTakeoff.Selection
import SolarTakeoff.Validation.Checks

/-!
# Configurations

Where the catalog lies, which selection runs use unless they are given
another, and the tax rate.  A configuration is usable when the rate is at most
the limit, no category is blank and the path, if any, is not empty.
-/

namespace SolarTakeoff

structure Config where
  catalogPath : Option String := none
  includeOptional : Bool := false
  categories : Option (List String) := none
  taxRate : TaxRate := .standard
deriving DecidableEq

/-- What makes a configuration unusable. -/
inductive ConfigProblem where
  | taxRate (error : ValidationError)
  | blankCategory
  | emptyCatalogPath
deriving DecidableEq

def ConfigProblem.message : ConfigProblem → String
  | .taxRate error => error.message
  | .blankCategory => "categories must not contain empty names"
  | .emptyCatalogPath => "catalog path must not be empty"

namespace Config

def selection (config : Config) : Selection where
  includeOptional := config.includeOptional
  categories := config.categories

def validate (config : Config) : Except ConfigProblem Unit := do
  match config.taxRate.validate with
  | .ok () => pure ()
  | .error error => throw (.taxRate error)
  if (config.categories.getD []).any isBlankText then
    throw .blankCategory
  if config.catalogPath = some "" then
    throw .emptyCatalogPath

end Config

end SolarTakeoff
