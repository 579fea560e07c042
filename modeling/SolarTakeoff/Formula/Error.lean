import SolarTakeoff.Formula.Basic
import SolarTakeoff.Formula.Token

/-!
# Why a formula has no value
-/

namespace SolarTakeoff

inductive FormulaError where
  | blank
  | tooLong (limit : Nat)
  | unexpectedChar (char : Char) (position : Nat)
  | invalidNumber (digits : String)
  | unknownInput (name : String)
  | unknownFunction (name : String)
  | wrongArity (function : Function) (count : Nat)
  | unexpectedToken (token : Token)
  | unexpectedEnd
  | divisionByZero
  | notFinite
deriving DecidableEq

/-- The number of arguments a function expects, in words. -/
def Function.expectation : Function → String
  | .ceil | .floor | .round => "1"
  | .max | .min => "at least 1"

def FormulaError.message : FormulaError → String
  | .blank => "formula is empty"
  | .tooLong limit => s!"formula is longer than {limit} characters"
  | .unexpectedChar char position =>
    "unexpected character '" ++ char.toString ++ s!"' at position {position}"
  | .invalidNumber digits => "invalid number '" ++ digits ++ "'"
  | .unknownInput name => "unknown identifier '" ++ name ++ "'"
  | .unknownFunction name => "unknown function '" ++ name ++ "'"
  | .wrongArity function count =>
    s!"{function.name} expects {function.expectation} argument(s), got {count}"
  | .unexpectedToken token => "unexpected token '" ++ token.text ++ "'"
  | .unexpectedEnd => "unexpected end of formula"
  | .divisionByZero => "division by zero"
  | .notFinite => "result is not a finite number"

end SolarTakeoff
