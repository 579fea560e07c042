import SolarTakeoff.Decimal.Shortest

/-!
# Tokens of a formula
-/

namespace SolarTakeoff

inductive Token where
  | number (value : Binary64)
  | word (name : String)
  | plus
  | minus
  | star
  | slash
  | opening
  | closing
  | comma
deriving DecidableEq

/-- The text of a token.  A number is written in its shortest form, whatever
digits it was read from. -/
def Token.text : Token → String
  | .number value => value.text
  | .word name => name
  | .plus => "+"
  | .minus => "-"
  | .star => "*"
  | .slash => "/"
  | .opening => "("
  | .closing => ")"
  | .comma => ","

end SolarTakeoff
