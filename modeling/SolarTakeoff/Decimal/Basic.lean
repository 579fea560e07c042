import SolarTakeoff.Binary64.Basic

/-!
# Decimal numerals

A decimal is a coefficient with a power of ten.  It is read from digits with at
most one point and written positionally: never an exponent, no point without a
digit after it, and no zero at the end of the fraction.

The number a decimal stands for as binary64 is the nearest one, by a single
rounding of the exact quotient.
-/

namespace SolarTakeoff

/-- The value `coefficient * 10 ^ exponent`. -/
structure Decimal where
  coefficient : Nat
  exponent : Int
deriving DecidableEq

/-- The value of a run of digits. -/
def digitsValue (digits : List Char) : Nat :=
  Nat.ofDigitChars 10 digits 0

namespace Decimal

/-- Reads a numeral such as `12`, `12.`, `.5` or `12.50`: digits with at most
one point, at least one digit in all. -/
def ofChars? (chars : List Char) : Option Decimal :=
  let whole := chars.takeWhile Char.isDigit
  match chars.dropWhile Char.isDigit with
  | [] => if whole.isEmpty then none else some ⟨digitsValue whole, 0⟩
  | '.' :: fraction =>
    if fraction.all Char.isDigit && !(whole ++ fraction).isEmpty then
      some ⟨digitsValue (whole ++ fraction), -(fraction.length : Int)⟩
    else
      none
  | _ => none

/-- The nearest binary64 number, with the sign given. -/
def toBinary64 (decimal : Decimal) (negative : Bool) : Binary64 :=
  Binary64.ofRatio negative
    (decimal.coefficient * Nat.pow 10 decimal.exponent.toNat * oneUnits)
    (Nat.pow 10 (-decimal.exponent).toNat)

/-- The fraction digits of `value / 10 ^ places`, without zeros at the end. -/
def fractionChars (value places : Nat) : List Char :=
  let digits := Nat.toDigits 10 value
  let padded := List.replicate (places - digits.length) '0' ++ digits
  (padded.reverse.dropWhile (· == '0')).reverse

/-- The positional form. -/
def chars (decimal : Decimal) : List Char :=
  let places := (-decimal.exponent).toNat
  let grid := Nat.pow 10 places
  let scaled := decimal.coefficient * Nat.pow 10 decimal.exponent.toNat
  let whole := Nat.toDigits 10 (scaled / grid)
  match fractionChars (scaled % grid) places with
  | [] => whole
  | fraction => whole ++ '.' :: fraction

end Decimal

end SolarTakeoff
