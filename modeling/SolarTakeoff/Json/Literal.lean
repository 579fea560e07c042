import SolarTakeoff.Datum.Basic
import SolarTakeoff.Decimal.Basic
import SolarTakeoff.Reading

/-!
# Number literals of JSON

A literal without a fraction or an exponent that fits sixty-four bits is a
whole number.  All others are read as binary64: the leading digits that fit
sixty-four bits make a significand, which is multiplied or divided by a power
of ten.  Both steps round, so a literal with many digits may miss the nearest
number by a little.  A literal beyond the range has no value.
-/

namespace SolarTakeoff

namespace Json

/-- A number literal: whole digits, fraction digits and a power of ten. -/
structure Literal where
  negative : Bool
  whole : List Char
  fraction : Option (List Char)
  power : Option Int

/-- Takes digits into a significand of sixty-four bits, up to the first digit
that does not fit; returns the digits from there on. -/
def absorb (significand : Nat) : List Char → Nat × List Char
  | [] => (significand, [])
  | digit :: digits =>
    let next := 10 * significand + (digit.toNat - '0'.toNat)
    if next < 18446744073709551616 then absorb next digits
    else (significand, digit :: digits)

/-- A power of ten; from the first one beyond the range on, infinity. -/
def powerOfTen (exponent : Nat) : Binary64 :=
  (Decimal.mk 1 (min exponent 309 : Nat)).toBinary64 false

/-- Divides by a power of ten, in steps that are themselves in range. -/
def divideByPower (value : Binary64) (exponent : Nat) : Binary64 :=
  if 308 < exponent then
    if value.eq .zero then value
    else divideByPower (value / powerOfTen 308) (exponent - 308)
  else
    value / powerOfTen exponent
termination_by exponent
decreasing_by omega

/-- A significand times a power of ten, unless it is out of range. -/
def scale? (significand : Nat) (exponent : Int) : Option Binary64 :=
  let value := Binary64.ofNat significand
  if exponent < 0 then
    some (divideByPower value (-exponent).toNat)
  else if significand = 0 then
    some value
  else
    let scaled := value * powerOfTen exponent.toNat
    if scaled.isFinite then some scaled else none

namespace Literal

def isWhole (literal : Literal) : Bool :=
  literal.fraction.isNone && literal.power.isNone

/-- The value as binary64. -/
def binary64? (literal : Literal) : Option Binary64 :=
  let fraction := literal.fraction.getD []
  let (wholePart, wholeRest) := absorb 0 literal.whole
  let (significand, fractionRest) := absorb wholePart fraction
  let exponent : Int :=
    wholeRest.length - (fraction.length - fractionRest.length : Nat) + literal.power.getD 0
  (scale? significand exponent).map fun value =>
    if literal.negative then -value else value

def datum (literal : Literal) : Datum :=
  let magnitude := digitsValue literal.whole
  let negative := literal.negative
  if literal.isWhole && !negative && magnitude < 18446744073709551616 then
    .integer magnitude
  else if literal.isWhole && negative && 0 < magnitude && magnitude ≤ 9223372036854775808 then
    .integer (-magnitude)
  else
    match literal.binary64? with
    | some value => .number value
    | none => .unreadable

end Literal

/-- At least one digit. -/
def digits? (chars : List Char) : Option (Reading Char (List Char) chars.length) :=
  Reading.run? Char.isDigit chars

/-- Whole digits: no zero in front of others. -/
def whole? (chars : List Char) : Option (Reading Char (List Char) chars.length) := do
  let reading ← digits? chars
  match reading.value with
  | '0' :: _ :: _ => none
  | _ => some reading

/-- The fraction, where a point follows. -/
def fraction? (chars : List Char) :
    Option (Reading Char (Option (List Char)) (chars.length + 1)) :=
  match chars with
  | '.' :: rest => do return ((← digits? rest).map some).after 2
  | chars => some (.of none chars)

/-- The digits of an exponent with their sign. -/
def signedPower? (chars : List Char) : Option (Reading Char Int chars.length) :=
  match chars with
  | '-' :: rest => do
    return ((← digits? rest).map fun digits => -(digitsValue digits : Int)).after 1
  | '+' :: rest => do
    return ((← digits? rest).map fun digits => (digitsValue digits : Int)).after 1
  | chars => do return (← digits? chars).map fun digits => (digitsValue digits : Int)

/-- The exponent, where its mark follows. -/
def power? (chars : List Char) :
    Option (Reading Char (Option Int) (chars.length + 1)) :=
  match chars with
  | 'e' :: rest | 'E' :: rest => do return ((← signedPower? rest).map some).after 2
  | chars => some (.of none chars)

/-- A literal without its sign. -/
def unsignedLiteral? (negative : Bool) (chars : List Char) :
    Option (Reading Char Literal chars.length) := do
  let ⟨whole, afterWhole, h⟩ ← whole? chars
  let ⟨fraction, afterFraction, hfraction⟩ ← fraction? afterWhole
  let power ← power? afterFraction
  let literal := power.map fun power => { negative, whole, fraction, power }
  return (literal.widen hfraction).widen h

def literal? (chars : List Char) : Option (Reading Char Literal chars.length) :=
  match chars with
  | '-' :: rest => do return (← unsignedLiteral? true rest).after 1
  | chars => unsignedLiteral? false chars

end Json

end SolarTakeoff
