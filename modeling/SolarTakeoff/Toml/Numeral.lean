import SolarTakeoff.Datum.Basic
import SolarTakeoff.Decimal.Reading
import SolarTakeoff.Text.Hexadecimal

/-!
# Numerals of TOML

Whole numbers are decimal with a sign, or hexadecimal, octal or binary without
one, and fit sixty-four bits.  A number with a fraction or an exponent is
binary64 and must not exceed its range.  An underscore may stand between two
digits, and no zero in front of other whole digits.
-/

namespace SolarTakeoff

namespace Toml

/-- Digits, with an underscore between any two, and what follows them. -/
def digits? (isDigit : Char → Bool) : List Char → Option (List Char × List Char)
  | [] => none
  | digit :: rest =>
    if isDigit digit then
      match rest with
      | '_' :: further =>
        (digits? isDigit further).map fun (digits, last) => (digit :: digits, last)
      | next :: further =>
        if isDigit next then
          (digits? isDigit (next :: further)).map fun (digits, last) => (digit :: digits, last)
        else
          some ([digit], next :: further)
      | [] => some ([digit], [])
    else
      none

/-- The digits of a decimal without a zero in front, and what follows them. -/
def whole? (chars : List Char) : Option (List Char × List Char) := do
  let (digits, rest) ← digits? Char.isDigit chars
  if digits.head? == some '0' && digits.length != 1 then none else some (digits, rest)

/-- The fraction, where a point follows. -/
def fraction? : List Char → Option (List Char × List Char)
  | '.' :: rest => digits? Char.isDigit rest
  | rest => some ([], rest)

/-- The exponent up to the end. -/
def power? : List Char → Option Int
  | [] => some 0
  | mark :: chars => do
    let (negative, chars) :=
      match chars with
      | '-' :: rest => (true, rest)
      | '+' :: rest => (false, rest)
      | rest => (false, rest)
    let (digits, rest) ← digits? Char.isDigit chars
    if (mark == 'e' || mark == 'E') && rest.isEmpty then
      return if negative then -(digitsValue digits) else digitsValue digits
    else
      none

/-- A whole number that fits sixty-four bits. -/
def fitting? (value : Int) : Option Datum :=
  if -9223372036854775808 ≤ value ∧ value ≤ 9223372036854775807 then
    some (.integer value)
  else
    none

/-- A decimal without its sign. -/
def decimal? (negative : Bool) (chars : List Char) : Option Datum := do
  let (whole, rest) ← whole? chars
  if rest.isEmpty then
    fitting? (if negative then -(digitsValue whole) else digitsValue whole)
  else do
    let (fraction, rest) ← fraction? rest
    let power ← power? rest
    let decimal : Decimal := ⟨digitsValue (whole ++ fraction), -(fraction.length : Int)⟩
    match (decimal.scale chars.length power).toBinary64 negative with
    | .infinite false => none
    | value => some (.number value)

/-- A decimal, or one of the words for infinity and not-a-number. -/
def unsigned? (negative : Bool) (chars : List Char) : Option Datum :=
  match String.ofList chars with
  | "inf" => some (.number (.infinite negative))
  | "nan" => some (.number .nan)
  | _ => decimal? negative chars

/-- A whole number to one of the other bases. -/
def based? (base : Nat) (chars : List Char) : Option Datum := do
  let isDigit := fun char => (hexDigit? char).any (· < base)
  let (digits, rest) ← digits? isDigit chars
  if rest.isEmpty then
    fitting? (digits.foldl (fun value digit => base * value + (hexDigit? digit).getD 0) 0)
  else
    none

/-- The number that the characters stand for as a whole. -/
def numeral? : List Char → Option Datum
  | '0' :: 'x' :: rest => based? 16 rest
  | '0' :: 'o' :: rest => based? 8 rest
  | '0' :: 'b' :: rest => based? 2 rest
  | '+' :: rest => unsigned? false rest
  | '-' :: rest => unsigned? true rest
  | rest => unsigned? false rest

end Toml

end SolarTakeoff
