import SolarTakeoff.Decimal.Basic

/-!
# Reading numbers from text

The texts of binary64 numbers: an optional sign, then a numeral with an
optional power of ten, or one of the words for infinity and not-a-number in
any case of letters.

Powers of ten far outside the range are cut off before they are computed: they
read as zero or infinity either way.
-/

namespace SolarTakeoff

namespace Decimal

/-- A whole number with an optional sign. -/
def signedDigits? : List Char → Option Int
  | '-' :: digits => unsigned? digits |>.map (fun value => -(value : Int))
  | '+' :: digits => unsigned? digits |>.map Int.ofNat
  | digits => unsigned? digits |>.map Int.ofNat
where
  unsigned? (digits : List Char) : Option Nat :=
    if digits.all Char.isDigit && !digits.isEmpty then some (digitsValue digits) else none

/-- Multiplies by a power of ten.  With a coefficient of fewer than `width`
digits, powers beyond the cut make no difference to the reading. -/
def scale (decimal : Decimal) (width : Nat) (power : Int) : Decimal :=
  { decimal with
    exponent := min 400 (max (-(400 + width : Int)) (decimal.exponent + power)) }

/-- Reads a numeral with an optional power of ten after `e` or `E`. -/
def ofScientific? (chars : List Char) : Option Decimal := do
  let isMark := fun c : Char => c == 'e' || c == 'E'
  let decimal ← ofChars? (chars.takeWhile (!isMark ·))
  match chars.dropWhile (!isMark ·) with
  | [] => some decimal
  | _ :: power => return decimal.scale chars.length (← signedDigits? power)

end Decimal

namespace Binary64

/-- Reads a number without its sign. -/
def unsignedOfChars? (negative : Bool) (chars : List Char) : Option Binary64 :=
  match String.ofList (chars.map Char.toLower) with
  | "nan" => some .nan
  | "inf" | "infinity" => some (.infinite negative)
  | _ => (Decimal.ofScientific? chars).map (·.toBinary64 negative)

/-- Reads a number, correctly rounded. -/
def ofText? (text : String) : Option Binary64 :=
  match text.toList with
  | '-' :: chars => unsignedOfChars? true chars
  | '+' :: chars => unsignedOfChars? false chars
  | chars => unsignedOfChars? false chars

end Binary64

end SolarTakeoff
