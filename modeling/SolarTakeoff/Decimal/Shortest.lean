import SolarTakeoff.Decimal.Basic

/-!
# The shortest decimal text of a number

A magnitude has an exact decimal expansion with 1074 places.  Its text keeps
as few leading digits of that expansion as still read back to the same
number.  On each grid of digits only the two neighbours of the exact value can
be the nearest reading, so only these are tried; of two that read back the
nearer one is taken, and the upper one when both are equally near.

The whole expansion reads back, so the search ends there at the latest.
-/

namespace SolarTakeoff

/-- What the first attempt comes to that leaves out `dropped` digits or as few
fewer as it takes; without any, the exact decimal. -/
def Decimal.searchFrom (attempt? : Nat → Option Decimal) (exact : Decimal) : Nat → Decimal
  | 0 => exact
  | dropped + 1 =>
    match attempt? (dropped + 1) with
    | some decimal => decimal
    | none => searchFrom attempt? exact dropped

namespace Magnitude

/-- The exact magnitude, in units of `10 ^ -1074`. -/
def expansion (magnitude : Magnitude) : Nat :=
  magnitude.units * Nat.pow 5 1074

/-- The decimal reads as this magnitude. -/
def readsBack (magnitude : Magnitude) (decimal : Decimal) : Bool :=
  decimal.toBinary64 false == .finite false magnitude

/-- The neighbour to write when `dropped` digits of the expansion are left
out, if one of the two reads back. -/
def neighbour? (magnitude : Magnitude) (dropped : Nat) : Option Decimal :=
  let grid := Nat.pow 10 dropped
  let lower : Decimal := ⟨magnitude.expansion / grid, dropped - 1074⟩
  let upper : Decimal := ⟨magnitude.expansion / grid + 1, dropped - 1074⟩
  let lowerIsNearer := decide (2 * (magnitude.expansion % grid) < grid)
  if magnitude.readsBack lower && (lowerIsNearer || !magnitude.readsBack upper) then
    some lower
  else if magnitude.readsBack upper then
    some upper
  else
    none

/-- The shortest decimal that reads back as the magnitude. -/
def shortest (magnitude : Magnitude) : Decimal :=
  Decimal.searchFrom magnitude.neighbour? ⟨magnitude.expansion, -1074⟩
    ((Nat.toDigits 10 magnitude.expansion).length - 1)

end Magnitude

namespace Binary64

def chars : Binary64 → List Char
  | .nan => ['N', 'a', 'N']
  | .infinite negative => (if negative then ['-'] else []) ++ ['i', 'n', 'f']
  | .finite negative magnitude =>
    (if negative then ['-'] else []) ++ magnitude.shortest.chars

/-- The text of a number: shortest digits, positional. -/
def text (x : Binary64) : String :=
  String.ofList x.chars

end Binary64

end SolarTakeoff
