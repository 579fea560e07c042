import SolarTakeoff.Binary64.Arithmetic

/-!
# Whole numbers and binary64

Rounding to whole numbers works on the exact count of units, so the result is
always a number of the format.  A result of zero keeps the sign of the
argument.  Rounding half up is the one exception to exactness: it adds one
half as a number, rounding that sum, before it takes the floor.
-/

namespace SolarTakeoff

namespace Binary64

/-- A whole number with the sign given for zero. -/
def ofWhole (negative : Bool) (value : Nat) : Binary64 :=
  ofRatio negative (value * oneUnits) 1

def floor : Binary64 → Binary64
  | .finite negative magnitude =>
    ofWhole negative (signedUnits negative magnitude / oneUnits).natAbs
  | x => x

def ceil : Binary64 → Binary64
  | .finite negative magnitude =>
    ofWhole negative (-signedUnits negative magnitude / oneUnits).natAbs
  | x => x

/-- Rounds to the nearest whole number, a half away from zero. -/
def roundAway : Binary64 → Binary64
  | .finite negative magnitude =>
    ofWhole negative ((2 * magnitude.units + oneUnits) / (2 * oneUnits))
  | x => x

/-- One half. -/
def half : Binary64 :=
  ofRatio false oneUnits 2

/-- Adds one half and takes the floor. -/
def roundHalfUp (x : Binary64) : Binary64 :=
  (x + half).floor

/-- Whether a number is finite and has no fraction. -/
def isWhole : Binary64 → Bool
  | .finite _ magnitude => magnitude.units % oneUnits = 0
  | _ => false

/-- The whole part, cut toward zero and clamped to sixty-four bits;
not-a-number counts as zero. -/
def toInt64 : Binary64 → Int64
  | .nan => 0
  | .infinite negative => if negative then Int64.minValue else Int64.maxValue
  | .finite negative magnitude =>
    let whole : Int := magnitude.units / oneUnits
    let signed := if negative then -whole else whole
    if signed < -9223372036854775808 then Int64.minValue
    else if 9223372036854775808 ≤ signed then Int64.maxValue
    else Int64.ofInt signed

end Binary64

end SolarTakeoff
