/-!
# Binary64 numbers as counts of their smallest unit

Every finite binary64 number is a whole multiple of `2 ^ -1074`, so a finite
number is kept as a sign and a natural number of such units.  Order, sums and
products are then exact integer arithmetic, and each operation rounds its
exact result once.

`Binary64.ofRatio` is the only way from an exact value to a number.  It picks
the nearest multiple of the unit in the last place, a half going to the even
multiple, and turns into an infinity where the multiple no longer fits.
`ulp_dvd_roundUnits` is why its result is again a number of the format.
-/

namespace SolarTakeoff

/-- The unit in the last place, counted in the smallest unit: magnitudes keep
fifty-three significant bits. -/
def ulp (units : Nat) : Nat :=
  Nat.pow 2 (units.log2 - 52)

/-- The first power of two that is too large for a magnitude, in units. -/
def unitsLimit : Nat :=
  Nat.pow 2 2098

/-- The number one, in units. -/
def oneUnits : Nat :=
  Nat.pow 2 1074

theorem unitsLimit_pos : 0 < unitsLimit :=
  Nat.two_pow_pos 2098

theorem oneUnits_pos : 0 < oneUnits :=
  Nat.two_pow_pos 1074

/-- A finite magnitude, in units of `2 ^ -1074`. -/
structure Magnitude where
  units : Nat
  bounded : units < unitsLimit
  aligned : ulp units ∣ units
deriving DecidableEq

/-- A binary64 number.  Equality of this type tells the two zeros apart and
makes not-a-number equal to itself; `Binary64.eq` is the numeric one. -/
inductive Binary64 where
  | nan
  | infinite (negative : Bool)
  | finite (negative : Bool) (magnitude : Magnitude)
deriving DecidableEq

/-- The quotient rounded to the nearest natural number, a half to the even one. -/
def nearestEven (numerator denominator : Nat) : Nat :=
  let quotient := numerator / denominator
  let remainder := numerator % denominator
  if 2 * remainder < denominator ∨ 2 * remainder = denominator ∧ quotient % 2 = 0 then
    quotient
  else
    quotient + 1

/-- The quotient rounded to fifty-three significant bits. -/
def roundUnits (numerator denominator : Nat) : Nat :=
  let step := ulp (numerator / denominator)
  nearestEven numerator (denominator * step) * step

theorem nearestEven_le (numerator denominator : Nat) :
    nearestEven numerator denominator ≤ numerator / denominator + 1 := by
  unfold nearestEven
  dsimp only
  split <;> omega

theorem le_nearestEven (numerator denominator : Nat) :
    numerator / denominator ≤ nearestEven numerator denominator := by
  unfold nearestEven
  dsimp only
  split <;> omega

theorem ulp_mul_ulp_dvd {count shift : Nat} (hcount : count ≤ Nat.pow 2 53) :
    ulp (count * Nat.pow 2 shift) ∣ count * Nat.pow 2 shift := by
  simp only [ulp, Nat.pow_eq] at hcount ⊢
  by_cases hzero : count = 0
  · simp [hzero]
  by_cases hfull : count = 2 ^ 53
  · subst hfull
    rw [← Nat.pow_add, Nat.log2_two_pow]
    exact Nat.pow_dvd_pow 2 (by omega)
  · have hlt : count * 2 ^ shift < 2 ^ (53 + shift) := by
      rw [Nat.pow_add]
      exact Nat.mul_lt_mul_of_pos_right (by omega) (Nat.two_pow_pos shift)
    have hne : count * 2 ^ shift ≠ 0 :=
      Nat.mul_ne_zero hzero (Nat.ne_of_gt (Nat.two_pow_pos shift))
    have hlog : (count * 2 ^ shift).log2 < 53 + shift :=
      (Nat.log2_lt hne).mpr hlt
    exact Nat.dvd_trans (Nat.pow_dvd_pow 2 (by omega)) (Nat.dvd_mul_left _ _)

theorem ulp_dvd_roundUnits (numerator denominator : Nat) :
    ulp (roundUnits numerator denominator) ∣ roundUnits numerator denominator := by
  unfold roundUnits
  apply ulp_mul_ulp_dvd
  apply Nat.le_trans (nearestEven_le _ _)
  rw [← Nat.div_div_eq_div_mul]
  have hlt : numerator / denominator < 2 ^ ((numerator / denominator).log2 + 1) :=
    Nat.lt_log2_self
  have hpow : 2 ^ ((numerator / denominator).log2 + 1) ≤
      2 ^ 53 * 2 ^ ((numerator / denominator).log2 - 52) := by
    rw [← Nat.pow_add]
    exact Nat.pow_le_pow_right (by decide) (by omega)
  have hquotient : numerator / denominator /
      2 ^ ((numerator / denominator).log2 - 52) < 2 ^ 53 :=
    (Nat.div_lt_iff_lt_mul (Nat.two_pow_pos _)).mpr (Nat.lt_of_lt_of_le hlt hpow)
  simp only [ulp, Nat.pow_eq]
  omega

namespace Binary64

/-- The number nearest to `± numerator / denominator` units. -/
def ofRatio (negative : Bool) (numerator denominator : Nat) : Binary64 :=
  if h : roundUnits numerator denominator < unitsLimit then
    .finite negative ⟨roundUnits numerator denominator, h, ulp_dvd_roundUnits _ _⟩
  else
    .infinite negative

/-- A signed whole number of units, rounded to a number. -/
def ofUnits (units : Int) : Binary64 :=
  ofRatio (decide (units < 0)) units.natAbs 1

/-- The number nearest to a whole number; zero is the positive one. -/
def ofInt (value : Int) : Binary64 :=
  ofUnits (value * oneUnits)

def ofNat (value : Nat) : Binary64 :=
  ofInt value

def zero : Binary64 :=
  .finite false ⟨0, unitsLimit_pos, Nat.dvd_zero _⟩

def isFinite : Binary64 → Bool
  | .finite _ _ => true
  | _ => false

def isNaN : Binary64 → Bool
  | .nan => true
  | _ => false

/-- Where a number lies on the line of units; the infinities lie just beyond
the largest magnitude, and not-a-number lies nowhere. -/
def position? : Binary64 → Option Int
  | .nan => none
  | .infinite negative => some (if negative then -(unitsLimit : Int) else unitsLimit)
  | .finite negative magnitude =>
    some (if negative then -(magnitude.units : Int) else magnitude.units)

/-- Numeric comparisons; all are false when not-a-number takes part. -/
def lt (x y : Binary64) : Bool :=
  match x.position?, y.position? with
  | some a, some b => decide (a < b)
  | _, _ => false

def le (x y : Binary64) : Bool :=
  match x.position?, y.position? with
  | some a, some b => decide (a ≤ b)
  | _, _ => false

def eq (x y : Binary64) : Bool :=
  match x.position?, y.position? with
  | some a, some b => decide (a = b)
  | _, _ => false

end Binary64

end SolarTakeoff
