import SolarTakeoff.Proofs.Binary64.Order
import Mathlib.Tactic

/-!
# What rounding preserves

A quotient that is a whole number of steps already is its own rounding.  Since
steps are powers of two, a whole number stays whole: either its step divides
one and it is kept, or one divides the step and so every multiple of it.

A quotient with the sign of a zero or of a positive number rounds to a number
that is not below zero; the same holds of products and of rounding to whole
numbers.

The unit and the limit are numerals of hundreds of digits.  They stay folded in
all that follows, and where one is unfolded its exponent becomes a variable.
-/

namespace SolarTakeoff

attribute [local irreducible] oneUnits unitsLimit

theorem ulp_pos (units : ℕ) : 0 < ulp units :=
  Nat.two_pow_pos _

theorem nearestEven_of_dvd {numerator denominator : ℕ} (hpos : 0 < denominator)
    (hdvd : denominator ∣ numerator) :
    nearestEven numerator denominator = numerator / denominator := by
  have hmod : numerator % denominator = 0 := Nat.mod_eq_zero_of_dvd hdvd
  simp [nearestEven, hmod, hpos]

theorem roundUnits_of_dvd {numerator denominator : ℕ}
    (hpos : 0 < denominator)
    (hdvd : denominator * ulp (numerator / denominator) ∣ numerator) :
    roundUnits numerator denominator = numerator / denominator := by
  have hstep : 0 < denominator * ulp (numerator / denominator) :=
    Nat.mul_pos hpos (ulp_pos _)
  have hquotient : ulp (numerator / denominator) ∣ numerator / denominator :=
    Nat.dvd_div_of_mul_dvd hdvd
  simp only [roundUnits]
  rw [nearestEven_of_dvd hstep hdvd, ← Nat.div_div_eq_div_mul]
  exact Nat.div_mul_cancel hquotient

theorem roundUnits_of_aligned {units : ℕ} (h : ulp units ∣ units) : roundUnits units 1 = units := by
  have hdvd : 1 * ulp (units / 1) ∣ units := by rwa [Nat.one_mul, Nat.div_one]
  rw [roundUnits_of_dvd Nat.one_pos hdvd, Nat.div_one]

theorem roundUnits_mul_oneUnits {whole : ℕ} (h : whole ≤ 2 ^ 53) :
    roundUnits (whole * oneUnits) 1 = whole * oneUnits := by
  apply roundUnits_of_aligned
  unfold oneUnits
  generalize 1074 = shift
  exact ulp_mul_ulp_dvd h

/-- Steps and one are powers of two, so one of them divides the other. -/
theorem ulp_dvd_oneUnits_or_dvd (units : ℕ) :
    ulp units ∣ oneUnits ∨ oneUnits ∣ ulp units := by
  unfold ulp oneUnits
  generalize units.log2 - 52 = shift, 1074 = limit
  rcases Nat.le_total shift limit with h | h
  · exact .inl (Nat.pow_dvd_pow 2 h)
  · exact .inr (Nat.pow_dvd_pow 2 h)

theorem oneUnits_dvd_roundUnits (value : ℕ) :
    oneUnits ∣ roundUnits (value * oneUnits) 1 := by
  rcases ulp_dvd_oneUnits_or_dvd (value * oneUnits / 1) with hdvd | hdvd
  · have hexact : 1 * ulp (value * oneUnits / 1) ∣ value * oneUnits := by
      rw [Nat.one_mul]
      exact hdvd.mul_left value
    rw [roundUnits_of_dvd Nat.one_pos hexact, Nat.div_one]
    exact Nat.dvd_mul_left oneUnits value
  · exact hdvd.mul_left _

@[simp] theorem roundUnits_zero (denominator : ℕ) : roundUnits 0 denominator = 0 := by
  have hnearest : ∀ step, nearestEven 0 step = 0 := by
    intro step
    unfold nearestEven
    rcases Nat.eq_zero_or_pos step with rfl | hstep <;> simp [*]
  simp [roundUnits, hnearest]

namespace Binary64

variable {x y : Binary64}

theorem isWhole_ofWhole_of_isFinite {negative : Bool} {value : ℕ}
    (h : (ofWhole negative value).isFinite = true) :
    (ofWhole negative value).isWhole = true := by
  unfold ofWhole ofRatio at h ⊢
  split at h
  next hlt =>
    rw [dif_pos hlt]
    simpa [isWhole] using Nat.mod_eq_zero_of_dvd (oneUnits_dvd_roundUnits value)
  next => simp [isFinite] at h

theorem isWhole_floor_of_isFinite (h : x.floor.isFinite = true) : x.floor.isWhole = true := by
  cases x with
  | nan => simp [floor, isFinite] at h
  | infinite negative => simp [floor, isFinite] at h
  | finite negative magnitude => exact isWhole_ofWhole_of_isFinite h

theorem isWhole_ceil_of_isFinite (h : x.ceil.isFinite = true) : x.ceil.isWhole = true := by
  cases x with
  | nan => simp [ceil, isFinite] at h
  | infinite negative => simp [ceil, isFinite] at h
  | finite negative magnitude => exact isWhole_ofWhole_of_isFinite h

theorem isWhole_roundHalfUp_of_isFinite (h : x.roundHalfUp.isFinite = true) :
    x.roundHalfUp.isWhole = true :=
  isWhole_floor_of_isFinite h

/-! ## Numbers that stay finite -/

/-- Whole numbers of up to fifty-three bits are numbers of the format. -/
theorem exists_magnitude_ofNat {value : ℕ} (h : value ≤ Nat.pow 2 53) :
    ∃ magnitude, ofNat value = .finite false magnitude ∧ magnitude.units = value * oneUnits := by
  have hunits : ((value : ℤ) * oneUnits).natAbs = value * oneUnits := by
    rw [← Int.natCast_mul, Int.natAbs_natCast]
  have hsign : decide ((value : ℤ) * oneUnits < 0) = false :=
    decide_eq_false (not_lt.mpr (by positivity))
  have hround := roundUnits_mul_oneUnits h
  have hlimit : value * oneUnits < unitsLimit := by
    calc value * oneUnits ≤ Nat.pow 2 53 * oneUnits := Nat.mul_le_mul_right _ h
      _ < unitsLimit := by
        have hshift : 53 + 1074 < 2098 := by decide
        unfold oneUnits unitsLimit
        generalize 1074 = shift, 2098 = limit at hshift ⊢
        simp only [Nat.pow_eq, ← Nat.pow_add]
        exact Nat.pow_lt_pow_right (by decide) hshift
  rw [← hround] at hlimit
  unfold ofNat ofInt ofUnits ofRatio
  rw [hunits, hsign, dif_pos hlimit]
  exact ⟨_, rfl, hround⟩

theorem isFinite_ofNat {value : ℕ} (h : value ≤ Nat.pow 2 53) :
    (ofNat value).isFinite = true := by
  obtain ⟨magnitude, hfinite, -⟩ := exists_magnitude_ofNat h
  rw [hfinite]
  rfl

/-! ## Results that are numbers -/

@[simp] theorem isNaN_ofRatio (negative : Bool) (numerator denominator : ℕ) :
    (ofRatio negative numerator denominator).isNaN = false := by
  unfold ofRatio
  split <;> rfl

theorem isNaN_mul_of_isFinite (hx : x.isFinite = true) (hy : y.isFinite = true) :
    (x * y).isNaN = false := by
  obtain ⟨_, _, rfl⟩ := isFinite_eq_true_iff.mp hx
  obtain ⟨_, _, rfl⟩ := isFinite_eq_true_iff.mp hy
  exact isNaN_ofRatio _ _ _

/-- An infinity that no other one meets stays what it is. -/
theorem isNaN_add_of_isFinite (hx : x.isNaN = false) (hy : y.isFinite = true) :
    (x + y).isNaN = false := by
  obtain ⟨b, second, rfl⟩ := isFinite_eq_true_iff.mp hy
  cases x with
  | nan => simp [isNaN] at hx
  | infinite a => rfl
  | finite a first =>
      change (if signedUnits a first + signedUnits b second = 0 then
        ofRatio (a && b) 0 1 else ofUnits (signedUnits a first + signedUnits b second)
        ).isNaN = false
      split <;> exact isNaN_ofRatio _ _ _

theorem isNaN_floor (h : x.isNaN = false) : x.floor.isNaN = false := by
  cases x with
  | nan => simp [isNaN] at h
  | infinite negative => rfl
  | finite negative magnitude => exact isNaN_ofRatio _ _ _

theorem isNaN_ceil (h : x.isNaN = false) : x.ceil.isNaN = false := by
  cases x with
  | nan => simp [isNaN] at h
  | infinite negative => rfl
  | finite negative magnitude => exact isNaN_ofRatio _ _ _

theorem isFinite_half : half.isFinite = true := by
  decide +kernel

theorem isNaN_roundHalfUp (h : x.isNaN = false) : x.roundHalfUp.isNaN = false :=
  isNaN_floor (isNaN_add_of_isFinite h isFinite_half)

/-! ## Signs -/

theorem zero_le_ofRatio {negative : Bool} {numerator denominator : ℕ}
    (h : negative = true → numerator = 0) :
    zero.le (ofRatio negative numerator denominator) = true := by
  unfold ofRatio
  split
  next hlt =>
    rw [zero_le_finite_iff]
    intro hnegative
    simp [h hnegative]
  next hge =>
    rw [zero_le_infinite_iff]
    by_contra hnegative
    simp [h (by simpa using hnegative), unitsLimit_pos] at hge

theorem zero_le_ofNat (value : ℕ) : zero.le (.ofNat value) = true := by
  unfold ofNat ofInt ofUnits
  apply zero_le_ofRatio
  intro hnegative
  have hnonneg : (0 : ℤ) ≤ (value : ℤ) * oneUnits := by positivity
  exact absurd (of_decide_eq_true hnegative) (not_lt.mpr hnonneg)

/-- The product of finite numbers that are not below zero is not below zero,
though it may be infinite. -/
theorem zero_le_mul (hx : x.isFinite = true) (hy : y.isFinite = true)
    (hzerox : zero.le x = true) (hzeroy : zero.le y = true) :
    zero.le (x * y) = true := by
  obtain ⟨a, first, rfl⟩ := isFinite_eq_true_iff.mp hx
  obtain ⟨b, second, rfl⟩ := isFinite_eq_true_iff.mp hy
  rw [zero_le_finite_iff] at hzerox hzeroy
  apply zero_le_ofRatio
  cases a <;> cases b <;> simp_all

theorem zero_le_roundAway (h : zero.le x = true) : zero.le x.roundAway = true := by
  cases x with
  | nan => exact h
  | infinite negative => exact h
  | finite negative magnitude =>
      rw [zero_le_finite_iff] at h
      apply zero_le_ofRatio
      intro hnegative
      have hsmall : oneUnits / (2 * oneUnits) = 0 :=
        Nat.div_eq_of_lt (by have := oneUnits_pos; omega)
      simp [h hnegative, hsmall]

end Binary64
end SolarTakeoff
