import SolarTakeoff.Proofs.Binary64.Exact
import Mathlib.Tactic

/-!
# Halves and the steps of magnitudes

One half and the step of the numbers just below it, as counts of units, and how
the step of a magnitude bounds the magnitude from both sides.  Where the step is
one, what lies in the middle between two whole numbers goes to the even one; where
it is larger, one half more or less is rounded away.
-/

namespace SolarTakeoff

/-- One half, in units. -/
def halfUnits : ℕ :=
  Nat.pow 2 1073

theorem halfUnits_eq_two_pow : halfUnits = 2 ^ 1073 := by
  unfold halfUnits
  generalize 1073 = shift
  rfl

theorem oneUnits_eq_two_pow : oneUnits = 2 ^ 1074 := by
  unfold oneUnits
  generalize 1074 = shift
  rfl

theorem two_mul_halfUnits : 2 * halfUnits = oneUnits := by
  rw [oneUnits_eq_two_pow, halfUnits_eq_two_pow]
  generalize hshift : 1073 = shift
  have hnext : 1074 = shift + 1 := by omega
  rw [hnext, Nat.pow_succ, Nat.mul_comm]

/-- The step of the numbers just below one half, in units. -/
def stepBelowHalf : ℕ :=
  Nat.pow 2 1020

theorem stepBelowHalf_eq_two_pow : stepBelowHalf = 2 ^ 1020 := by
  unfold stepBelowHalf
  generalize 1020 = shift
  rfl

theorem halfUnits_pos : (0 : ℤ) < halfUnits := by
  rw [halfUnits_eq_two_pow]
  generalize 1073 = shift
  exact_mod_cast Nat.two_pow_pos shift

theorem stepBelowHalf_pos : (0 : ℤ) < stepBelowHalf := by
  rw [stepBelowHalf_eq_two_pow]
  generalize 1020 = shift
  exact_mod_cast Nat.two_pow_pos shift

theorem two_pow_mul_stepBelowHalf : 2 ^ 53 * stepBelowHalf = halfUnits := by
  rw [stepBelowHalf_eq_two_pow, halfUnits_eq_two_pow]
  generalize hshift : 1020 = shift
  have hsum : 1073 = 53 + shift := by omega
  rw [hsum, Nat.pow_add]

theorem position?_half_eq : Binary64.half.position? = some (halfUnits : ℤ) := by
  decide +kernel

/-- The sum is a tie, and the even neighbour is one. -/
theorem roundedPosition_below_half :
    roundedPosition ((halfUnits : ℤ) - stepBelowHalf + halfUnits) 1 = oneUnits := by
  decide +kernel

attribute [local irreducible] oneUnits unitsLimit halfUnits stepBelowHalf

/-! ## Steps of magnitudes -/

theorem lt_two_pow_mul_ulp (units : ℕ) : units < 2 ^ 53 * ulp units := by
  unfold ulp
  rw [Nat.pow_eq, ← Nat.pow_add]
  calc units < 2 ^ (units.log2 + 1) := Nat.lt_log2_self
    _ ≤ 2 ^ (53 + (units.log2 - 52)) := Nat.pow_le_pow_right (by decide) (by omega)

theorem two_pow_dvd_ulp {units shift : ℕ} (h : 2 ^ 52 * 2 ^ shift ≤ units) :
    2 ^ shift ∣ ulp units := by
  rw [← Nat.pow_add] at h
  have hzero : units ≠ 0 := (Nat.lt_of_lt_of_le (Nat.two_pow_pos _) h).ne'
  have hlog : 52 + shift ≤ units.log2 := (Nat.le_log2 hzero).mpr h
  exact Nat.pow_dvd_pow 2 (by omega)

theorem oneUnits_dvd_ulp {units : ℕ} (h : 2 ^ 52 * oneUnits ≤ units) : oneUnits ∣ ulp units := by
  rw [oneUnits_eq_two_pow] at h ⊢
  generalize 1074 = exponent at h ⊢
  exact two_pow_dvd_ulp h

theorem two_mul_oneUnits_le_ulp {units : ℕ} (h : 2 ^ 53 * oneUnits ≤ units) :
    2 * oneUnits ≤ ulp units := by
  apply Nat.le_of_dvd (ulp_pos units)
  have hdouble : 2 ^ 52 * (2 * oneUnits) ≤ units := by rwa [← Nat.mul_assoc, ← Nat.pow_succ]
  rw [oneUnits_eq_two_pow] at hdouble ⊢
  generalize 1074 = exponent at hdouble ⊢
  rw [← Nat.pow_succ'] at hdouble ⊢
  exact two_pow_dvd_ulp hdouble

theorem halfUnits_dvd_ulp {units : ℕ} (h : 1073 ≤ units.log2 - 52) : halfUnits ∣ ulp units := by
  rw [halfUnits_eq_two_pow]
  generalize 1073 = shift at h ⊢
  exact Nat.pow_dvd_pow 2 h

theorem stepBelowHalf_dvd_ulp {units : ℕ} (h : 2 ^ 52 * stepBelowHalf ≤ units) :
    stepBelowHalf ∣ ulp units := by
  rw [stepBelowHalf_eq_two_pow] at h ⊢
  generalize 1020 = exponent at h ⊢
  exact two_pow_dvd_ulp h

theorem ulp_dvd_ulp {first second : ℕ} (h : first.log2 ≤ second.log2) : ulp first ∣ ulp second :=
  Nat.pow_dvd_pow 2 (by omega)

theorem add_ulp_le_two_pow {magnitude : ℕ} (haligned : ulp magnitude ∣ magnitude) :
    magnitude + ulp magnitude ≤ 2 ^ (magnitude.log2 + 1) := by
  have hpower : ulp magnitude ∣ 2 ^ (magnitude.log2 + 1) := Nat.pow_dvd_pow 2 (by omega)
  have hlt : magnitude < 2 ^ (magnitude.log2 + 1) := Nat.lt_log2_self
  exact Nat.le_of_lt_add_of_dvd (Nat.add_lt_add_right hlt _)
    (haligned.add (Nat.dvd_refl _)) hpower

/-- A multiple of a step that is less than half a step away is the nearest one. -/
theorem roundUnits_of_near {units nearest : ℕ} (hdvd : ulp units ∣ nearest)
    (hlow : 2 * nearest < 2 * units + ulp units) (hhigh : 2 * units < 2 * nearest + ulp units) :
    roundUnits units 1 = nearest := by
  obtain ⟨count, rfl⟩ := hdvd
  obtain ⟨hbelow, habove⟩ := nearestEven_error (n := units) (ulp_pos units)
  have hround : roundUnits units 1 = ulp units * nearestEven units (ulp units) := by
    simp only [roundUnits, Nat.div_one, Nat.one_mul]
    exact Nat.mul_comm _ _
  rw [Nat.mul_comm (nearestEven units (ulp units))] at hbelow habove
  rw [hround]
  congr 1
  have hmore : ulp units * nearestEven units (ulp units) < ulp units * (count + 1) := by
    rw [Nat.mul_succ]
    omega
  have hless : ulp units * count < ulp units * (nearestEven units (ulp units) + 1) := by
    rw [Nat.mul_succ]
    omega
  have hle := Nat.lt_of_mul_lt_mul_left hmore
  have hge := Nat.lt_of_mul_lt_mul_left hless
  omega

theorem ulp_halves {count : ℕ} (hlow : 2 ^ 52 ≤ count) (hhigh : count < 2 ^ 53) :
    ulp ((2 * count + 1) * halfUnits) = oneUnits := by
  rw [halfUnits_eq_two_pow, oneUnits_eq_two_pow]
  generalize hshift : 1073 = shift
  have hlog : ((2 * count + 1) * 2 ^ shift).log2 = shift + 53 := by
    rw [Nat.log2_eq_iff (Nat.mul_ne_zero (by omega) (Nat.two_pow_pos _).ne')]
    constructor
    · rw [Nat.pow_add, Nat.mul_comm]
      exact Nat.mul_le_mul_right _ (by omega)
    · rw [Nat.add_assoc, Nat.pow_add, Nat.mul_comm (2 ^ shift)]
      exact Nat.mul_lt_mul_of_pos_right (by omega) (Nat.two_pow_pos _)
  unfold ulp
  rw [hlog, Nat.pow_eq]
  congr 1
  omega

/-- Where the step is one, an odd number of halves goes to its even neighbour. -/
theorem roundUnits_halves {count : ℕ} (hlow : 2 ^ 52 ≤ count) (hhigh : count < 2 ^ 53) :
    roundUnits ((2 * count + 1) * halfUnits) 1 =
      (if count % 2 = 0 then count else count + 1) * oneUnits := by
  have htwo := two_mul_halfUnits
  have hpos := oneUnits_pos
  have hsplit : (2 * count + 1) * halfUnits = halfUnits + count * oneUnits := by
    rw [← htwo]
    ring
  have hquotient : (2 * count + 1) * halfUnits / oneUnits = count := by
    rw [hsplit, Nat.add_mul_div_right _ _ hpos, Nat.div_eq_of_lt (by omega), Nat.zero_add]
  have hremainder : (2 * count + 1) * halfUnits % oneUnits = halfUnits := by
    rw [hsplit, Nat.add_mul_mod_self_right, Nat.mod_eq_of_lt (by omega)]
  simp only [roundUnits, Nat.div_one, ulp_halves hlow hhigh, Nat.one_mul]
  congr 1
  unfold nearestEven
  dsimp only
  rw [hquotient, hremainder, htwo]
  simp

/-- Where the step is larger than one, a half is less than half a step. -/
theorem roundUnits_half_apart {units magnitude : ℕ} (haligned : ulp magnitude ∣ magnitude)
    (hlarge : 2 ^ 53 * oneUnits ≤ units)
    (hapart : units = magnitude + halfUnits ∨ units + halfUnits = magnitude) :
    roundUnits units 1 = magnitude := by
  have htwo := two_mul_halfUnits
  have hpos := oneUnits_pos
  have hstep : 2 * oneUnits ≤ ulp units := two_mul_oneUnits_le_ulp hlarge
  have hlog : units.log2 ≤ magnitude.log2 := by
    rcases hapart with habove | hbelow
    · by_contra hmore
      have hpower : 2 ^ (magnitude.log2 + 1) ≤ units :=
        (Nat.le_log2 (by omega)).mp (by omega)
      have hnext := add_ulp_le_two_pow haligned
      have hone : oneUnits ≤ ulp magnitude :=
        Nat.le_of_dvd (ulp_pos magnitude) (oneUnits_dvd_ulp (by omega))
      omega
    · rw [Nat.log2_eq_log_two, Nat.log2_eq_log_two]
      exact Nat.log_mono_right (by omega)
  apply roundUnits_of_near ((ulp_dvd_ulp hlog).trans haligned)
  · omega
  · omega

end SolarTakeoff
