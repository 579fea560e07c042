import SolarTakeoff.Proofs.Binary64.Monotone
import Mathlib.Tactic

/-!
# Nearest whole numbers and sixty-four bits

Rounding a half away from zero and cutting toward zero are both quotients that
are cut toward zero, and so both keep the order of numbers.  The conversion to
sixty-four bits stops at the two ends, where the infinities end up as well.
-/

namespace SolarTakeoff

attribute [local irreducible] oneUnits unitsLimit

/-- The nearest integer of sixty-four bits. -/
def clamped (value : ℤ) : ℤ :=
  max (-9223372036854775808) (min 9223372036854775807 value)

namespace Binary64

variable {x y : Binary64} {a b : ℤ}

/-- The nearest whole number to a count of units, a half away from zero. -/
def wholeAway (units : ℤ) : ℤ :=
  (if units < 0 then 2 * units - oneUnits else 2 * units + oneUnits).tdiv (2 * oneUnits)

theorem wholeAway_mono (h : a ≤ b) : wholeAway a ≤ wholeAway b := by
  have hone : (0 : ℤ) < oneUnits := by exact_mod_cast oneUnits_pos
  unfold wholeAway
  apply Int.tdiv_le_tdiv (by omega)
  split_ifs <;> omega

theorem natAbs_wholeAway (units : ℤ) :
    (wholeAway units).natAbs = (2 * units.natAbs + oneUnits) / (2 * oneUnits) := by
  have hscale : (2 * (oneUnits : ℤ)).natAbs = 2 * oneUnits := by omega
  rw [wholeAway, Int.natAbs_tdiv, hscale]
  congr 1
  split_ifs <;> omega

theorem position?_roundAway (hx : x.isFinite = true) (ha : x.position? = some a) :
    x.roundAway.position? = some (roundedPosition (wholeAway a * oneUnits) 1) := by
  obtain ⟨p, magnitude, rfl⟩ := isFinite_eq_true_iff.mp hx
  obtain rfl : signedUnits p magnitude = a := Option.some.inj ha
  obtain ⟨hp, hp'⟩ := signedUnits_nonneg_or p magnitude
  have hzero : wholeAway 0 = 0 := by
    rw [← Int.natAbs_eq_zero, natAbs_wholeAway]
    exact Nat.div_eq_of_lt (by have := oneUnits_pos; omega)
  have hround : (finite p magnitude).roundAway =
      ofWhole p (wholeAway (signedUnits p magnitude)).natAbs := by
    rw [natAbs_wholeAway, natAbs_signedUnits]
    rfl
  rw [hround]
  apply position?_ofWhole
  · exact fun h => hzero ▸ wholeAway_mono (hp h)
  · exact fun h => hzero ▸ wholeAway_mono (hp' h)

theorem isNaN_roundAway (h : x.isNaN = false) : x.roundAway.isNaN = false := by
  cases x with
  | nan => cases h
  | infinite negative => rfl
  | finite negative magnitude => exact isNaN_ofRatio _ _ _

theorem keepsOrder_roundAway : KeepsOrder roundAway := by
  refine .of_finite rfl rfl (fun x => isNaN_roundAway) ?_
  intro x y a b hx hy ha hb hab
  have hwhole : wholeAway a * oneUnits ≤ wholeAway b * (oneUnits : ℤ) :=
    Int.mul_le_mul_of_nonneg_right (wholeAway_mono hab) (Int.natCast_nonneg _)
  exact le_eq_true_iff.mpr ⟨_, _, position?_roundAway hx ha, position?_roundAway hy hb,
    roundedPosition_mono Nat.one_pos hwhole⟩

/-! ## Sixty-four bits -/

/-- The infinities lie far beyond the largest integer of sixty-four bits. -/
theorem limit_le_tdiv : (9223372036854775808 : ℤ) ≤ (unitsLimit : ℤ).tdiv oneUnits := by
  have hone : (0 : ℤ) < oneUnits := by exact_mod_cast oneUnits_pos
  have hnat : 9223372036854775808 * oneUnits ≤ unitsLimit := by
    have hshift : 63 + 1074 ≤ 2098 := by decide
    unfold oneUnits unitsLimit
    generalize 1074 = shift, 2098 = limit at hshift ⊢
    calc 9223372036854775808 * Nat.pow 2 shift = 2 ^ (63 + shift) := by
          rw [Nat.pow_add]
          rfl
      _ ≤ Nat.pow 2 limit := Nat.pow_le_pow_right (by decide) hshift
  rw [Int.tdiv_eq_ediv_of_nonneg (Int.natCast_nonneg _), Int.le_ediv_iff_mul_le hone]
  exact_mod_cast hnat

theorem toInt_toInt64 (ha : x.position? = some a) :
    x.toInt64.toInt = clamped (a.tdiv oneUnits) := by
  have hlimit := limit_le_tdiv
  unfold clamped
  cases x with
  | nan => cases ha
  | infinite negative =>
      cases negative with
      | false =>
          obtain rfl : (unitsLimit : ℤ) = a := Option.some.inj ha
          have hvalue : (infinite false).toInt64.toInt = 9223372036854775807 := by decide
          omega
      | true =>
          obtain rfl : -(unitsLimit : ℤ) = a := Option.some.inj ha
          have hvalue : (infinite true).toInt64.toInt = -9223372036854775808 := by decide
          rw [Int.neg_tdiv]
          omega
  | finite negative magnitude =>
      obtain rfl : signedUnits negative magnitude = a := Option.some.inj ha
      have hwhole : (signedUnits negative magnitude).tdiv oneUnits =
          if negative then -((magnitude.units : ℤ) / oneUnits)
          else (magnitude.units : ℤ) / oneUnits := by
        cases negative <;>
          simp [signedUnits, Int.neg_tdiv, Int.tdiv_eq_ediv_of_nonneg]
      rw [hwhole]
      unfold toInt64
      dsimp only
      generalize (if negative then -((magnitude.units : ℤ) / oneUnits)
        else (magnitude.units : ℤ) / oneUnits) = signed
      by_cases hlow : signed < -9223372036854775808
      · rw [if_pos hlow, Int64.toInt_minValue]
        omega
      · rw [if_neg hlow]
        by_cases hhigh : 9223372036854775808 ≤ signed
        · rw [if_pos hhigh, Int64.toInt_maxValue]
          omega
        · rw [if_neg hhigh, Int64.toInt_ofInt_of_le (by omega) (by omega)]
          omega

theorem toInt64_nonneg (h : zero.le x = true) : 0 ≤ x.toInt64.toInt := by
  obtain ⟨a, ha, hnonneg⟩ := zero_le_iff.mp h
  have hwhole : 0 ≤ a.tdiv oneUnits := Int.tdiv_nonneg hnonneg (Int.natCast_nonneg _)
  rw [toInt_toInt64 ha]
  unfold clamped
  omega

theorem toInt64_le_toInt64 (h : x.le y = true) : x.toInt64.toInt ≤ y.toInt64.toInt := by
  obtain ⟨a, b, ha, hb, hab⟩ := le_eq_true_iff.mp h
  have hone : (0 : ℤ) < oneUnits := by exact_mod_cast oneUnits_pos
  have hwhole := Int.tdiv_le_tdiv hone hab
  rw [toInt_toInt64 ha, toInt_toInt64 hb]
  unfold clamped
  omega

end Binary64

end SolarTakeoff
