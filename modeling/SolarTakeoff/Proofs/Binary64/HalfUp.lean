import SolarTakeoff.Proofs.Binary64.Halves
import Mathlib.Tactic

/-!
# The floor of a number and one half

One half is added as a number, so the sum is rounded before its floor is taken.
Below the next whole number there nearly always is a number that bounds the sum,
and the floor is that of the exact sum.  It is not just below one half, where the
sum is a tie with one; and it is not among whole numbers so large that no halves
lie between them, where the sum is a tie that goes to the even neighbour.

All of this is said of positions, counts of units that is, and last of values.
-/

namespace SolarTakeoff

attribute [local irreducible] oneUnits unitsLimit halfUnits stepBelowHalf

/-! ## Where the floor lies -/

/-- The rounded sum of so many units and one half is a number with this floor,
which is a number too. -/
structure HalfUpAt (units whole : ℤ) : Prop where
  range : |roundedPosition (units + halfUnits) 1| < unitsLimit
  floor : roundedPosition (units + halfUnits) 1 / oneUnits = whole
  exact : roundedPosition (whole * oneUnits) 1 = whole * oneUnits
  exact_range : |whole * (oneUnits : ℤ)| < unitsLimit

theorem two_pow_mul_oneUnits_lt_unitsLimit : (2 ^ 54 : ℤ) * oneUnits < unitsLimit := by
  have hnat : 2 ^ 54 * oneUnits < unitsLimit := by
    rw [two_pow_mul_oneUnits]
    exact two_pow_lt_unitsLimit (by decide)
  exact_mod_cast hnat

section Cases

variable {units whole count bound : ℤ}

theorem oneUnits_eq_add : (oneUnits : ℤ) = halfUnits + halfUnits := by
  have htwo := two_mul_halfUnits
  omega

theorem abs_mul_oneUnits_le (h : |whole| ≤ 2 ^ 53) :
    -(2 ^ 53 * oneUnits : ℤ) ≤ whole * oneUnits ∧ whole * oneUnits ≤ (2 ^ 53 * oneUnits : ℤ) := by
  have hone : (0 : ℤ) ≤ oneUnits := Int.natCast_nonneg _
  obtain ⟨hlow, hhigh⟩ := abs_le.mp h
  constructor
  · rw [← neg_mul]
    exact Int.mul_le_mul_of_nonneg_right hlow hone
  · exact Int.mul_le_mul_of_nonneg_right hhigh hone

theorem HalfUpAt.of_floor (hbits : |whole| ≤ 2 ^ 53)
    (hlow : whole * oneUnits ≤ roundedPosition (units + halfUnits) 1)
    (hhigh : roundedPosition (units + halfUnits) 1 < whole * oneUnits + oneUnits) :
    HalfUpAt units whole := by
  have hone := oneUnits_pos_int
  have hlimit := two_pow_mul_oneUnits_lt_unitsLimit
  obtain ⟨hleast, hmost⟩ := abs_mul_oneUnits_le hbits
  refine ⟨?_, ?_, roundedPosition_mul_oneUnits hbits, ?_⟩
  · rw [abs_lt]
    omega
  · apply le_antisymm
    · rw [← Int.lt_add_one_iff, Int.ediv_lt_iff_lt_mul hone, Int.add_mul, Int.one_mul]
      exact hhigh
    · rwa [Int.le_ediv_iff_mul_le hone]
  · rw [abs_lt]
    omega

/-- The floor is that of the exact sum as soon as some number lies between the sum
and the next whole number. -/
theorem HalfUpAt.of_bound (hbits : |whole| ≤ 2 ^ 53) (hlow : whole * oneUnits ≤ units + halfUnits)
    (hle : units + halfUnits ≤ bound) (hbound : roundedPosition bound 1 = bound)
    (hlt : bound < whole * oneUnits + oneUnits) : HalfUpAt units whole := by
  apply HalfUpAt.of_floor hbits
  · rw [← roundedPosition_mul_oneUnits hbits]
    exact roundedPosition_mono Nat.one_pos hlow
  · calc roundedPosition (units + halfUnits) 1 ≤ roundedPosition bound 1 :=
          roundedPosition_mono Nat.one_pos hle
      _ = bound := hbound
      _ < whole * oneUnits + oneUnits := hlt

theorem roundedPosition_mul_halfUnits (h : |count| ≤ 2 ^ 53) :
    roundedPosition (count * halfUnits) 1 = count * halfUnits := by
  have hhalf : (halfUnits : ℤ) = 2 ^ 1073 := by
    rw [halfUnits_eq_two_pow]
    generalize 1073 = shift
    exact Nat.cast_pow 2 shift
  rw [hhalf]
  generalize hshift : 1073 = shift
  exact roundedPosition_mul_two_pow h (by omega)

theorem halfUpAt_below_half : HalfUpAt (halfUnits - stepBelowHalf) 1 := by
  have hone := oneUnits_pos_int
  apply HalfUpAt.of_floor (by norm_num)
  · rw [roundedPosition_below_half]
    omega
  · rw [roundedPosition_below_half]
    omega

theorem halfUpAt_odd_halves (hodd : count % 2 = 1) (hcount : |count| < 2 ^ 53) :
    HalfUpAt (count * halfUnits) ((count + 1) / 2) := by
  have hone := oneUnits_eq_add
  have hpos := oneUnits_pos_int
  rw [abs_lt] at hcount
  have hsum : count * halfUnits + halfUnits = (count + 1) / 2 * oneUnits := by
    have hhalves : count + 1 = (count + 1) / 2 * 2 := by omega
    calc count * halfUnits + halfUnits = (count + 1) * (halfUnits : ℤ) := by ring
      _ = (count + 1) / 2 * 2 * halfUnits := by rw [← hhalves]
      _ = (count + 1) / 2 * oneUnits := by
        rw [hone]
        ring
  have hbits : |(count + 1) / 2| ≤ 2 ^ 53 := by
    rw [abs_le]
    omega
  apply HalfUpAt.of_bound hbits hsum.ge hsum.le (roundedPosition_mul_oneUnits hbits)
  omega

theorem HalfUpAt.of_le_whole (hfew : |2 * whole + 1| ≤ 2 ^ 53)
    (hlow : whole * oneUnits ≤ units + halfUnits) (hle : units ≤ whole * oneUnits) :
    HalfUpAt units whole := by
  have hone := oneUnits_eq_add
  have hpos := halfUnits_pos
  have hhalf : (2 * whole + 1) * (halfUnits : ℤ) = whole * oneUnits + halfUnits := by
    rw [hone]
    ring
  have hbits : |whole| ≤ 2 ^ 53 := by
    rw [abs_le] at hfew ⊢
    omega
  apply HalfUpAt.of_bound hbits hlow _ (roundedPosition_mul_halfUnits hfew)
  · rw [hhalf]
    omega
  · rw [hhalf]
    omega

theorem roundedPosition_halves {count : ℕ} (hlow : 2 ^ 52 ≤ count) (hhigh : count < 2 ^ 53) :
    roundedPosition (((2 * count + 1) * halfUnits : ℕ) : ℤ) 1 =
      (if count % 2 = 0 then (count : ℤ) else count + 1) * oneUnits := by
  have hround := roundUnits_halves hlow hhigh
  have hrange : roundUnits ((2 * count + 1) * halfUnits) 1 < unitsLimit := by
    have hlimit := two_pow_mul_oneUnits_lt_unitsLimit
    have hcount : (if count % 2 = 0 then count else count + 1) * oneUnits ≤ 2 ^ 54 * oneUnits :=
      Nat.mul_le_mul_right _ (by split <;> omega)
    rw [hround]
    omega
  rw [roundedPosition_natCast, clippedUnits, Nat.min_eq_left hrange.le, hround]
  push_cast
  rfl

/-- Where halves are no longer numbers, an odd number goes up to the next one. -/
theorem roundedPosition_whole_tie (hlow : 2 ^ 53 < |2 * whole + 1|)
    (hhigh : |2 * whole + 1| < 2 ^ 54) :
    roundedPosition (whole * oneUnits + halfUnits) 1 =
      (if whole % 2 = 0 then whole else whole + 1) * oneUnits := by
  have hone := oneUnits_eq_add
  rcases le_or_gt 0 whole with hwhole | hwhole
  · rw [abs_of_nonneg (by omega)] at hlow hhigh
    obtain ⟨count, rfl⟩ := Int.eq_ofNat_of_zero_le hwhole
    have hunits : (count : ℤ) * oneUnits + halfUnits = ((2 * count + 1) * halfUnits : ℕ) := by
      rw [hone]
      push_cast
      ring
    rw [hunits, roundedPosition_halves (by omega) (by omega)]
    congr 1
    split <;> split <;> omega
  · rw [abs_of_neg (by omega)] at hlow hhigh
    obtain ⟨count, hcount⟩ := Int.eq_ofNat_of_zero_le (show 0 ≤ -whole - 1 by omega)
    obtain rfl : whole = -count - 1 := by omega
    have hunits : (-count - 1 : ℤ) * oneUnits + halfUnits =
        -((2 * count + 1) * halfUnits : ℕ) := by
      rw [hone]
      push_cast
      ring
    rw [hunits, roundedPosition_neg, roundedPosition_halves (by omega) (by omega), ← neg_mul]
    congr 1
    split <;> split <;> omega

theorem halfUpAt_whole_tie (hlow : 2 ^ 53 < |2 * whole + 1|) (hhigh : |2 * whole + 1| < 2 ^ 54) :
    HalfUpAt (whole * oneUnits) (if whole % 2 = 0 then whole else whole + 1) := by
  have hpos := oneUnits_pos_int
  have hsum := roundedPosition_whole_tie hlow hhigh
  have hbits : |if whole % 2 = 0 then whole else whole + 1| ≤ 2 ^ 53 := by
    rw [abs_le]
    rcases abs_cases (2 * whole + 1) with ⟨habs, -⟩ | ⟨habs, -⟩ <;> split <;> omega
  apply HalfUpAt.of_floor hbits
  · rw [hsum]
  · rw [hsum]
    omega

section Large

variable {count : ℕ} (haligned : ulp (count * oneUnits) ∣ count * oneUnits)
  (hrange : count * oneUnits < unitsLimit)

include haligned hrange

theorem roundedPosition_half_apart {units : ℕ} (hlarge : 2 ^ 53 * oneUnits ≤ units)
    (hapart : units = count * oneUnits + halfUnits ∨ units + halfUnits = count * oneUnits) :
    roundedPosition (units : ℤ) 1 = count * oneUnits := by
  rw [roundedPosition_natCast, clippedUnits, roundUnits_half_apart haligned hlarge hapart,
    Nat.min_eq_left hrange.le]
  exact Nat.cast_mul _ _

theorem roundedPosition_add_half (hlarge : 2 ^ 53 ≤ count) :
    roundedPosition (count * oneUnits + halfUnits) 1 = count * oneUnits := by
  have hcount : 2 ^ 53 * oneUnits ≤ count * oneUnits := Nat.mul_le_mul_right _ hlarge
  have hunits : 2 ^ 53 * oneUnits ≤ count * oneUnits + halfUnits := by omega
  exact_mod_cast roundedPosition_half_apart haligned hrange hunits (.inl rfl)

theorem roundedPosition_neg_add_half (hlarge : 2 ^ 53 + 1 ≤ count) :
    roundedPosition (-count * oneUnits + halfUnits) 1 = -count * oneUnits := by
  have htwo := two_mul_halfUnits
  have hhalf : halfUnits ≤ oneUnits := by omega
  have hcount : 2 ^ 53 * oneUnits + oneUnits ≤ count * oneUnits := by
    rw [← Nat.succ_mul]
    exact Nat.mul_le_mul_right _ hlarge
  obtain ⟨units, hunits⟩ := Nat.exists_eq_add_of_le
    (hhalf.trans ((Nat.le_add_left _ _).trans hcount))
  have hround := roundedPosition_half_apart haligned hrange
    (show 2 ^ 53 * oneUnits ≤ units by omega) (.inr (by omega))
  have hopposite : (-count * oneUnits + halfUnits : ℤ) = -(units : ℤ) := by
    have hcast : (count * oneUnits : ℤ) = halfUnits + units := by exact_mod_cast hunits
    rw [Int.neg_mul, hcast]
    ring
  rw [hopposite, roundedPosition_neg, hround, Int.neg_mul]

end Large

/-- Still larger numbers are too far apart for a half to matter. -/
theorem halfUpAt_whole_large
    (haligned : ulp (whole * oneUnits : ℤ).natAbs ∣ (whole * oneUnits : ℤ).natAbs)
    (hrange : (whole * oneUnits : ℤ).natAbs < unitsLimit) (hlarge : 2 ^ 54 < |2 * whole + 1|) :
    HalfUpAt (whole * oneUnits) whole := by
  have hexact := roundedPosition_of_aligned haligned hrange
  have habs : |whole * (oneUnits : ℤ)| < unitsLimit := by
    rw [Int.abs_eq_natAbs]
    exact_mod_cast hrange
  have hsum : roundedPosition (whole * oneUnits + halfUnits) 1 = whole * oneUnits := by
    rw [Int.natAbs_mul, Int.natAbs_natCast] at haligned hrange
    rcases le_or_gt 0 whole with hwhole | hwhole
    · rw [abs_of_nonneg (by omega)] at hlarge
      obtain ⟨count, rfl⟩ := Int.eq_ofNat_of_zero_le hwhole
      exact roundedPosition_add_half haligned hrange (by omega)
    · rw [abs_of_neg (by omega)] at hlarge
      obtain ⟨count, hcount⟩ := Int.eq_ofNat_of_zero_le (show 0 ≤ -whole by omega)
      obtain rfl : whole = -count := by omega
      rw [Int.natAbs_neg, Int.natAbs_natCast] at haligned hrange
      exact roundedPosition_neg_add_half haligned hrange (by omega)
  refine ⟨?_, ?_, hexact, habs⟩
  · rwa [hsum]
  · rw [hsum]
    exact Int.mul_ediv_cancel _ oneUnits_pos_int.ne'

theorem roundedPosition_below_one :
    roundedPosition ((oneUnits : ℤ) - 2 * stepBelowHalf) 1 = oneUnits - 2 * stepBelowHalf := by
  have hstep : ((2 * stepBelowHalf : ℕ) : ℤ) = 2 ^ 1021 := by
    rw [stepBelowHalf_eq_two_pow]
    generalize hshift : 1020 = shift
    have hnext : 1021 = shift + 1 := by omega
    rw [hnext, pow_succ']
    push_cast
    rfl
  have hone : (oneUnits : ℤ) - 2 * stepBelowHalf =
      (2 ^ 53 - 1) * ((2 * stepBelowHalf : ℕ) : ℤ) := by
    rw [← two_mul_halfUnits, ← two_pow_mul_stepBelowHalf]
    push_cast
    ring
  rw [hone, hstep]
  generalize hshift : 1021 = shift
  exact roundedPosition_mul_two_pow (by norm_num) (by omega)

theorem HalfUpAt.of_below_half (hlow : 0 ≤ units + halfUnits)
    (hle : units ≤ halfUnits - 2 * stepBelowHalf) : HalfUpAt units 0 := by
  have hone := oneUnits_eq_add
  have hpos := stepBelowHalf_pos
  apply HalfUpAt.of_bound (by norm_num) (by omega) _ roundedPosition_below_one
  · omega
  · omega

theorem halfUnits_eq_mul_two_pow {shift : ℕ} (hshift : shift < 1073) :
    ∃ exponent, (halfUnits : ℤ) = 2 ^ (exponent + 1) * 2 ^ shift := by
  obtain ⟨exponent, hexponent⟩ := Nat.exists_eq_add_of_lt hshift
  refine ⟨exponent, ?_⟩
  rw [halfUnits_eq_two_pow, hexponent, ← pow_add]
  have hsum : shift + exponent + 1 = exponent + 1 + shift := by omega
  rw [hsum]
  exact Nat.cast_pow 2 _

theorem abs_le_of_halves {halves : ℤ} (hhalves : 1 ≤ halves) (hcount : |count| < 2 ^ 53)
    (hlow : whole * (2 * halves) ≤ count + halves)
    (hhigh : count + halves < whole * (2 * halves) + 2 * halves) : |whole| ≤ 2 ^ 53 := by
  have hpos : 0 < 2 * halves := by omega
  rw [abs_lt] at hcount
  rw [abs_le]
  constructor
  · apply le_of_mul_le_mul_right _ hpos
    linarith
  · apply le_of_mul_le_mul_right _ hpos
    linarith

/-- With halves that are a power of two, a count of fifty-three bits does not come
so close to the next whole number that the sum has more bits than the count. -/
theorem abs_add_halves_le {exponent : ℕ} (hcount : |count| < 2 ^ 53) (hwhole : 1 ≤ whole)
    (hlow : whole * (2 * 2 ^ (exponent + 1)) < count)
    (hhigh : count < whole * (2 * 2 ^ (exponent + 1)) + 2 ^ (exponent + 1)) :
    |count + 2 ^ (exponent + 1)| ≤ 2 ^ 53 := by
  have hpos : (0 : ℤ) < 2 ^ (exponent + 1) := by positivity
  have htwice : (2 * 2 ^ (exponent + 1) : ℤ) = 2 ^ (exponent + 2) := by ring
  rw [abs_lt] at hcount
  rw [htwice] at hlow hhigh
  have hstep : (0 : ℤ) < 2 ^ (exponent + 2) := by positivity
  have hless : (2 ^ (exponent + 2) : ℤ) < 2 ^ 53 := by
    calc (2 ^ (exponent + 2) : ℤ) = 1 * 2 ^ (exponent + 2) := (one_mul _).symm
      _ ≤ whole * 2 ^ (exponent + 2) := Int.mul_le_mul_of_nonneg_right hwhole hstep.le
      _ < 2 ^ 53 := by omega
  have hexponent : exponent + 2 < 53 := (pow_lt_pow_iff_right₀ (by decide)).mp hless
  have hnext : (whole + 1) * 2 ^ (exponent + 2) ≤ 2 ^ 53 := by
    obtain ⟨rest, hrest⟩ := Nat.exists_eq_add_of_lt hexponent
    have hsplit : (2 ^ 53 : ℤ) = 2 ^ (rest + 1) * 2 ^ (exponent + 2) := by
      rw [← pow_add]
      congr 1
      omega
    have hwholeLess : whole < 2 ^ (rest + 1) := by
      apply lt_of_mul_lt_mul_right _ hstep.le
      rw [← hsplit]
      omega
    rw [hsplit]
    exact Int.mul_le_mul_of_nonneg_right hwholeLess hstep.le
  rw [Int.add_mul, Int.one_mul] at hnext
  rw [abs_le]
  constructor <;> omega

theorem abs_halves_le {halves : ℤ} (hhalves : 2 ≤ halves) (hcount : |count| < 2 ^ 53)
    (hnonneg : 0 ≤ whole) (hlow : whole * (2 * halves) ≤ count + halves) :
    |2 * whole + 1| ≤ 2 ^ 53 := by
  rw [abs_of_nonneg (by omega)]
  rcases hnonneg.eq_or_lt with rfl | hwhole
  · norm_num
  · have hless := (abs_lt.mp hcount).2
    have hproduct := Int.mul_le_mul_of_nonneg_left hhalves (show 0 ≤ 2 * whole - 1 by omega)
    have hfactor : (2 * whole - 1) * halves = whole * (2 * halves) - halves := by ring
    omega

/-- Numbers with a fraction that is not a half, as counts of their step.  Only just
below one half is there no number between the sum and the next whole number. -/
theorem halfUpAt_count {shift exponent : ℕ} (hshift : shift < 1073)
    (hhalfUnits : (halfUnits : ℤ) = 2 ^ (exponent + 1) * 2 ^ shift) (hcount : |count| < 2 ^ 53)
    (hlow : whole * (2 * 2 ^ (exponent + 1)) ≤ count + 2 ^ (exponent + 1))
    (hhigh : count + 2 ^ (exponent + 1) <
      whole * (2 * 2 ^ (exponent + 1)) + 2 * 2 ^ (exponent + 1))
    (hbelow : count * 2 ^ shift < halfUnits → count * 2 ^ shift ≤ halfUnits - 2 * stepBelowHalf) :
    HalfUpAt (count * 2 ^ shift) whole := by
  have hstep : (0 : ℤ) < 2 ^ shift := by positivity
  have hhalves : (2 : ℤ) ≤ 2 ^ (exponent + 1) := le_self_pow₀ (by norm_num) (by omega)
  have hone : (oneUnits : ℤ) = 2 * 2 ^ (exponent + 1) * 2 ^ shift := by
    rw [oneUnits_eq_add, hhalfUnits]
    ring
  have hsum : count * 2 ^ shift + halfUnits = (count + 2 ^ (exponent + 1)) * 2 ^ shift := by
    rw [hhalfUnits]
    ring
  have hunitsLow : whole * oneUnits ≤ count * 2 ^ shift + halfUnits := by
    rw [hsum, hone, ← mul_assoc]
    exact Int.mul_le_mul_of_nonneg_right hlow hstep.le
  by_cases hexact : |count + 2 ^ (exponent + 1)| ≤ 2 ^ 53
  · have hbound := roundedPosition_mul_two_pow hexact (show shift + 53 < 2098 by omega)
    rw [← hsum] at hbound
    apply HalfUpAt.of_bound (abs_le_of_halves (by omega) hcount hlow hhigh) hunitsLow le_rfl hbound
    rw [hsum, hone, ← mul_assoc, ← Int.add_mul]
    exact Int.mul_lt_mul_of_pos_right hhigh hstep
  have hsumPos : 0 < count + 2 ^ (exponent + 1) := by
    rw [abs_lt] at hcount
    rw [abs_le] at hexact
    omega
  have hnonneg : 0 ≤ whole := by
    have hnext : 0 < (whole + 1) * (2 * 2 ^ (exponent + 1)) := by
      rw [Int.add_mul, Int.one_mul]
      exact hsumPos.trans hhigh
    exact Int.lt_add_one_iff.mp ((mul_pos_iff_of_pos_right (by omega)).mp hnext)
  rcases le_or_gt count (whole * (2 * 2 ^ (exponent + 1))) with hupper | hlower
  · have hle : count * 2 ^ shift ≤ whole * oneUnits := by
      rw [hone, ← mul_assoc]
      exact Int.mul_le_mul_of_nonneg_right hupper hstep.le
    exact .of_le_whole (abs_halves_le hhalves hcount hnonneg hlow) hunitsLow hle
  · rcases hnonneg.eq_or_lt with rfl | hwhole
    · have hless : count * 2 ^ shift < halfUnits := by
        rw [hhalfUnits]
        exact Int.mul_lt_mul_of_pos_right (by omega) hstep
      exact .of_below_half (by omega) (hbelow hless)
    · exact absurd (abs_add_halves_le hcount hwhole hlower (by omega)) hexact

theorem halfUpAt_fraction {shift : ℕ} (hshift : shift < 1073) (hcount : |count| < 2 ^ 53)
    (hunits : units = count * 2 ^ shift)
    (hbelow : units < halfUnits → units ≤ halfUnits - 2 * stepBelowHalf) :
    HalfUpAt units ((units + halfUnits) / oneUnits) := by
  subst hunits
  have hstep : (0 : ℤ) < 2 ^ shift := by positivity
  obtain ⟨exponent, hhalfUnits⟩ := halfUnits_eq_mul_two_pow hshift
  have hhalves : (0 : ℤ) < 2 * 2 ^ (exponent + 1) := by positivity
  have hfloor : (count * 2 ^ shift + halfUnits) / (oneUnits : ℤ) =
      (count + 2 ^ (exponent + 1)) / (2 * 2 ^ (exponent + 1)) := by
    have hsum : count * 2 ^ shift + halfUnits = (count + 2 ^ (exponent + 1)) * 2 ^ shift := by
      rw [hhalfUnits]
      ring
    have hone : (oneUnits : ℤ) = 2 * 2 ^ (exponent + 1) * 2 ^ shift := by
      rw [oneUnits_eq_add, hhalfUnits]
      ring
    rw [hsum, hone, Int.mul_ediv_mul_of_pos_left _ _ hstep]
  rw [hfloor]
  apply halfUpAt_count hshift hhalfUnits hcount _ _ hbelow
  · exact Int.ediv_mul_le _ hhalves.ne'
  · have hhigh := Int.lt_ediv_add_one_mul_self (count + 2 ^ (exponent + 1)) hhalves
    rwa [Int.add_mul, Int.one_mul] at hhigh

/-- The number just below one half, and the odd numbers among those that are one
apart: where the sum with one half is a tie that goes up. -/
def OvershootsAt (units : ℤ) : Prop :=
  units = halfUnits - stepBelowHalf ∨
    ∃ whole : ℤ, units = whole * oneUnits ∧ whole % 2 = 1 ∧ 2 ^ 52 < |whole| ∧ |whole| < 2 ^ 53

theorem whole_add_half_ediv (whole : ℤ) :
    (whole * oneUnits + halfUnits) / (oneUnits : ℤ) = whole := by
  have htwice := oneUnits_eq_add
  have hpos := halfUnits_pos
  rw [Int.add_comm, Int.add_mul_ediv_right _ _ (by omega),
    Int.ediv_eq_zero_of_lt hpos.le (by omega), Int.zero_add]

theorem OvershootsAt.halfUpAt (h : OvershootsAt units) :
    HalfUpAt units ((units + halfUnits) / oneUnits + 1) := by
  rcases h with rfl | ⟨whole, rfl, hodd, hlow, hhigh⟩
  · have hstep := stepBelowHalf_pos
    have hless : (stepBelowHalf : ℤ) ≤ halfUnits := by
      rw [← two_pow_mul_stepBelowHalf]
      push_cast
      omega
    have hfloor : ((halfUnits : ℤ) - stepBelowHalf + halfUnits) / oneUnits = 0 := by
      rw [oneUnits_eq_add]
      exact Int.ediv_eq_zero_of_lt (by omega) (by omega)
    rw [hfloor]
    exact halfUpAt_below_half
  · rw [whole_add_half_ediv]
    have htie := @halfUpAt_whole_tie whole
    rw [if_neg (by omega)] at htie
    apply htie
    · rcases abs_cases whole with ⟨habs, -⟩ | ⟨habs, -⟩ <;> rw [lt_abs] <;> omega
    · rcases abs_cases whole with ⟨habs, -⟩ | ⟨habs, -⟩ <;> rw [abs_lt] <;> omega

end Cases

section Aligned

variable {units : ℤ} (haligned : ulp units.natAbs ∣ units.natAbs)

include haligned

theorem le_of_lt_halfUnits (hless : units < halfUnits)
    (hbelow : units ≠ halfUnits - stepBelowHalf) : units ≤ halfUnits - 2 * stepBelowHalf := by
  by_contra hmore
  have hstep := stepBelowHalf_pos
  have hsplit : (halfUnits : ℤ) = 2 ^ 53 * stepBelowHalf := by
    exact_mod_cast two_pow_mul_stepBelowHalf.symm
  have hdvd : (stepBelowHalf : ℤ) ∣ units := by
    have hlarge : 2 ^ 52 * stepBelowHalf ≤ units.natAbs := by omega
    exact Int.natCast_dvd.mpr ((stepBelowHalf_dvd_ulp hlarge).trans haligned)
  obtain ⟨count, rfl⟩ := hdvd
  have hcount : count = 2 ^ 53 - 1 := by
    apply le_antisymm
    · have hhigh : count * (stepBelowHalf : ℤ) < 2 ^ 53 * stepBelowHalf := by linarith
      have := lt_of_mul_lt_mul_right hhigh hstep.le
      omega
    · have hlow : (2 ^ 53 - 2) * (stepBelowHalf : ℤ) < count * stepBelowHalf := by linarith
      have := lt_of_mul_lt_mul_right hlow hstep.le
      omega
  apply hbelow
  rw [hcount, hsplit]
  ring

omit haligned in
theorem halfUpAt_whole {whole : ℤ}
    (haligned : ulp (whole * oneUnits : ℤ).natAbs ∣ (whole * oneUnits : ℤ).natAbs)
    (hrange : (whole * oneUnits : ℤ).natAbs < unitsLimit)
    (h : ¬ OvershootsAt (whole * oneUnits)) : HalfUpAt (whole * oneUnits) whole := by
  rcases le_or_gt |2 * whole + 1| (2 ^ 53) with hsmall | hlarge
  · have hpos := halfUnits_pos
    exact .of_le_whole hsmall (by omega) le_rfl
  rcases lt_or_ge |2 * whole + 1| (2 ^ 54) with hless | hmore
  · have heven : whole % 2 = 0 := by
      by_contra hodd
      apply h
      refine .inr ⟨whole, rfl, by omega, ?_, ?_⟩
      · rcases lt_abs.mp hlarge with hlow | hlow
        · exact lt_abs.mpr (.inl (by omega))
        · exact lt_abs.mpr (.inr (by omega))
      · rw [abs_lt] at hless ⊢
        omega
    have htie := halfUpAt_whole_tie hlarge hless
    rwa [if_pos heven] at htie
  · apply halfUpAt_whole_large haligned hrange
    rcases abs_cases (2 * whole + 1) with ⟨hdouble, -⟩ | ⟨hdouble, -⟩ <;> omega

theorem natAbs_lt_of_not_whole (hwhole : ¬ (oneUnits : ℤ) ∣ units) :
    units.natAbs < 2 ^ 52 * oneUnits := by
  by_contra hlarge
  exact hwhole (Int.natCast_dvd.mpr ((oneUnits_dvd_ulp (not_lt.mp hlarge)).trans haligned))

theorem halfUpAt_halves (hwhole : ¬ (oneUnits : ℤ) ∣ units) (hhalves : (halfUnits : ℤ) ∣ units) :
    HalfUpAt units ((units + halfUnits) / oneUnits) := by
  have hdouble : (oneUnits : ℤ) = 2 * halfUnits := by exact_mod_cast two_mul_halfUnits.symm
  have hpos := halfUnits_pos
  have hfew := natAbs_lt_of_not_whole haligned hwhole
  obtain ⟨count, rfl⟩ := hhalves
  rw [mul_comm] at hwhole hfew ⊢
  have hodd : count % 2 = 1 := by
    by_contra heven
    obtain ⟨whole, rfl⟩ : (2 : ℤ) ∣ count := by omega
    apply hwhole
    rw [hdouble]
    exact ⟨whole, by ring⟩
  have hcount : |count| < 2 ^ 53 := by
    rw [Int.natAbs_mul, Int.natAbs_natCast, ← two_mul_halfUnits, ← Nat.mul_assoc,
      ← Nat.pow_succ] at hfew
    have hbits := Nat.lt_of_mul_lt_mul_right hfew
    rw [Int.abs_eq_natAbs]
    exact_mod_cast hbits
  have hfloor : (count * halfUnits + halfUnits) / (oneUnits : ℤ) = (count + 1) / 2 := by
    have hsum : count * halfUnits + halfUnits = (count + 1) * (halfUnits : ℤ) := by ring
    rw [hsum, hdouble, Int.mul_ediv_mul_of_pos_left _ _ hpos]
  rw [hfloor]
  exact halfUpAt_odd_halves hodd hcount

theorem exists_count :
    ∃ count : ℤ, |count| < 2 ^ 53 ∧ units = count * 2 ^ (units.natAbs.log2 - 52) := by
  have hbits := lt_two_pow_mul_ulp units.natAbs
  have hdvd : ((ulp units.natAbs : ℕ) : ℤ) ∣ units := Int.natCast_dvd.mpr haligned
  have hulp : ((ulp units.natAbs : ℕ) : ℤ) = 2 ^ (units.natAbs.log2 - 52) := by
    rw [ulp, Nat.pow_eq]
    exact Nat.cast_pow 2 _
  have habs : |units| < 2 ^ 53 * 2 ^ (units.natAbs.log2 - 52) := by
    rw [← hulp, Int.abs_eq_natAbs]
    exact_mod_cast hbits
  rw [hulp] at hdvd
  generalize units.natAbs.log2 - 52 = shift at habs hdvd ⊢
  obtain ⟨count, rfl⟩ := hdvd
  have hstep : (0 : ℤ) < 2 ^ shift := by positivity
  refine ⟨count, ?_, mul_comm _ _⟩
  rw [mul_comm, abs_mul, abs_of_pos hstep] at habs
  exact lt_of_mul_lt_mul_right habs hstep.le

theorem halfUpAt_between_halves (hhalves : ¬ (halfUnits : ℤ) ∣ units)
    (hbelow : units ≠ halfUnits - stepBelowHalf) :
    HalfUpAt units ((units + halfUnits) / oneUnits) := by
  have hshift : units.natAbs.log2 - 52 < 1073 := by
    by_contra hmore
    exact hhalves (Int.natCast_dvd.mpr ((halfUnits_dvd_ulp (not_lt.mp hmore)).trans haligned))
  obtain ⟨count, hfew, hunits⟩ := exists_count haligned
  exact halfUpAt_fraction hshift hfew hunits fun hless =>
    le_of_lt_halfUnits haligned hless hbelow

theorem halfUpAt_of_not_overshootsAt (hrange : units.natAbs < unitsLimit)
    (h : ¬ OvershootsAt units) : HalfUpAt units ((units + halfUnits) / oneUnits) := by
  by_cases hwhole : (oneUnits : ℤ) ∣ units
  · obtain ⟨whole, rfl⟩ := hwhole
    rw [mul_comm] at haligned hrange h ⊢
    rw [whole_add_half_ediv]
    exact halfUpAt_whole haligned hrange h
  by_cases hhalves : (halfUnits : ℤ) ∣ units
  · exact halfUpAt_halves haligned hwhole hhalves
  · exact halfUpAt_between_halves haligned hhalves fun hbelow => h (.inl hbelow)

end Aligned

/-! ## Values -/

namespace Binary64

variable {x : Binary64} {units whole : ℤ}

/-- The number just below one half, and the odd numbers of fifty-three bits: all whose
sum with one half is rounded up to a whole number. -/
def Overshoots (x : Binary64) : Prop :=
  x.toRat = 1 / 2 - 1 / 2 ^ 54 ∨
    ∃ whole : ℤ, x.toRat = whole ∧ Odd whole ∧ 2 ^ 52 < |whole| ∧ |whole| < 2 ^ 53

theorem overshootsAt_iff (hx : x.isFinite = true) (hunits : x.position? = some units) :
    OvershootsAt units ↔ x.Overshoots := by
  have hpos := oneUnits_pos_rat
  have hbelow : (2 : ℤ) ^ 54 * (halfUnits - stepBelowHalf) = (2 ^ 53 - 1) * oneUnits := by
    have hsplit : (halfUnits : ℤ) = 2 ^ 53 * stepBelowHalf := by
      exact_mod_cast two_pow_mul_stepBelowHalf.symm
    rw [oneUnits_eq_add, hsplit]
    ring
  unfold OvershootsAt Overshoots
  rw [toRat_of_position? hx hunits]
  apply or_congr
  · have hvalue : (1 / 2 - 1 / 2 ^ 54 : ℚ) * oneUnits = ((halfUnits - stepBelowHalf : ℤ) : ℚ) := by
      have hcast : (2 : ℚ) ^ 54 * ((halfUnits - stepBelowHalf : ℤ) : ℚ) =
          (2 ^ 53 - 1) * oneUnits := by exact_mod_cast hbelow
      linarith only [hcast]
    rw [div_eq_iff hpos.ne', hvalue, Int.cast_inj]
  · apply exists_congr
    intro whole
    rw [div_eq_iff hpos.ne', Int.odd_iff]
    norm_cast

theorem floor_toRat_add_half (hx : x.isFinite = true) (hunits : x.position? = some units) :
    ⌊x.toRat + 1 / 2⌋ = (units + halfUnits) / oneUnits := by
  have htwo : (2 : ℚ) * halfUnits = oneUnits := by exact_mod_cast two_mul_halfUnits
  have hpos := oneUnits_pos_rat
  have hsum : x.toRat + 1 / 2 = ((units + halfUnits : ℤ) : ℚ) / oneUnits := by
    rw [toRat_of_position? hx hunits, eq_div_iff hpos.ne', add_mul, div_mul_cancel₀ _ hpos.ne']
    push_cast
    linarith only [htwo]
  rw [hsum, Rat.floor_intCast_div_natCast]

theorem toRat_roundHalfUp (hx : x.isFinite = true) (hunits : x.position? = some units)
    (h : HalfUpAt units whole) : x.roundHalfUp.isFinite = true ∧ x.roundHalfUp.toRat = whole := by
  have hsum := position?_add hx isFinite_half hunits position?_half_eq
  have hfinite := isFinite_of_position? hsum h.range
  have hposition := position?_floor hfinite hsum
  rw [h.floor, h.exact] at hposition
  have hrounded := isFinite_of_position? hposition h.exact_range
  refine ⟨hrounded, ?_⟩
  change (x + half).floor.toRat = whole
  rw [toRat_of_position? hrounded hposition]
  push_cast
  exact mul_div_cancel_right₀ _ oneUnits_pos_rat.ne'

end Binary64

end SolarTakeoff
