import SolarTakeoff.Proofs.Binary64.Whole
import Mathlib.Tactic

/-!
# Exact values and the error of a rounding

A finite number has an exact rational value.  The nearest multiple of a step is
half a step away at most, and a bound on the exact result bounds the step, so
every product comes with a bound on its error that does not ask for the step.

What is a multiple of a power of two and has at most fifty-three bits is a
number of the format, and rounding leaves it where it is.
-/

namespace SolarTakeoff

attribute [local irreducible] oneUnits unitsLimit

/-! ## The error of a rounding -/

section Error

variable {n d : ℕ}

theorem ulp_le_two_pow {units shift : ℕ} (h : units < 2 ^ (shift + 53)) :
    ulp units ≤ 2 ^ shift := by
  unfold ulp
  rw [Nat.pow_eq]
  apply Nat.pow_le_pow_right (by decide)
  by_cases hzero : units = 0
  · simp [hzero]
  · have hlog : units.log2 < shift + 53 := (Nat.log2_lt hzero).mpr h
    omega

theorem nearestEven_error (hd : 0 < d) :
    2 * n ≤ 2 * (nearestEven n d * d) + d ∧ 2 * (nearestEven n d * d) ≤ 2 * n + d := by
  have hn : d * (n / d) + n % d = n := Nat.div_add_mod n d
  have hremainder : n % d < d := Nat.mod_lt n hd
  have hdown : n / d * d = d * (n / d) := Nat.mul_comm _ _
  have hup : (n / d + 1) * d = d * (n / d) + d := by ring
  unfold nearestEven
  dsimp only
  split
  · rw [hdown]
    omega
  · rw [hup]
    omega

theorem abs_roundUnits_sub_le (hd : 0 < d) :
    |(roundUnits n d : ℚ) - n / d| ≤ ulp (n / d) / 2 := by
  have hstep : 0 < d * ulp (n / d) := Nat.mul_pos hd (ulp_pos _)
  obtain ⟨hlow, hhigh⟩ := nearestEven_error (n := n) hstep
  have hround : nearestEven n (d * ulp (n / d)) * (d * ulp (n / d)) = roundUnits n d * d := by
    simp only [roundUnits]
    ring
  rw [hround] at hlow hhigh
  have hpos : (0 : ℚ) < d := by exact_mod_cast hd
  have hlow' : (2 * n : ℚ) ≤ 2 * (roundUnits n d * d) + d * ulp (n / d) := by exact_mod_cast hlow
  have hhigh' : 2 * (roundUnits n d * d : ℚ) ≤ 2 * n + d * ulp (n / d) := by exact_mod_cast hhigh
  have hquotient : (n : ℚ) / d * d = n := div_mul_cancel₀ _ hpos.ne'
  rw [abs_le]
  constructor
  · apply le_of_mul_le_mul_right _ hpos
    linarith only [hlow', hquotient]
  · apply le_of_mul_le_mul_right _ hpos
    linarith only [hhigh', hquotient]

end Error

theorem two_pow_lt_unitsLimit {exponent : ℕ} (h : exponent < 2098) : 2 ^ exponent < unitsLimit := by
  unfold unitsLimit
  generalize 2098 = limit at h ⊢
  exact Nat.pow_lt_pow_right (by decide) h

theorem roundUnits_lt_unitsLimit {n d exponent : ℕ} (hsmall : n / d < 2 ^ exponent)
    (hexponent : exponent < 2098) : roundUnits n d < unitsLimit := by
  have hlimit := two_pow_lt_unitsLimit hexponent
  by_cases hzero : n / d = 0
  · have hone : roundUnits n d ≤ 2 ^ ((n / d).log2 + 1) := roundUnits_le_two_pow n d
    rw [hzero] at hone
    exact hone.trans_lt (two_pow_lt_unitsLimit (by decide))
  · have hlog : (n / d).log2 < exponent := (Nat.log2_lt hzero).mpr hsmall
    calc roundUnits n d ≤ 2 ^ ((n / d).log2 + 1) := roundUnits_le_two_pow n d
      _ ≤ 2 ^ exponent := Nat.pow_le_pow_right (by decide) hlog
      _ < unitsLimit := hlimit

@[simp] theorem roundedPosition_natCast (value d : ℕ) :
    roundedPosition value d = clippedUnits value d := by
  simp [roundedPosition]

theorem roundedPosition_neg (value : ℤ) (d : ℕ) :
    roundedPosition (-value) d = -roundedPosition value d := by
  unfold roundedPosition
  rcases lt_trichotomy value 0 with hvalue | rfl | hvalue
  · simp [hvalue, hvalue.le]
  · simp [clippedUnits]
  · simp [hvalue, hvalue.le]

theorem two_pow_mul_oneUnits (exponent : ℕ) :
    2 ^ exponent * oneUnits = 2 ^ (exponent + 1021 + 53) := by
  have hsum : exponent + 1021 + 53 = exponent + 1074 := by omega
  rw [hsum]
  unfold oneUnits
  generalize 1074 = shift
  rw [Nat.pow_eq, Nat.pow_add]

/-- A quotient of so many bits stays in range, and is rounded by half of its last
bit at most. -/
theorem abs_roundedPosition_sub_le {value : ℤ} {d shift : ℕ} (hd : 0 < d)
    (hsmall : |value| < 2 ^ (shift + 53) * d) (hshift : shift + 53 < 2098) :
    |roundedPosition value d| < unitsLimit ∧
      |(roundedPosition value d : ℚ) - value / d| ≤ 2 ^ shift / 2 := by
  wlog hvalue : 0 ≤ value generalizing value with hopposite
  · have hneg := @hopposite (-value) (by rwa [abs_neg]) (by omega)
    rw [roundedPosition_neg, abs_neg] at hneg
    refine ⟨hneg.1, ?_⟩
    have hsame : |(roundedPosition value d : ℚ) - value / d| =
        |((-roundedPosition value d : ℤ) : ℚ) - (-value : ℤ) / d| := by
      rw [← abs_neg]
      congr 1
      push_cast
      ring
    rw [hsame]
    exact hneg.2
  obtain ⟨units, rfl⟩ := Int.eq_ofNat_of_zero_le hvalue
  have hquotient : units / d < 2 ^ (shift + 53) := by
    rw [Nat.div_lt_iff_lt_mul hd]
    rw [abs_of_nonneg hvalue] at hsmall
    exact_mod_cast hsmall
  have hrange : roundUnits units d < unitsLimit := roundUnits_lt_unitsLimit hquotient hshift
  have hclipped : clippedUnits units d = roundUnits units d := Nat.min_eq_left hrange.le
  have hstep : (ulp (units / d) : ℚ) ≤ 2 ^ shift := by
    exact_mod_cast ulp_le_two_pow hquotient
  rw [roundedPosition_natCast, hclipped]
  constructor
  · rw [Nat.abs_cast]
    exact_mod_cast hrange
  · have herror := abs_roundUnits_sub_le (n := units) hd
    push_cast
    linarith only [herror, hstep]

/-! ## What rounding leaves where it is -/

/-- Below fifty-three bits a whole number is all that rounds to itself. -/
theorem eq_of_roundUnits_eq {number value : ℕ} (hvalue : value < 2 ^ 53)
    (h : roundUnits (number * oneUnits) 1 = value * oneUnits) : number = value := by
  rcases Nat.le_total number (2 ^ 53) with hsmall | hlarge
  · rw [roundUnits_mul_oneUnits hsmall] at h
    exact Nat.eq_of_mul_eq_mul_right oneUnits_pos h
  · have hmono : roundUnits (2 ^ 53 * oneUnits) 1 ≤ roundUnits (number * oneUnits) 1 :=
      roundUnits_mono Nat.one_pos Nat.one_pos
        (Nat.mul_le_mul_right 1 (Nat.mul_le_mul_right oneUnits hlarge))
    rw [roundUnits_mul_oneUnits le_rfl, h] at hmono
    have hbound := Nat.le_of_mul_le_mul_right hmono oneUnits_pos
    omega

theorem roundedPosition_of_aligned {units : ℤ} (h : ulp units.natAbs ∣ units.natAbs)
    (hrange : units.natAbs < unitsLimit) : roundedPosition units 1 = units := by
  have hclipped : clippedUnits units.natAbs 1 = units.natAbs := by
    rw [clippedUnits, roundUnits_of_aligned h, Nat.min_eq_left hrange.le]
  unfold roundedPosition
  rw [hclipped]
  split <;> omega

/-- Fifty-three bits anywhere in the range are exact. -/
theorem roundedPosition_mul_two_pow {count : ℤ} {shift : ℕ} (hcount : |count| ≤ 2 ^ 53)
    (hshift : shift + 53 < 2098) :
    roundedPosition (count * 2 ^ shift) 1 = count * 2 ^ shift := by
  have hbits : count.natAbs ≤ 2 ^ 53 := by
    zify
    exact hcount
  have hunits : (count * 2 ^ shift).natAbs = count.natAbs * 2 ^ shift := by
    rw [Int.natAbs_mul, Int.natAbs_pow]
    rfl
  apply roundedPosition_of_aligned
  · rw [hunits]
    exact ulp_mul_ulp_dvd hbits
  · rw [hunits]
    calc count.natAbs * 2 ^ shift ≤ 2 ^ 53 * 2 ^ shift := Nat.mul_le_mul_right _ hbits
      _ = 2 ^ (shift + 53) := by rw [Nat.mul_comm, Nat.pow_add]
      _ < unitsLimit := two_pow_lt_unitsLimit hshift

theorem roundedPosition_mul_oneUnits {whole : ℤ} (h : |whole| ≤ 2 ^ 53) :
    roundedPosition (whole * oneUnits) 1 = whole * oneUnits := by
  have hone : (oneUnits : ℤ) = 2 ^ 1074 := by
    unfold oneUnits
    generalize 1074 = shift
    simp
  rw [hone]
  generalize hshift : 1074 = shift
  exact roundedPosition_mul_two_pow h (by omega)

/-! ## Exact values -/

theorem oneUnits_pos_int : (0 : ℤ) < oneUnits := by
  exact_mod_cast oneUnits_pos

namespace Binary64

variable {x y : Binary64} {a b : ℤ}

/-- The exact value of a finite number; an infinity and not-a-number have none
and count as zero. -/
def toRat : Binary64 → ℚ
  | .finite negative magnitude => signedUnits negative magnitude / oneUnits
  | _ => 0

theorem oneUnits_pos_rat : (0 : ℚ) < oneUnits := by
  exact_mod_cast oneUnits_pos

theorem toRat_of_position? (hx : x.isFinite = true) (ha : x.position? = some a) :
    x.toRat = a / oneUnits := by
  obtain ⟨negative, magnitude, rfl⟩ := isFinite_eq_true_iff.mp hx
  obtain rfl : signedUnits negative magnitude = a := Option.some.inj ha
  rfl

theorem isFinite_of_position? (ha : x.position? = some a) (h : |a| < unitsLimit) :
    x.isFinite = true := by
  cases x with
  | nan => cases ha
  | infinite negative =>
      obtain rfl : (if negative then -(unitsLimit : ℤ) else unitsLimit) = a := Option.some.inj ha
      cases negative <;> simp at h
  | finite negative magnitude => rfl

/-- A product below a power of two is finite, and is not off by more than fifty-four
bits further down. -/
theorem abs_toRat_mul_sub_le {exponent : ℕ} (hx : x.isFinite = true) (hy : y.isFinite = true)
    (hsmall : |x.toRat * y.toRat| < 2 ^ exponent) (hexponent : exponent < 1024) :
    (x * y).isFinite = true ∧
      |(x * y).toRat - x.toRat * y.toRat| ≤ 2 ^ exponent / 2 ^ 54 := by
  obtain ⟨a, ha⟩ := exists_position_of_isFinite hx
  obtain ⟨b, hb⟩ := exists_position_of_isFinite hy
  have hposition := position?_mul hx hy ha hb
  rw [toRat_of_position? hx ha, toRat_of_position? hy hb] at hsmall ⊢
  have hpos := oneUnits_pos_rat
  have hscale : (2 : ℚ) ^ exponent * oneUnits = 2 ^ (exponent + 1021 + 53) := by
    exact_mod_cast two_pow_mul_oneUnits exponent
  have hunits : |a * b| < 2 ^ (exponent + 1021 + 53) * (oneUnits : ℤ) := by
    have hproduct : |(a * b : ℚ)| < 2 ^ exponent * oneUnits * oneUnits := by
      rwa [div_mul_div_comm, abs_div, abs_of_pos (mul_pos hpos hpos),
        div_lt_iff₀ (mul_pos hpos hpos), ← mul_assoc] at hsmall
    rw [hscale] at hproduct
    exact_mod_cast hproduct
  obtain ⟨hrange, herror⟩ := abs_roundedPosition_sub_le oneUnits_pos hunits (by omega)
  have hfinite := isFinite_of_position? hposition hrange
  refine ⟨hfinite, ?_⟩
  rw [toRat_of_position? hfinite hposition]
  apply le_of_mul_le_mul_right _ hpos
  calc
    |(roundedPosition (a * b) oneUnits : ℚ) / oneUnits - a / oneUnits * (b / oneUnits)| * oneUnits
      = |(roundedPosition (a * b) oneUnits : ℚ) - ↑(a * b) / oneUnits| := by
        rw [← abs_of_pos hpos, ← abs_mul, abs_of_pos hpos]
        congr 1
        push_cast
        field_simp
    _ ≤ 2 ^ (exponent + 1021) / 2 := herror
    _ = 2 ^ exponent * oneUnits / 2 ^ 54 := by
        rw [hscale, pow_add 2 (exponent + 1021) 53]
        generalize (2 : ℚ) ^ (exponent + 1021) = step
        ring
    _ = 2 ^ exponent / 2 ^ 54 * oneUnits := by ring

end Binary64

end SolarTakeoff
