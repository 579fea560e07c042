import SolarTakeoff.Proofs.Binary64.Rounding
import Mathlib.Tactic

/-!
# Operations that keep the order of numbers

Rounding to fifty-three bits never reverses an order, within a binade because
the nearest multiple of one step does not, and between binades because what
rounds stays between two powers of two.  The position of a sum, of a product
and of a whole part is therefore an increasing function of the exact result.

An infinity is not rounded, so every such operation is looked at on finite
numbers first and then at both ends.
-/

namespace SolarTakeoff

attribute [local irreducible] oneUnits unitsLimit

/-! ## Nearest multiples -/

section Nearest

variable {n d m e : ℕ}

theorem div_le_div_of_mul_le (hd : 0 < d) (he : 0 < e) (h : n * e ≤ m * d) :
    n / d ≤ m / e := by
  rw [Nat.le_div_iff_mul_le he]
  have hfloor : n / d * d ≤ n := Nat.div_mul_le_self n d
  have hscaled : n / d * e * d ≤ m * d := by
    calc n / d * e * d = n / d * d * e := by ring
      _ ≤ n * e := Nat.mul_le_mul_right e hfloor
      _ ≤ m * d := h
  exact Nat.le_of_mul_le_mul_right hscaled hd

/-- With the same whole part, the quotient that is not larger cannot be past the
middle when the other one is not. -/
theorem nearestEven_le_of_div_eq (hd : 0 < d) (he : 0 < e) (h : n * e ≤ m * d)
    (hwhole : n / d = m / e) : nearestEven n d ≤ nearestEven m e := by
  have hn : d * (n / d) + n % d = n := Nat.div_add_mod n d
  have hm : e * (m / e) + m % e = m := Nat.div_add_mod m e
  have hremainders : n % d * e ≤ m % e * d := by
    have hsame : d * (n / d) * e = e * (m / e) * d := by
      rw [hwhole]
      ring
    nlinarith only [h, hn, hm, hsame]
  unfold nearestEven
  dsimp only
  rw [hwhole]
  by_cases hup : 2 * (m % e) < e ∨ 2 * (m % e) = e ∧ m / e % 2 = 0
  · have hlow : 2 * (n % d) < d ∨ 2 * (n % d) = d ∧ m / e % 2 = 0 := by
      by_contra hhigh
      have hmiddle : d ≤ 2 * (n % d) := by omega
      have hmiddle' : 2 * (m % e) ≤ e := by omega
      have hfirst : d * e ≤ 2 * (n % d) * e := Nat.mul_le_mul_right e hmiddle
      have hsecond : 2 * (m % e) * d ≤ e * d := Nat.mul_le_mul_right d hmiddle'
      have hn' : 2 * (n % d) = d := by
        have hle : 2 * (n % d) * e ≤ d * e := by linarith only [hremainders, hsecond]
        exact Nat.le_antisymm (Nat.le_of_mul_le_mul_right hle he) hmiddle
      have hm' : 2 * (m % e) = e := by
        have hle : e * d ≤ 2 * (m % e) * d := by linarith only [hremainders, hfirst]
        exact Nat.le_antisymm hmiddle' (Nat.le_of_mul_le_mul_right hle hd)
      omega
    rw [if_pos hup, if_pos hlow]
  · rw [if_neg hup]
    split <;> omega

theorem nearestEven_mono (hd : 0 < d) (he : 0 < e) (h : n * e ≤ m * d) :
    nearestEven n d ≤ nearestEven m e := by
  rcases (div_le_div_of_mul_le hd he h).eq_or_lt with hwhole | hwhole
  · exact nearestEven_le_of_div_eq hd he h hwhole
  · calc nearestEven n d ≤ n / d + 1 := nearestEven_le n d
      _ ≤ m / e := hwhole
      _ ≤ nearestEven m e := le_nearestEven m e

end Nearest

/-! ## Rounding -/

section Rounding

variable {n d m e : ℕ}

/-- What rounds does not leave its binade upward past the next power of two. -/
theorem roundUnits_le_two_pow (n d : ℕ) : roundUnits n d ≤ 2 ^ ((n / d).log2 + 1) := by
  have hstep : n / (d * ulp (n / d)) < 2 ^ ((n / d).log2 + 1 - ((n / d).log2 - 52)) := by
    rw [← Nat.div_div_eq_div_mul, Nat.div_lt_iff_lt_mul (ulp_pos _)]
    unfold ulp
    rw [Nat.pow_eq, ← Nat.pow_add, Nat.sub_add_cancel (by omega)]
    exact Nat.lt_log2_self
  calc roundUnits n d ≤ (n / (d * ulp (n / d)) + 1) * ulp (n / d) :=
        Nat.mul_le_mul_right _ (nearestEven_le _ _)
    _ ≤ 2 ^ ((n / d).log2 + 1 - ((n / d).log2 - 52)) * ulp (n / d) :=
        Nat.mul_le_mul_right _ hstep
    _ = 2 ^ ((n / d).log2 + 1) := by
        unfold ulp
        rw [Nat.pow_eq, ← Nat.pow_add, Nat.sub_add_cancel (by omega)]

theorem two_pow_le_roundUnits (hpos : n / d ≠ 0) : 2 ^ (n / d).log2 ≤ roundUnits n d := by
  have hpow : 2 ^ ((n / d).log2 - ((n / d).log2 - 52)) * ulp (n / d) = 2 ^ (n / d).log2 := by
    unfold ulp
    rw [Nat.pow_eq, ← Nat.pow_add, Nat.sub_add_cancel (by omega)]
  have hstep : 2 ^ ((n / d).log2 - ((n / d).log2 - 52)) ≤ n / (d * ulp (n / d)) := by
    rw [← Nat.div_div_eq_div_mul, Nat.le_div_iff_mul_le (ulp_pos _), hpow]
    exact Nat.log2_self_le hpos
  calc 2 ^ (n / d).log2 = 2 ^ ((n / d).log2 - ((n / d).log2 - 52)) * ulp (n / d) := hpow.symm
    _ ≤ n / (d * ulp (n / d)) * ulp (n / d) := Nat.mul_le_mul_right _ hstep
    _ ≤ roundUnits n d := Nat.mul_le_mul_right _ (le_nearestEven _ _)

theorem roundUnits_mono (hd : 0 < d) (he : 0 < e) (h : n * e ≤ m * d) :
    roundUnits n d ≤ roundUnits m e := by
  have hwhole : n / d ≤ m / e := div_le_div_of_mul_le hd he h
  have hlog : (n / d).log2 ≤ (m / e).log2 := by
    rw [Nat.log2_eq_log_two, Nat.log2_eq_log_two]
    exact Nat.log_mono_right hwhole
  by_cases hbinade : (n / d).log2 - 52 = (m / e).log2 - 52
  · have hulp : ulp (n / d) = ulp (m / e) := by
      unfold ulp
      rw [hbinade]
    simp only [roundUnits]
    rw [hulp]
    apply Nat.mul_le_mul_right
    apply nearestEven_mono (Nat.mul_pos hd (ulp_pos _)) (Nat.mul_pos he (ulp_pos _))
    calc n * (e * ulp (m / e)) = n * e * ulp (m / e) := by ring
      _ ≤ m * d * ulp (m / e) := Nat.mul_le_mul_right _ h
      _ = m * (d * ulp (m / e)) := by ring
  · have hpos : m / e ≠ 0 := by
      intro hzero
      rw [hzero] at hwhole hbinade
      simp [Nat.le_zero.mp hwhole] at hbinade
    calc roundUnits n d ≤ 2 ^ ((n / d).log2 + 1) := roundUnits_le_two_pow n d
      _ ≤ 2 ^ (m / e).log2 := Nat.pow_le_pow_right (by decide) (by omega)
      _ ≤ roundUnits m e := two_pow_le_roundUnits hpos

/-- Rounding looks at the quotient only, not at how it is written. -/
theorem roundUnits_congr (hd : 0 < d) (he : 0 < e) (h : n * e = m * d) :
    roundUnits n d = roundUnits m e :=
  Nat.le_antisymm (roundUnits_mono hd he h.le) (roundUnits_mono he hd h.ge)

end Rounding

/-! ## Positions of results -/

/-- Rounded units, with one place beyond the largest magnitude for all that do
not fit. -/
def clippedUnits (numerator denominator : ℕ) : ℕ :=
  min (roundUnits numerator denominator) unitsLimit

/-- Where the quotient of an exact number of units lies once it is rounded. -/
def roundedPosition (value : ℤ) (denominator : ℕ) : ℤ :=
  if value < 0 then -(clippedUnits value.natAbs denominator : ℤ)
  else clippedUnits value.natAbs denominator

theorem clippedUnits_le_clippedUnits {n d m e : ℕ} (hd : 0 < d) (he : 0 < e)
    (h : n * e ≤ m * d) : clippedUnits n d ≤ clippedUnits m e :=
  min_le_min_right _ (roundUnits_mono hd he h)

theorem roundedPosition_le_roundedPosition {first second : ℤ} {d e : ℕ} (hd : 0 < d)
    (he : 0 < e) (h : first * e ≤ second * d) :
    roundedPosition first d ≤ roundedPosition second e := by
  unfold roundedPosition
  by_cases hfirst : first < 0
  · by_cases hsecond : second < 0
    · have hclipped : clippedUnits second.natAbs e ≤ clippedUnits first.natAbs d := by
        apply clippedUnits_le_clippedUnits he hd
        zify
        rw [abs_of_neg hfirst, abs_of_neg hsecond]
        linarith only [h]
      rw [if_pos hfirst, if_pos hsecond]
      omega
    · rw [if_pos hfirst, if_neg hsecond]
      omega
  · have hproduct : 0 ≤ second * (d : ℤ) :=
      (Int.mul_nonneg (not_lt.mp hfirst) (Int.natCast_nonneg e)).trans h
    have hsecond : 0 ≤ second := nonneg_of_mul_nonneg_left hproduct (by exact_mod_cast hd)
    have hclipped : clippedUnits first.natAbs d ≤ clippedUnits second.natAbs e := by
      apply clippedUnits_le_clippedUnits hd he
      zify
      rwa [abs_of_nonneg (not_lt.mp hfirst), abs_of_nonneg hsecond]
    rw [if_neg hfirst, if_neg (not_lt.mpr hsecond)]
    omega

theorem roundedPosition_mono {first second : ℤ} {denominator : ℕ} (hd : 0 < denominator)
    (h : first ≤ second) :
    roundedPosition first denominator ≤ roundedPosition second denominator :=
  roundedPosition_le_roundedPosition hd hd
    (Int.mul_le_mul_of_nonneg_right h (Int.natCast_nonneg _))

@[simp] theorem roundedPosition_zero (denominator : ℕ) :
    roundedPosition 0 denominator = 0 := by
  simp [roundedPosition, clippedUnits]

namespace Binary64

variable {x y z : Binary64} {a b : ℤ}

/-- The sign of a result counts only where the exact result is not zero. -/
theorem position?_ofRatio {negative : Bool} {value : ℤ} (denominator : ℕ)
    (hpositive : negative = false → 0 ≤ value) (hnegative : negative = true → value ≤ 0) :
    (ofRatio negative value.natAbs denominator).position? =
      some (roundedPosition value denominator) := by
  have hclipped : (ofRatio negative value.natAbs denominator).position? =
      some (if negative then -(clippedUnits value.natAbs denominator : ℤ)
        else clippedUnits value.natAbs denominator) := by
    unfold ofRatio clippedUnits
    split
    next hlt => rw [Nat.min_eq_left hlt.le, position?]
    next hge => rw [Nat.min_eq_right (not_lt.mp hge), position?]
  rw [hclipped]
  cases negative with
  | false => simp [roundedPosition, hpositive rfl]
  | true =>
      rcases (hnegative rfl).eq_or_lt with rfl | hvalue
      · simp [clippedUnits]
      · simp [roundedPosition, hvalue]

theorem signedUnits_nonneg_or (negative : Bool) (magnitude : Magnitude) :
    (negative = false → 0 ≤ signedUnits negative magnitude) ∧
      (negative = true → signedUnits negative magnitude ≤ 0) := by
  cases negative <;> simp [signedUnits]

theorem natAbs_signedUnits (negative : Bool) (magnitude : Magnitude) :
    (signedUnits negative magnitude).natAbs = magnitude.units := by
  cases negative <;> simp [signedUnits]

theorem position?_mul (hx : x.isFinite = true) (hy : y.isFinite = true)
    (ha : x.position? = some a) (hb : y.position? = some b) :
    (x * y).position? = some (roundedPosition (a * b) oneUnits) := by
  obtain ⟨p, first, rfl⟩ := isFinite_eq_true_iff.mp hx
  obtain ⟨q, second, rfl⟩ := isFinite_eq_true_iff.mp hy
  obtain rfl : signedUnits p first = a := Option.some.inj ha
  obtain rfl : signedUnits q second = b := Option.some.inj hb
  have hunits : (signedUnits p first * signedUnits q second).natAbs =
      first.units * second.units := by
    rw [Int.natAbs_mul, natAbs_signedUnits, natAbs_signedUnits]
  have hproduct : finite p first * finite q second =
      ofRatio (p != q) (signedUnits p first * signedUnits q second).natAbs oneUnits := by
    rw [hunits]
    rfl
  rw [hproduct]
  obtain ⟨hp, hp'⟩ := signedUnits_nonneg_or p first
  obtain ⟨hq, hq'⟩ := signedUnits_nonneg_or q second
  apply position?_ofRatio
  · intro hsame
    cases p <;> cases q <;> simp at hsame
    · exact Int.mul_nonneg (hp rfl) (hq rfl)
    · exact Int.mul_nonneg_of_nonpos_of_nonpos (hp' rfl) (hq' rfl)
  · intro hother
    cases p <;> cases q <;> simp at hother
    · exact Int.mul_nonpos_of_nonneg_of_nonpos (hp rfl) (hq' rfl)
    · exact Int.mul_nonpos_of_nonpos_of_nonneg (hp' rfl) (hq rfl)

theorem position?_ofUnits (units : ℤ) :
    (ofUnits units).position? = some (roundedPosition units 1) := by
  apply position?_ofRatio
  · exact fun h => not_lt.mp (of_decide_eq_false h)
  · exact fun h => (of_decide_eq_true h).le

theorem position?_add (hx : x.isFinite = true) (hy : y.isFinite = true)
    (ha : x.position? = some a) (hb : y.position? = some b) :
    (x + y).position? = some (roundedPosition (a + b) 1) := by
  obtain ⟨p, first, rfl⟩ := isFinite_eq_true_iff.mp hx
  obtain ⟨q, second, rfl⟩ := isFinite_eq_true_iff.mp hy
  obtain rfl : signedUnits p first = a := Option.some.inj ha
  obtain rfl : signedUnits q second = b := Option.some.inj hb
  change (if signedUnits p first + signedUnits q second = 0 then ofRatio (p && q) 0 1
    else ofUnits (signedUnits p first + signedUnits q second)).position? = _
  by_cases hzero : signedUnits p first + signedUnits q second = 0
  · rw [if_pos hzero, hzero]
    exact @position?_ofRatio (p && q) 0 1 (fun _ => le_rfl) (fun _ => le_rfl)
  · rw [if_neg hzero]
    exact position?_ofUnits _

/-- The whole part and the sign agree on which side of zero they are. -/
theorem position?_ofWhole {negative : Bool} {value : ℤ}
    (hpositive : negative = false → 0 ≤ value) (hnegative : negative = true → value ≤ 0) :
    (ofWhole negative value.natAbs).position? =
      some (roundedPosition (value * oneUnits) 1) := by
  have hunits : value.natAbs * oneUnits = (value * oneUnits).natAbs := by
    rw [Int.natAbs_mul, Int.natAbs_natCast]
  unfold ofWhole
  rw [hunits]
  apply position?_ofRatio
  · exact fun h => Int.mul_nonneg (hpositive h) (Int.natCast_nonneg _)
  · exact fun h => Int.mul_nonpos_of_nonpos_of_nonneg (hnegative h) (Int.natCast_nonneg _)

theorem position?_floor (hx : x.isFinite = true) (ha : x.position? = some a) :
    x.floor.position? = some (roundedPosition (a / oneUnits * oneUnits) 1) := by
  obtain ⟨p, magnitude, rfl⟩ := isFinite_eq_true_iff.mp hx
  obtain rfl : signedUnits p magnitude = a := Option.some.inj ha
  obtain ⟨hp, hp'⟩ := signedUnits_nonneg_or p magnitude
  have hone : (0 : ℤ) < oneUnits := by exact_mod_cast oneUnits_pos
  apply position?_ofWhole
  · exact fun h => Int.ediv_nonneg (hp h) hone.le
  · exact fun h => Int.ediv_nonpos_of_nonpos_of_neg (hp' h) hone

theorem position?_ceil (hx : x.isFinite = true) (ha : x.position? = some a) :
    x.ceil.position? = some (roundedPosition (-(-a / oneUnits) * oneUnits) 1) := by
  obtain ⟨p, magnitude, rfl⟩ := isFinite_eq_true_iff.mp hx
  obtain rfl : signedUnits p magnitude = a := Option.some.inj ha
  obtain ⟨hp, hp'⟩ := signedUnits_nonneg_or p magnitude
  have hone : (0 : ℤ) < oneUnits := by exact_mod_cast oneUnits_pos
  have hceil : (finite p magnitude).ceil =
      ofWhole p (-(-signedUnits p magnitude / oneUnits)).natAbs := by
    rw [Int.natAbs_neg]
    rfl
  rw [hceil]
  apply position?_ofWhole
  · intro h
    have hquotient := Int.ediv_nonpos_of_nonpos_of_neg (Int.neg_nonpos_of_nonneg (hp h)) hone
    omega
  · intro h
    have hquotient := Int.ediv_nonneg (Int.neg_nonneg_of_nonpos (hp' h)) hone.le
    omega

/-! ## The two ends -/

theorem position?_bounds (ha : x.position? = some a) :
    -(unitsLimit : ℤ) ≤ a ∧ a ≤ unitsLimit := by
  cases x with
  | nan => cases ha
  | infinite negative =>
      obtain rfl : (if negative then -(unitsLimit : ℤ) else unitsLimit) = a := Option.some.inj ha
      split <;> omega
  | finite negative magnitude =>
      obtain rfl : signedUnits negative magnitude = a := Option.some.inj ha
      have hbounded := magnitude.bounded
      unfold signedUnits
      split <;> omega

theorem infinite_true_le (h : x.isNaN = false) : (infinite true).le x = true := by
  obtain ⟨a, ha⟩ := isNaN_eq_false_iff.mp h
  exact le_eq_true_iff.mpr ⟨_, a, rfl, ha, (position?_bounds ha).1⟩

theorem le_infinite_false (h : x.isNaN = false) : x.le (infinite false) = true := by
  obtain ⟨a, ha⟩ := isNaN_eq_false_iff.mp h
  exact le_eq_true_iff.mpr ⟨a, _, ha, rfl, (position?_bounds ha).2⟩

theorem isNaN_left_of_le (h : x.le y = true) : x.isNaN = false := by
  obtain ⟨a, b, ha, -, -⟩ := le_eq_true_iff.mp h
  exact isNaN_eq_false_iff.mpr ⟨a, ha⟩

theorem isNaN_left_of_lt (h : x.lt y = true) : x.isNaN = false := by
  obtain ⟨a, b, ha, -, -⟩ := lt_eq_true_iff.mp h
  exact isNaN_eq_false_iff.mpr ⟨a, ha⟩

theorem isNaN_right_of_lt (h : x.lt y = true) : y.isNaN = false := by
  obtain ⟨a, b, -, hb, -⟩ := lt_eq_true_iff.mp h
  exact isNaN_eq_false_iff.mpr ⟨b, hb⟩

theorem lt_of_le_of_lt (hxy : x.le y = true) (hyz : y.lt z = true) : x.lt z = true := by
  obtain ⟨a, b, ha, hb, hab⟩ := le_eq_true_iff.mp hxy
  obtain ⟨b', c, hb', hc, hbc⟩ := lt_eq_true_iff.mp hyz
  obtain rfl : b = b' := Option.some.inj (hb.symm.trans hb')
  exact lt_eq_true_iff.mpr ⟨a, c, ha, hc, by omega⟩

theorem lt_of_lt_of_le (hxy : x.lt y = true) (hyz : y.le z = true) : x.lt z = true := by
  obtain ⟨a, b, ha, hb, hab⟩ := lt_eq_true_iff.mp hxy
  obtain ⟨b', c, hb', hc, hbc⟩ := le_eq_true_iff.mp hyz
  obtain rfl : b = b' := Option.some.inj (hb.symm.trans hb')
  exact lt_eq_true_iff.mpr ⟨a, c, ha, hc, by omega⟩

/-- Two numbers in order are both finite unless one of them lies at its end. -/
theorem isFinite_or_infinite_of_le (h : x.le y = true) :
    x = .infinite true ∨ y = .infinite false ∨ x.isFinite = true ∧ y.isFinite = true := by
  obtain ⟨a, b, ha, hb, hab⟩ := le_eq_true_iff.mp h
  have hlimit : (0 : ℤ) < unitsLimit := by exact_mod_cast unitsLimit_pos
  cases x with
  | nan => cases ha
  | infinite p =>
      cases p with
      | true => exact .inl rfl
      | false =>
          obtain rfl : (unitsLimit : ℤ) = a := Option.some.inj ha
          cases y with
          | nan => cases hb
          | infinite q =>
              cases q with
              | false => exact .inr (.inl rfl)
              | true =>
                  obtain rfl : -(unitsLimit : ℤ) = b := Option.some.inj hb
                  omega
          | finite q magnitude =>
              obtain rfl : signedUnits q magnitude = b := Option.some.inj hb
              have hbounded := magnitude.bounded
              unfold signedUnits at hab
              split at hab <;> omega
  | finite p first =>
      cases y with
      | nan => cases hb
      | finite q second => exact .inr (.inr ⟨rfl, rfl⟩)
      | infinite q =>
          cases q with
          | false => exact .inr (.inl rfl)
          | true =>
              obtain rfl : signedUnits p first = a := Option.some.inj ha
              obtain rfl : -(unitsLimit : ℤ) = b := Option.some.inj hb
              have hbounded := first.bounded
              unfold signedUnits at hab
              split at hab <;> omega

theorem isFinite_of_le (hzero : zero.le x = true) (h : x.le y = true) (hy : y.isFinite = true) :
    x.isFinite = true := by
  rcases isFinite_or_infinite_of_le h with rfl | rfl | ⟨hx, -⟩
  · cases zero_le_infinite_iff.mp hzero
  · cases hy
  · exact hx

/-! ## Keeping the order -/

/-- Numbers keep their order, and in particular they stay numbers. -/
def KeepsOrder (f : Binary64 → Binary64) : Prop :=
  ∀ x y, x.le y = true → (f x).le (f y) = true

/-- Where the infinities stay what they are, the order of finite numbers is
all there is to keep. -/
theorem KeepsOrder.of_finite {f : Binary64 → Binary64}
    (hnegative : f (.infinite true) = .infinite true)
    (hpositive : f (.infinite false) = .infinite false)
    (hnumber : ∀ x, x.isNaN = false → (f x).isNaN = false)
    (hfinite : ∀ x y a b, x.isFinite = true → y.isFinite = true → x.position? = some a →
      y.position? = some b → a ≤ b → (f x).le (f y) = true) :
    KeepsOrder f := by
  intro x y h
  rcases isFinite_or_infinite_of_le h with rfl | rfl | ⟨hx, hy⟩
  · rw [hnegative]
    exact infinite_true_le (hnumber y (isNaN_right_of_le h))
  · rw [hpositive]
    exact le_infinite_false (hnumber x (isNaN_left_of_le h))
  · obtain ⟨a, b, ha, hb, hab⟩ := le_eq_true_iff.mp h
    exact hfinite x y a b hx hy ha hb hab

theorem keepsOrder_floor : KeepsOrder floor := by
  refine .of_finite rfl rfl (fun x => isNaN_floor) ?_
  intro x y a b hx hy ha hb hab
  have hone : (0 : ℤ) < oneUnits := by exact_mod_cast oneUnits_pos
  have hwhole : a / oneUnits * oneUnits ≤ b / oneUnits * oneUnits :=
    Int.mul_le_mul_of_nonneg_right (Int.ediv_le_ediv hone hab) hone.le
  exact le_eq_true_iff.mpr ⟨_, _, position?_floor hx ha, position?_floor hy hb,
    roundedPosition_mono Nat.one_pos hwhole⟩

theorem keepsOrder_ceil : KeepsOrder ceil := by
  refine .of_finite rfl rfl (fun x => isNaN_ceil) ?_
  intro x y a b hx hy ha hb hab
  have hone : (0 : ℤ) < oneUnits := by exact_mod_cast oneUnits_pos
  have hquotient : -b / oneUnits ≤ -a / oneUnits :=
    Int.ediv_le_ediv hone (Int.neg_le_neg hab)
  have hwhole : -(-a / oneUnits) * oneUnits ≤ -(-b / oneUnits) * (oneUnits : ℤ) :=
    Int.mul_le_mul_of_nonneg_right (Int.neg_le_neg hquotient) hone.le
  exact le_eq_true_iff.mpr ⟨_, _, position?_ceil hx ha, position?_ceil hy hb,
    roundedPosition_mono Nat.one_pos hwhole⟩

theorem keepsOrder_add (hz : z.isFinite = true) : KeepsOrder (· + z) := by
  obtain ⟨negative, magnitude, rfl⟩ := isFinite_eq_true_iff.mp hz
  refine .of_finite rfl rfl (fun x hx => isNaN_add_of_isFinite hx rfl) ?_
  intro x y a b hx hy ha hb hab
  have hsum : a + signedUnits negative magnitude ≤ b + signedUnits negative magnitude :=
    Int.add_le_add_right hab _
  exact le_eq_true_iff.mpr ⟨_, _, position?_add hx hz ha rfl, position?_add hy hz hb rfl,
    roundedPosition_mono Nat.one_pos hsum⟩

theorem keepsOrder_roundHalfUp : KeepsOrder roundHalfUp := by
  intro x y h
  exact keepsOrder_floor _ _ (keepsOrder_add isFinite_half x y h)

/-- The product with a factor that is not below zero; an infinity has no product
with zero, so only finite numbers are multiplied. -/
theorem mul_le_mul_of_zero_le (hx : x.isFinite = true) (hy : y.isFinite = true)
    (hz : z.isFinite = true) (hnonneg : zero.le z = true) (h : x.le y = true) :
    (x * z).le (y * z) = true := by
  obtain ⟨a, b, ha, hb, hab⟩ := le_eq_true_iff.mp h
  obtain ⟨c, hc, hzero⟩ := zero_le_iff.mp hnonneg
  have hproduct : a * c ≤ b * c := Int.mul_le_mul_of_nonneg_right hab hzero
  exact le_eq_true_iff.mpr ⟨_, _, position?_mul hx hz ha hc, position?_mul hy hz hb hc,
    roundedPosition_mono oneUnits_pos hproduct⟩

/-- The product of numbers that are not below zero grows with both. -/
theorem mul_le_mul_of_le {w : Binary64} (hx : x.isFinite = true) (hy : y.isFinite = true)
    (hz : z.isFinite = true) (hw : w.isFinite = true) (hzerox : zero.le x = true)
    (hzeroz : zero.le z = true) (hxy : x.le y = true) (hzw : z.le w = true) :
    (x * z).le (y * w) = true := by
  obtain ⟨a, ha, hnonneg⟩ := zero_le_iff.mp hzerox
  obtain ⟨a', b, ha', hb, hab⟩ := le_eq_true_iff.mp hxy
  obtain rfl : a = a' := Option.some.inj (ha.symm.trans ha')
  obtain ⟨c, hc, hnonneg'⟩ := zero_le_iff.mp hzeroz
  obtain ⟨c', d, hc', hd, hcd⟩ := le_eq_true_iff.mp hzw
  obtain rfl : c = c' := Option.some.inj (hc.symm.trans hc')
  have hproduct : a * c ≤ b * d :=
    Int.mul_le_mul hab hcd hnonneg' (hnonneg.trans hab)
  exact le_eq_true_iff.mpr ⟨_, _, position?_mul hx hz ha hc, position?_mul hy hw hb hd,
    roundedPosition_mono oneUnits_pos hproduct⟩

theorem ofNat_le_ofNat {first second : ℕ} (h : first ≤ second) :
    (ofNat first).le (ofNat second) = true := by
  have hunits : (first : ℤ) * oneUnits ≤ second * oneUnits :=
    Int.mul_le_mul_of_nonneg_right (by exact_mod_cast h) (Int.natCast_nonneg _)
  exact le_eq_true_iff.mpr ⟨_, _, position?_ofUnits _, position?_ofUnits _,
    roundedPosition_mono Nat.one_pos hunits⟩

end Binary64

end SolarTakeoff
