import SolarTakeoff.Proofs.Binary64.Exact
import SolarTakeoff.Proofs.Binary64.Text
import Mathlib.Tactic

/-!
# Brief texts are texts

The brief form writes whole numbers below `10 ^ 15` in magnitude by way of
sixty-four bits, and all others by their shortest text.  Both come to the same.
Digits of the fraction of a whole number are zeros, so leaving them out is exact,
and where digits of the whole part are left out only another whole number could be
read, which below fifty-three bits is another number.  So the shortest text of such
a number consists of its own digits.

An integer has no sign of zero, so the negative zero is the one number that the brief
form writes otherwise.
-/

namespace SolarTakeoff

attribute [local irreducible] oneUnits unitsLimit

/-! ## The shortest decimal of a whole number -/

theorem Binary64.roundUnits_of_ofRatio {negative : Bool} {numerator denominator : ℕ}
    {magnitude : Magnitude}
    (h : ofRatio negative numerator denominator = .finite negative magnitude) :
    roundUnits numerator denominator = magnitude.units := by
  unfold ofRatio at h
  split at h
  next =>
    injection h with _ hmagnitude
    exact congrArg Magnitude.units hmagnitude
  next => cases h

namespace Magnitude

variable {magnitude : Magnitude} {decimal : Decimal} {value dropped : ℕ}

theorem expansion_of_whole (hwhole : magnitude.units = value * oneUnits) :
    magnitude.expansion = value * 10 ^ 1074 := by
  unfold expansion
  rw [hwhole]
  unfold oneUnits
  generalize 1074 = limit
  have hten : (10 : ℕ) ^ limit = 2 ^ limit * 5 ^ limit := by rw [← Nat.mul_pow]
  rw [Nat.pow_eq, Nat.pow_eq, hten, Nat.mul_assoc]

theorem readsBack_of_isWhole (hwhole : magnitude.units = value * oneUnits)
    (h : decimal.IsWhole value) : magnitude.readsBack decimal = true := by
  rw [readsBack, h.toBinary64_eq, ← hwhole, Binary64.ofRatio_units]
  exact beq_self_eq_true _

theorem isWhole_dropped (value : ℕ) (hdropped : dropped ≤ 1074) :
    Decimal.IsWhole ⟨value * 10 ^ (1074 - dropped), (dropped : ℤ) - 1074⟩ value := by
  apply Decimal.isWhole_of_exponent _ rfl
  dsimp only
  omega

/-- Without digits of the fraction the lower neighbour is exact. -/
theorem neighbour?_of_le (hwhole : magnitude.units = value * oneUnits)
    (hdropped : dropped ≤ 1074) :
    magnitude.neighbour? dropped =
      some ⟨value * 10 ^ (1074 - dropped), (dropped : ℤ) - 1074⟩ := by
  have hexpansion : magnitude.expansion = value * 10 ^ (1074 - dropped) * 10 ^ dropped := by
    rw [expansion_of_whole hwhole, Nat.mul_assoc, ← Nat.pow_add, Nat.sub_add_cancel hdropped]
  have hgrid : 0 < 10 ^ dropped := Nat.pow_pos (by decide)
  have hlower : magnitude.expansion / 10 ^ dropped = value * 10 ^ (1074 - dropped) := by
    rw [hexpansion, Nat.mul_div_cancel _ hgrid]
  have hrest : magnitude.expansion % 10 ^ dropped = 0 := by
    rw [hexpansion, Nat.mul_mod_left]
  have hread := readsBack_of_isWhole hwhole (isWhole_dropped value hdropped)
  simp only [neighbour?, Nat.pow_eq, hlower, hrest, hread]
  simp [hgrid]

theorem exponent_of_neighbour? (h : magnitude.neighbour? dropped = some decimal) :
    decimal.exponent = dropped - 1074 := by
  simp only [neighbour?] at h
  split at h
  next => rw [← Option.some.inj h]
  next =>
    split at h
    next => rw [← Option.some.inj h]
    next => cases h

theorem isWhole_of_neighbour? (hwhole : magnitude.units = value * oneUnits)
    (hvalue : value < 2 ^ 53) (h : magnitude.neighbour? dropped = some decimal) :
    decimal.IsWhole value := by
  rcases Nat.le_total dropped 1074 with hdropped | hdropped
  · rw [neighbour?_of_le hwhole hdropped, Option.some.injEq] at h
    rw [← h]
    exact isWhole_dropped value hdropped
  · have hexponent := exponent_of_neighbour? h
    have hnonneg : 0 ≤ decimal.exponent := by omega
    have hscaled := Decimal.isWhole_scaled hnonneg
    have hread := toBinary64_of_readsBack (readsBack_of_neighbour? h) false
    rw [hscaled.toBinary64_eq] at hread
    have hround := Binary64.roundUnits_of_ofRatio hread
    rw [hwhole] at hround
    rwa [eq_of_roundUnits_eq hvalue hround] at hscaled

theorem isWhole_shortest (hwhole : magnitude.units = value * oneUnits)
    (hvalue : value < 2 ^ 53) : magnitude.shortest.IsWhole value := by
  unfold shortest
  apply Decimal.searchFrom_induction (fun decimal => decimal.IsWhole value)
  · have hexponent : (-1074 : ℤ) = -((1074 : ℕ) : ℤ) := rfl
    exact Decimal.isWhole_of_exponent hexponent (expansion_of_whole hwhole)
  · intro dropped decimal
    exact isWhole_of_neighbour? hwhole hvalue

end Magnitude

namespace Binary64

variable {x : Binary64} {value : ℤ}

/-! ## Small whole numbers -/

/-- The number has this value, a whole one below `10 ^ 15` in magnitude. -/
structure IsSmallWhole (x : Binary64) (value : ℤ) : Prop where
  finite : x.isFinite = true
  exact : x.toRat = value
  small : |value| < 10 ^ 15

section Finite

variable {negative : Bool} {magnitude : Magnitude}

theorem toRat_finite_eq_iff :
    (finite negative magnitude).toRat = value ↔
      signedUnits negative magnitude = value * oneUnits := by
  rw [toRat, div_eq_iff oneUnits_pos_rat.ne']
  exact_mod_cast Iff.rfl

theorem abs_lt_ofNat_iff {count : ℕ} (h : count ≤ Nat.pow 2 53) :
    (finite negative magnitude).abs.lt (.ofNat count) = true ↔
      magnitude.units < count * oneUnits := by
  obtain ⟨limit, hlimit, hunits⟩ := exists_magnitude_ofNat h
  rw [hlimit, ← hunits]
  exact decide_eq_true_iff.trans Int.ofNat_lt

/-- Only a zero can have a sign that its value does not have. -/
theorem sign_eq_of_ne_neg_zero (hunits : signedUnits negative magnitude = value * oneUnits)
    (hzero : finite negative magnitude ≠ -zero) : negative = decide (value < 0) := by
  have hone := oneUnits_pos_int
  obtain ⟨hpositive, hnegative⟩ := signedUnits_nonneg_or negative magnitude
  rw [hunits] at hpositive hnegative
  cases negative with
  | false =>
      have hvalue : 0 ≤ value := nonneg_of_mul_nonneg_left (hpositive rfl) hone
      simpa using hvalue
  | true =>
      have hvalue : value ≤ 0 := nonpos_of_mul_nonpos_left (hnegative rfl) hone
      have hne : value ≠ 0 := by
        rintro rfl
        apply hzero
        obtain ⟨units, hbounded, haligned⟩ := magnitude
        obtain rfl : units = 0 := by simpa [signedUnits] using hunits
        rfl
      simpa using lt_of_le_of_ne hvalue hne

end Finite

theorem IsSmallWhole.exists_units (h : x.IsSmallWhole value) :
    ∃ negative magnitude, x = .finite negative magnitude ∧
      signedUnits negative magnitude = value * oneUnits ∧
      magnitude.units = value.natAbs * oneUnits ∧ value.natAbs < 1000000000000000 := by
  obtain ⟨hfinite, hexact, hsmall⟩ := h
  obtain ⟨negative, magnitude, rfl⟩ := isFinite_eq_true_iff.mp hfinite
  have hunits := toRat_finite_eq_iff.mp hexact
  obtain ⟨hlow, hhigh⟩ := abs_lt.mp hsmall
  refine ⟨negative, magnitude, rfl, hunits, ?_, by omega⟩
  rw [← natAbs_signedUnits negative magnitude, hunits, Int.natAbs_mul, Int.natAbs_natCast]

theorem isSmallWhole_neg_zero : (-zero).IsSmallWhole 0 := by
  have hunits : signedUnits true ⟨0, unitsLimit_pos, Nat.dvd_zero _⟩ = (0 : ℤ) * oneUnits := by
    simp [signedUnits]
  exact ⟨rfl, toRat_finite_eq_iff.mpr hunits, by decide⟩

/-! ## The two ways to a brief text -/

/-- The condition for the way by sixty-four bits holds of small whole numbers only. -/
theorem isWhole_and_abs_lt_iff :
    (x.isWhole && x.abs.lt (.ofNat 1000000000000000)) = true ↔
      ∃ value, x.IsSmallWhole value := by
  constructor
  · intro h
    obtain ⟨negative, magnitude, count, rfl, hcount, hbound⟩ := exists_whole_of_brief h
    have hsmall : (count : ℤ) < 10 ^ 15 := by exact_mod_cast hbound
    refine ⟨if negative then -(count : ℤ) else count, rfl, ?_, ?_⟩
    · rw [toRat_finite_eq_iff]
      cases negative <;> simp [signedUnits, hcount]
    · cases negative <;> simpa using hsmall
  · rintro ⟨value, h⟩
    obtain ⟨negative, magnitude, rfl, -, hunits, hbound⟩ := h.exists_units
    rw [Bool.and_eq_true, abs_lt_ofNat_iff (by decide), hunits]
    constructor
    · simp [isWhole, hunits]
    · exact Nat.mul_lt_mul_of_pos_right hbound oneUnits_pos

theorem IsSmallWhole.toInt_toInt64 (h : x.IsSmallWhole value) : x.toInt64.toInt = value := by
  obtain ⟨negative, magnitude, rfl, hunits, -, hbound⟩ := h.exists_units
  rw [Binary64.toInt_toInt64 (position?_finite negative magnitude), hunits,
    Int.mul_tdiv_cancel _ oneUnits_pos_int.ne']
  unfold clamped
  omega

theorem IsSmallWhole.brief_eq (h : x.IsSmallWhole value) : x.brief = toString value := by
  rw [brief, if_pos (isWhole_and_abs_lt_iff.mpr ⟨value, h⟩), h.toInt_toInt64]

theorem IsSmallWhole.text_eq (h : x.IsSmallWhole value) (hzero : x ≠ -zero) :
    x.text = toString value := by
  obtain ⟨negative, magnitude, rfl, hunits, hcount, hbound⟩ := h.exists_units
  have hchars := (magnitude.isWhole_shortest hcount (by omega)).chars_eq
  have hsign := sign_eq_of_ne_neg_zero hunits hzero
  rw [text, chars, hchars, toString_eq_ofList, hsign]

theorem brief_of_not_isSmallWhole (h : ∀ value, ¬ x.IsSmallWhole value) : x.brief = x.text := by
  have hcondition := isWhole_and_abs_lt_iff.not.mpr (not_exists.mpr h)
  rw [brief, if_neg hcondition]

theorem brief_eq_text (h : x ≠ -zero) : x.brief = x.text := by
  by_cases hsmall : ∃ value, x.IsSmallWhole value
  · obtain ⟨value, hvalue⟩ := hsmall
    rw [hvalue.brief_eq, hvalue.text_eq h]
  · exact brief_of_not_isSmallWhole (not_exists.mp hsmall)

/-- The brief text of a number is its text, and reads back as the number; only the
negative zero is written without its sign.  Exactly the small whole numbers are
written as integers, and the sixty-four bits hold their values. -/
theorem brief_agrees_with_text (x : Binary64) :
    (x ≠ -zero → x.brief = x.text ∧ ofText? x.brief = some x) ∧
      (x = -zero → x.brief = "0" ∧ ofText? x.brief = some zero ∧ zero.eq x = true) ∧
      ((x.isWhole && x.abs.lt (.ofNat 1000000000000000)) = true ↔
        ∃ value, x.IsSmallWhole value) ∧
      ∀ value, x.IsSmallWhole value → x.toInt64.toInt = value ∧ x.brief = toString value := by
  refine ⟨?_, ?_, isWhole_and_abs_lt_iff, ?_⟩
  · intro h
    rw [brief_eq_text h]
    exact ⟨rfl, ofText?_text x⟩
  · rintro rfl
    have hbrief : (-zero).brief = "0" := isSmallWhole_neg_zero.brief_eq
    have hread : ofText? "0" = some (ofInt 0) := ofText?_toString 0
    have hzero : ofInt 0 = zero := by decide +kernel
    rw [hbrief, hread, hzero]
    exact ⟨rfl, rfl, by decide +kernel⟩
  · intro value h
    exact ⟨h.toInt_toInt64, h.brief_eq⟩

/-- The lowest number that is written as an integer, the one below it, what is no
number, and the negative zero. -/
theorem brief_agrees_with_text_below_limit :
    ((-ofNat 999999999999999).IsSmallWhole (-999999999999999) ∧
        -ofNat 999999999999999 ≠ -zero ∧
        (-ofNat 999999999999999).text = "-999999999999999") ∧
      (-ofNat 1000000000000000 ≠ -zero ∧
        (-ofNat 1000000000000000).brief = (-ofNat 1000000000000000).text) ∧
      (nan ≠ -zero ∧ nan.brief = "NaN" ∧ ofText? nan.brief = some nan) ∧
      (-zero).brief = "0" := by
  have hvalue : (-ofNat 999999999999999).IsSmallWhole (-999999999999999) :=
    ⟨by decide +kernel, by decide +kernel, by decide⟩
  have hlowest : -ofNat 999999999999999 ≠ -zero := by decide +kernel
  have hbelow : -ofNat 1000000000000000 ≠ -zero := by decide +kernel
  have hnan : nan ≠ -zero := by decide
  obtain ⟨htext, -, -, hinteger⟩ := brief_agrees_with_text (-ofNat 999999999999999)
  have hdigits : (-ofNat 999999999999999).brief = "-999999999999999" := (hinteger _ hvalue).2
  refine ⟨⟨hvalue, hlowest, ?_⟩, ⟨hbelow, ?_⟩, ⟨hnan, ?_⟩, ?_⟩
  · rw [← (htext hlowest).1, hdigits]
  · exact ((brief_agrees_with_text _).1 hbelow).1
  · obtain ⟨hsame, hread⟩ := (brief_agrees_with_text nan).1 hnan
    exact ⟨hsame, hread⟩
  · exact ((brief_agrees_with_text (-zero)).2.1 rfl).1

end Binary64

end SolarTakeoff
