import SolarTakeoff.Proofs.Binary64.Exact
import SolarTakeoff.Proofs.Line.Prices
import Mathlib.Tactic

/-!
# How precise a price is

Between a cost, a quantity and their price in cents lie two products, each of
them rounded, and a rounding to whole cents.  Up to some eleven trillion dollars
the products are off by less than a quarter of a cent together, so that a price
is less than a cent away from the exact one; and where both products are exact,
nothing but the rounding to cents is left.
-/

namespace SolarTakeoff

attribute [local irreducible] oneUnits unitsLimit

/-- The nearest whole number, which for a half is the one farther from zero. -/
structure IsNearestAway (value : ℚ) (whole : ℤ) : Prop where
  near : |value - whole| ≤ 1 / 2
  away : |value - whole| = 1 / 2 → |value| < |(whole : ℚ)|

theorem IsNearestAway.neg {value : ℚ} {whole : ℤ} (h : IsNearestAway value whole) :
    IsNearestAway (-value) (-whole) := by
  have hdistance : |-value - ((-whole : ℤ) : ℚ)| = |value - whole| := by
    rw [← abs_neg]
    congr 1
    push_cast
    ring
  constructor
  · rw [hdistance]
    exact h.near
  · rw [hdistance, abs_neg, Int.cast_neg, abs_neg]
    exact h.away

namespace Binary64

variable {x : Binary64}

theorem wholeAway_neg (units : ℤ) : wholeAway (-units) = -wholeAway units := by
  rcases lt_trichotomy units 0 with hunits | rfl | hunits
  · have hopposite : ¬ -units < 0 := by omega
    unfold wholeAway
    rw [if_neg hopposite, if_pos hunits, ← Int.neg_tdiv]
    congr 1
    ring
  · have hzero : wholeAway 0 = 0 := by
      rw [← Int.natAbs_eq_zero, natAbs_wholeAway]
      exact Nat.div_eq_of_lt (by have := oneUnits_pos; omega)
    rw [neg_zero, hzero, neg_zero]
  · have hopposite : -units < 0 := by omega
    unfold wholeAway
    rw [if_pos hopposite, if_neg (not_lt.mpr hunits.le), ← Int.neg_tdiv]
    congr 1
    ring

theorem isNearestAway_wholeAway (units : ℤ) :
    IsNearestAway (units / oneUnits) (wholeAway units) := by
  wlog hunits : 0 ≤ units generalizing units with hopposite
  · have hneg := (hopposite (-units) (by omega)).neg
    rw [wholeAway_neg, neg_neg] at hneg
    convert hneg using 1
    push_cast
    ring
  have hone : (0 : ℤ) < 2 * oneUnits := by exact_mod_cast Nat.mul_pos Nat.two_pos oneUnits_pos
  have hpos := oneUnits_pos_rat
  have hwhole : wholeAway units = (2 * units + oneUnits) / (2 * oneUnits) := by
    unfold wholeAway
    rw [if_neg (not_lt.mpr hunits), Int.tdiv_eq_ediv_of_nonneg (by omega)]
  have hlow : 2 * oneUnits * wholeAway units ≤ 2 * units + oneUnits := by
    rw [hwhole]
    exact Int.mul_ediv_self_le hone.ne'
  have hhigh : 2 * units + oneUnits < 2 * oneUnits * wholeAway units + 2 * oneUnits := by
    rw [hwhole]
    exact Int.lt_mul_ediv_self_add hone
  generalize wholeAway units = whole at hlow hhigh ⊢
  have hlow' : (whole : ℚ) ≤ units / oneUnits + 1 / 2 := by
    have hcast : 2 * oneUnits * (whole : ℚ) ≤ 2 * units + oneUnits := by exact_mod_cast hlow
    apply le_of_mul_le_mul_right _ hpos
    rw [add_mul, div_mul_cancel₀ _ hpos.ne']
    linarith only [hcast]
  have hhigh' : (units : ℚ) / oneUnits + 1 / 2 < whole + 1 := by
    have hcast : 2 * (units : ℚ) + oneUnits < 2 * oneUnits * whole + 2 * oneUnits := by
      exact_mod_cast hhigh
    apply lt_of_mul_lt_mul_right _ hpos.le
    rw [add_mul, div_mul_cancel₀ _ hpos.ne']
    linarith only [hcast]
  have hvalue : (0 : ℚ) ≤ units / oneUnits :=
    div_nonneg (by exact_mod_cast hunits) hpos.le
  constructor
  · rw [abs_le]
    constructor <;> linarith only [hlow', hhigh']
  · intro htie
    rcases abs_eq (by norm_num : (0 : ℚ) ≤ 1 / 2) |>.mp htie with hbelow | habove
    · linarith only [hbelow, hhigh']
    · rw [abs_of_nonneg hvalue]
      exact (by linarith only [habove] : (units : ℚ) / oneUnits < whole).trans_le (le_abs_self _)

/-- The nearest whole number of so few bits fits sixty-four bits. -/
theorem isNearestAway_toInt64_roundAway (hx : x.isFinite = true) (hsmall : |x.toRat| ≤ 2 ^ 52) :
    IsNearestAway x.toRat x.roundAway.toInt64.toInt := by
  obtain ⟨units, hunits⟩ := exists_position_of_isFinite hx
  have hnearest := isNearestAway_wholeAway units
  rw [toRat_of_position? hx hunits] at hsmall ⊢
  have hbits : |wholeAway units| ≤ 2 ^ 53 := by
    have hdistance := abs_sub_abs_le_abs_sub (wholeAway units : ℚ) (units / oneUnits)
    rw [abs_sub_comm] at hdistance
    have hcast : |(wholeAway units : ℚ)| ≤ 2 ^ 53 := by
      linarith only [hdistance, hnearest.near, hsmall]
    exact_mod_cast hcast
  have hposition := position?_roundAway hx hunits
  rw [roundedPosition_mul_oneUnits hbits] at hposition
  have hclamped : clamped (wholeAway units) = wholeAway units := by
    rw [abs_le] at hbits
    unfold clamped
    omega
  have hone : (oneUnits : ℤ) ≠ 0 := by exact_mod_cast oneUnits_pos.ne'
  rw [toInt_toInt64 hposition, Int.mul_tdiv_cancel _ hone, hclamped]
  exact hnearest

theorem toRat_hundred : (ofNat 100).toRat = 100 := by
  rw [toRat_of_position? Money.isFinite_hundred position?_hundred]
  push_cast
  exact mul_div_cancel_right₀ _ oneUnits_pos_rat.ne'

theorem toRat_nonneg (h : zero.le x = true) : 0 ≤ x.toRat := by
  obtain ⟨units, hunits, hnonneg⟩ := zero_le_iff.mp h
  cases hfinite : x.isFinite with
  | true =>
      rw [toRat_of_position? hfinite hunits]
      exact div_nonneg (by exact_mod_cast hnonneg) oneUnits_pos_rat.le
  | false => cases x <;> simp_all [toRat, isFinite]

end Binary64

namespace Money

variable {cost quantity : Binary64}

/-- The two products of a price, and what they are off by. -/
structure PricedClosely (cost quantity : Binary64) : Prop where
  isFinite : (cost * quantity).isFinite = true
  cents_isFinite : (cost * quantity * .ofNat 100).isFinite = true
  error : |(cost * quantity * .ofNat 100).toRat - 100 * cost.toRat * quantity.toRat| < 1 / 4
  bounded : |(cost * quantity * .ofNat 100).toRat| ≤ 2 ^ 52

theorem pricedClosely (hcost : cost.isFinite = true) (hquantity : quantity.isFinite = true)
    (hsmall : |100 * cost.toRat * quantity.toRat| ≤ 2 ^ 50) : PricedClosely cost quantity := by
  have hproduct : |cost.toRat * quantity.toRat| < 2 ^ 44 := by
    rw [mul_assoc, abs_mul] at hsmall
    norm_num at hsmall ⊢
    linarith only [hsmall]
  obtain ⟨hfinite, herror⟩ :=
    Binary64.abs_toRat_mul_sub_le hcost hquantity hproduct (by decide)
  have hhundred := Binary64.toRat_hundred
  rw [abs_le] at hsmall herror
  have hscaled : |(cost * quantity).toRat * (Binary64.ofNat 100).toRat| < 2 ^ 51 := by
    rw [hhundred, abs_lt]
    constructor <;> linarith only [hsmall.1, hsmall.2, herror.1, herror.2]
  obtain ⟨hcents, hcentsError⟩ :=
    Binary64.abs_toRat_mul_sub_le hfinite isFinite_hundred hscaled (by decide)
  rw [hhundred, abs_le] at hcentsError
  refine ⟨hfinite, hcents, ?_, ?_⟩
  · rw [abs_lt]
    constructor <;> linarith only [herror.1, herror.2, hcentsError.1, hcentsError.2]
  · rw [abs_le]
    constructor <;>
      linarith only [hsmall.1, hsmall.2, herror.1, herror.2, hcentsError.1, hcentsError.2]

theorem isNearestAway_lineTotal (h : PricedClosely cost quantity) :
    IsNearestAway (cost * quantity * .ofNat 100).toRat (lineTotal cost quantity).cents.toInt := by
  rw [lineTotal, cents_ofDollars h.isFinite]
  exact Binary64.isNearestAway_toInt64_roundAway h.cents_isFinite h.bounded

end Money

/-- Up to this many cents a price is less than a cent away from the exact one, and
it is the exact one rounded once where neither product had to be rounded. -/
theorem lineTotal_within_cent (cost quantity : Binary64) (hcost : cost.IsMeasure)
    (hquantity : quantity.isFinite = true) (hpositive : Binary64.zero.lt quantity = true)
    (hsmall : 100 * cost.toRat * quantity.toRat ≤ 2 ^ 50) :
    |((Money.lineTotal cost quantity).cents.toInt : ℚ) - 100 * cost.toRat * quantity.toRat| < 1 ∧
      ((cost * quantity).toRat = cost.toRat * quantity.toRat →
        (cost * quantity * .ofNat 100).toRat = (cost * quantity).toRat * 100 →
          IsNearestAway (100 * cost.toRat * quantity.toRat)
            (Money.lineTotal cost quantity).cents.toInt) := by
  have hcostNonneg := Binary64.toRat_nonneg hcost.2
  have hquantityNonneg := Binary64.toRat_nonneg (Binary64.zero_le_of_zero_lt hpositive)
  have hexact : 0 ≤ 100 * cost.toRat * quantity.toRat := by positivity
  have hclose : Money.PricedClosely cost quantity :=
    Money.pricedClosely hcost.1 hquantity (by rwa [abs_of_nonneg hexact])
  have hnearest := Money.isNearestAway_lineTotal hclose
  constructor
  · have herror := abs_lt.mp hclose.error
    have hnear := abs_le.mp hnearest.near
    rw [abs_lt]
    constructor <;> linarith only [herror.1, herror.2, hnear.1, hnear.2]
  · intro hproduct hcents
    have hsame : (cost * quantity * .ofNat 100).toRat = 100 * cost.toRat * quantity.toRat := by
      rw [hcents, hproduct]
      ring
    rwa [hsame] at hnearest

/-- Twelve cents and a half are priced exactly, and go up.  A cost that is written
as 1.115 lies below it, and is priced at a cent too many all the same. -/
theorem lineTotal_within_cent_eighth :
    ((Binary64.ofNat 1 / .ofNat 8).IsMeasure ∧ (Binary64.ofNat 1115 / .ofNat 1000).IsMeasure ∧
        (Binary64.ofNat 1).isFinite = true ∧ Binary64.zero.lt (.ofNat 1) = true ∧
        100 * (Binary64.ofNat 1 / .ofNat 8).toRat * (Binary64.ofNat 1).toRat ≤ 2 ^ 50 ∧
        100 * (Binary64.ofNat 1115 / .ofNat 1000).toRat * (Binary64.ofNat 1).toRat ≤ 2 ^ 50) ∧
      (Money.lineTotal (.ofNat 1 / .ofNat 8) (.ofNat 1)).cents.toInt = 13 ∧
      IsNearestAway (100 * (Binary64.ofNat 1 / .ofNat 8).toRat * (Binary64.ofNat 1).toRat) 13 ∧
      (Money.lineTotal (.ofNat 1115 / .ofNat 1000) (.ofNat 1)).cents.toInt = 112 ∧
      100 * (Binary64.ofNat 1115 / .ofNat 1000).toRat * (Binary64.ofNat 1).toRat < 223 / 2 ∧
      |(112 : ℚ) - 100 * (Binary64.ofNat 1115 / .ofNat 1000).toRat * (Binary64.ofNat 1).toRat| <
        1 := by
  have heighth : (Binary64.ofNat 1 / .ofNat 8).IsMeasure := ⟨by decide +kernel, by decide +kernel⟩
  have hcost : (Binary64.ofNat 1115 / .ofNat 1000).IsMeasure :=
    ⟨by decide +kernel, by decide +kernel⟩
  have hfinite : (Binary64.ofNat 1).isFinite = true := by decide +kernel
  have hpositive : Binary64.zero.lt (.ofNat 1) = true := by decide +kernel
  have hsmall : 100 * (Binary64.ofNat 1 / .ofNat 8).toRat * (Binary64.ofNat 1).toRat ≤ 2 ^ 50 := by
    decide +kernel
  have hsmallCost :
      100 * (Binary64.ofNat 1115 / .ofNat 1000).toRat * (Binary64.ofNat 1).toRat ≤ 2 ^ 50 := by
    decide +kernel
  have hexact : (Money.lineTotal (.ofNat 1 / .ofNat 8) (.ofNat 1)).cents.toInt = 13 := by
    decide +kernel
  have hdear : (Money.lineTotal (.ofNat 1115 / .ofNat 1000) (.ofNat 1)).cents.toInt = 112 := by
    decide +kernel
  have hnearest := (lineTotal_within_cent _ _ heighth hfinite hpositive hsmall).2
    (by decide +kernel) (by decide +kernel)
  have hwithin := (lineTotal_within_cent _ _ hcost hfinite hpositive hsmallCost).1
  rw [hexact] at hnearest
  rw [hdear] at hwithin
  exact ⟨⟨heighth, hcost, hfinite, hpositive, hsmall, hsmallCost⟩, hexact, hnearest, hdear,
    by decide +kernel, hwithin⟩

end SolarTakeoff
