import SolarTakeoff.Proofs.Binary64.Whole
import SolarTakeoff.Proofs.Line.Bounds
import SolarTakeoff.Proofs.Validation.Accepted
import Mathlib.Tactic

/-!
# Prices keep the order of costs and quantities

A price goes through two products, a rounding and a conversion, and each of them
keeps the order of numbers.  The one exception is a cost times a quantity that
is beyond all numbers: it counts as nothing, while every product below it that
is too many cents for sixty-four bits counts as the largest amount.
-/

namespace SolarTakeoff

attribute [local irreducible] oneUnits unitsLimit

namespace Binary64

variable {x y : Binary64} {a : ℤ}

theorem position?_hundred : (ofNat 100).position? = some (100 * (oneUnits : ℤ)) := by
  obtain ⟨magnitude, hfinite, hunits⟩ := exists_magnitude_ofNat
    (show 100 ≤ Nat.pow 2 53 by decide)
  rw [hfinite, position?_finite]
  simp [signedUnits, hunits]

theorem position?_half : half.position? = some (roundedPosition oneUnits 2) := by
  have hratio : (ofRatio false (oneUnits : ℤ).natAbs 2).position? =
      some (roundedPosition oneUnits 2) :=
    position?_ofRatio 2 (fun _ => Int.natCast_nonneg _) (by simp)
  rwa [Int.natAbs_natCast] at hratio

/-- A quotient of units that is not above a hundred times a number rounds to
nothing above their product. -/
theorem le_mul_hundred {value : ℤ} {denominator : ℕ} (hx : x.isFinite = true)
    (ha : x.position? = some a) (hd : 0 < denominator)
    (hy : y.position? = some (roundedPosition value denominator))
    (h : value ≤ 100 * a * denominator) : y.le (x * .ofNat 100) = true := by
  have hproduct := position?_mul hx Money.isFinite_hundred ha position?_hundred
  refine le_eq_true_iff.mpr ⟨_, _, hy, hproduct, ?_⟩
  apply roundedPosition_le_roundedPosition hd oneUnits_pos
  calc value * oneUnits ≤ 100 * a * denominator * oneUnits :=
        Int.mul_le_mul_of_nonneg_right h (Int.natCast_nonneg _)
    _ = a * (100 * oneUnits) * denominator := by ring

end Binary64

namespace Money

variable {cost dearer quantity more dollars higher : Binary64} {units : ℤ}

theorem cents_ofDollars (h : dollars.isFinite = true) :
    (ofDollars dollars).cents = (dollars * .ofNat 100).roundAway.toInt64 := by
  simp [ofDollars, h]

theorem ofDollars_of_not_finite (h : dollars.isFinite = false) : ofDollars dollars = .zero := by
  simp [ofDollars, h]

theorem ofDollars_le_ofDollars (hdollars : dollars.isFinite = true)
    (hhigher : higher.isFinite = true) (h : dollars.le higher = true) :
    (ofDollars dollars).cents.toInt ≤ (ofDollars higher).cents.toInt := by
  have hscaled : (dollars * .ofNat 100).le (higher * .ofNat 100) = true :=
    Binary64.mul_le_mul_of_zero_le hdollars hhigher isFinite_hundred
      (Binary64.zero_le_ofNat 100) h
  rw [cents_ofDollars hdollars, cents_ofDollars hhigher]
  exact Binary64.toInt64_le_toInt64 (Binary64.keepsOrder_roundAway _ _ hscaled)

/-- A number with a known price is a bound for the price of all that is not below
it in cents. -/
theorem toInt64_le_ofDollars {value : ℤ} {denominator : ℕ} {cents : Binary64}
    (hdollars : dollars.isFinite = true) (hunits : dollars.position? = some units)
    (hd : 0 < denominator) (hcents : cents.position? = some (roundedPosition value denominator))
    (h : value ≤ 100 * units * denominator) :
    cents.roundAway.toInt64.toInt ≤ (ofDollars dollars).cents.toInt := by
  rw [cents_ofDollars hdollars]
  have hle := Binary64.le_mul_hundred hdollars hunits hd hcents h
  exact Binary64.toInt64_le_toInt64 (Binary64.keepsOrder_roundAway _ _ hle)

/-- Less than half a cent, in dollars. -/
def UnderHalfCent (dollars : Binary64) : Prop :=
  ∃ units, dollars.position? = some units ∧ 200 * units < oneUnits

/-- As many cents or more as are too many for sixty-four bits, in dollars. -/
def PassesRange (dollars : Binary64) : Prop :=
  ∃ units, dollars.position? = some units ∧
    9223372036854775808 * (oneUnits : ℤ) ≤ 100 * units

theorem underHalfCent_of_ofDollars_eq_zero (hdollars : dollars.isFinite = true)
    (h : ofDollars dollars = .zero) : UnderHalfCent dollars := by
  obtain ⟨units, hunits⟩ := Binary64.exists_position_of_isFinite hdollars
  refine ⟨units, hunits, ?_⟩
  by_contra hnot
  have hone : Binary64.half.roundAway.toInt64.toInt = 1 := by decide +kernel
  have hle := toInt64_le_ofDollars hdollars hunits Nat.two_pos Binary64.position?_half
    (by push_cast; omega)
  rw [hone, h] at hle
  exact absurd hle (by decide)

theorem cents_ofDollars_of_passesRange (hdollars : dollars.isFinite = true)
    (h : PassesRange dollars) : (ofDollars dollars).cents = Int64.maxValue := by
  obtain ⟨units, hunits, hpasses⟩ := h
  have hlimit : (Binary64.ofNat 9223372036854775808).roundAway.toInt64.toInt =
      9223372036854775807 := by
    decide +kernel
  have hle := toInt64_le_ofDollars hdollars hunits Nat.one_pos
    (Binary64.position?_ofUnits (9223372036854775808 * oneUnits)) (by push_cast; omega)
  have hcents : (ofDollars dollars).cents.toInt < 2 ^ 63 := (ofDollars dollars).cents.toInt_lt
  change (Binary64.ofNat 9223372036854775808).roundAway.toInt64.toInt ≤ _ at hle
  rw [hlimit] at hle
  apply Int64.toInt_inj.mp
  rw [Int64.toInt_maxValue]
  omega

/-- What becomes of a cost times a quantity in each range of products. -/
structure PricedByRange (cost quantity : Binary64) : Prop where
  infinite : (cost * quantity).isFinite = false → lineTotal cost quantity = .zero
  saturated : (cost * quantity).isFinite = true → PassesRange (cost * quantity) →
    (lineTotal cost quantity).cents = Int64.maxValue
  nothing : lineTotal cost quantity = .zero →
    UnderHalfCent (cost * quantity) ∨ (cost * quantity).isFinite = false

theorem pricedByRange (cost quantity : Binary64) : PricedByRange cost quantity where
  infinite := ofDollars_of_not_finite
  saturated := cents_ofDollars_of_passesRange
  nothing := by
    intro h
    cases hfinite : (cost * quantity).isFinite with
    | false => exact .inr rfl
    | true => exact .inl (underHalfCent_of_ofDollars_eq_zero hfinite h)

theorem lineTotal_le_lineTotal (hcost : cost.IsMeasure) (hquantity : quantity.IsMeasure)
    (hdearer : dearer.isFinite = true) (hmore : more.isFinite = true)
    (hcosts : cost.le dearer = true) (hquantities : quantity.le more = true)
    (hproduct : (dearer * more).isFinite = true) :
    (lineTotal cost quantity).cents.toInt ≤ (lineTotal dearer more).cents.toInt := by
  have hle : (cost * quantity).le (dearer * more) = true :=
    Binary64.mul_le_mul_of_le hcost.1 hdearer hquantity.1 hmore hcost.2 hquantity.2 hcosts
      hquantities
  have hnonneg : Binary64.zero.le (cost * quantity) = true :=
    Binary64.zero_le_mul hcost.1 hquantity.1 hcost.2 hquantity.2
  exact ofDollars_le_ofDollars (Binary64.isFinite_of_le hnonneg hle hproduct) hproduct hle

end Money

/-- A dearer product or more of it has no lower price, unless the cost times the
quantity is beyond all numbers and counts as nothing.  A line with a cost is
therefore free only for less than half a cent, or for such a product. -/
theorem lineTotal_mono_of_isFinite :
    (∀ cost dearer quantity more : Binary64, cost.IsMeasure → dearer.isFinite = true →
      cost.le dearer = true → quantity.isFinite = true → Binary64.zero.lt quantity = true →
      more.isFinite = true → quantity.le more = true → (dearer * more).isFinite = true →
        (Money.lineTotal cost quantity).cents.toInt ≤
          (Money.lineTotal dearer more).cents.toInt) ∧
    (∀ cost quantity : Binary64, Money.PricedByRange cost quantity) ∧
    ∀ (job : Job) (rules : List Rule) (selection : Selection),
      ∀ line ∈ (calculate job rules selection).value, ∀ cost, line.unitCost = some cost →
        line.totalCost = .zero →
          Money.UnderHalfCent (cost * line.quantity) ∨
            (cost * line.quantity).isFinite = false := by
  refine ⟨?_, Money.pricedByRange, ?_⟩
  · intro cost dearer quantity more hcost hdearer hcosts hquantity hpositive hmore hquantities
    exact Money.lineTotal_le_lineTotal hcost ⟨hquantity, Binary64.zero_le_of_zero_lt hpositive⟩
      hdearer hmore hcosts hquantities
  · intro job rules selection line hline cost hcost hfree
    obtain ⟨rule, -, -, hvalue⟩ := mem_calculate_iff.mp hline
    obtain ⟨-, -, rfl⟩ := Rule.value_line?_eq_some_iff.mp hvalue
    rw [Rule.totalCost_lineOf, hcost] at hfree
    exact (Money.pricedByRange cost _).nothing hfree

theorem lineTotal_half_le_lineTotal_vast :
    (Binary64.half.IsMeasure ∧ Binary64.half.le (.ofNat (Nat.pow 10 200)) = true ∧
        (Binary64.ofNat 3).le (.ofNat (Nat.pow 10 100)) = true ∧
        (Binary64.ofNat (Nat.pow 10 200) * .ofNat (Nat.pow 10 100)).isFinite = true) ∧
      (Money.lineTotal .half (.ofNat 3)).cents.toInt ≤
        (Money.lineTotal (.ofNat (Nat.pow 10 200)) (.ofNat (Nat.pow 10 100))).cents.toInt := by
  have hhalf : Binary64.half.IsMeasure := ⟨Binary64.isFinite_half, by decide +kernel⟩
  have hcosts : Binary64.half.le (.ofNat (Nat.pow 10 200)) = true := by decide +kernel
  have hquantities : (Binary64.ofNat 3).le (.ofNat (Nat.pow 10 100)) = true := by decide +kernel
  have hproduct : (Binary64.ofNat (Nat.pow 10 200) * .ofNat (Nat.pow 10 100)).isFinite = true := by
    decide +kernel
  exact ⟨⟨hhalf, hcosts, hquantities, hproduct⟩,
    lineTotal_mono_of_isFinite.1 _ _ _ _ hhalf (by decide +kernel) hcosts (by decide +kernel)
      (by decide +kernel) (by decide +kernel) hquantities hproduct⟩

/-- One piece at this cost is the largest amount, and as many as dollars are free. -/
theorem not_lineTotal_le_lineTotal_vast :
    ((Binary64.ofNat (Nat.pow 10 200)).IsMeasure ∧ Binary64.zero.lt (.ofNat 1) = true ∧
        (Binary64.ofNat 1).le (.ofNat (Nat.pow 10 200)) = true) ∧
      ¬ (Money.lineTotal (.ofNat (Nat.pow 10 200)) (.ofNat 1)).cents.toInt ≤
          (Money.lineTotal (.ofNat (Nat.pow 10 200)) (.ofNat (Nat.pow 10 200))).cents.toInt ∧
        Money.lineTotal (.ofNat (Nat.pow 10 200)) (.ofNat (Nat.pow 10 200)) = .zero := by
  have hmeasure : (Binary64.ofNat (Nat.pow 10 200)).IsMeasure :=
    ⟨by decide +kernel, by decide +kernel⟩
  have hfree : Money.lineTotal (.ofNat (Nat.pow 10 200)) (.ofNat (Nat.pow 10 200)) = .zero := by
    decide +kernel
  refine ⟨⟨hmeasure, by decide +kernel, by decide +kernel⟩, ?_, hfree⟩
  rw [hfree]
  decide +kernel

end SolarTakeoff
