import SolarTakeoff.Proofs.Line.Order
import SolarTakeoff.Proofs.Money.Amounts
import SolarTakeoff.Proofs.Quantity.Bounds
import Mathlib.Tactic

/-!
# What every line of a run satisfies

Nothing is assumed of the rules and the job: numbers may be infinite or not
numbers, bounds inverted, costs negative.  The quantity of a line is finite and
positive and within the bounds of its rule as far as these can be met at once;
its cost is usable or absent, and its total is never below zero.
-/

namespace SolarTakeoff

theorem Product.usableCost?_eq_some_iff {product : Product} {cost : Binary64} :
    product.usableCost? = some cost ↔
      product.offer.unitCost = some cost ∧
        cost.isFinite = true ∧ Binary64.zero.le cost = true := by
  simp [usableCost?]

namespace Line

/-- What a rule asks of its line, for arbitrary numbers. -/
structure Fits (line : Line) (rule : Rule) : Prop where
  finite : line.quantity.isFinite = true
  positive : Binary64.zero.lt line.quantity = true
  bounds : rule.Bounds line.quantity
  usable : ∀ cost, line.unitCost = some cost →
    cost.isFinite = true ∧ Binary64.zero.le cost = true
  total_nonneg : 0 ≤ line.totalCost.cents.toInt
  total_uncosted : line.unitCost = none → line.totalCost = .zero

end Line

namespace Rule

variable {rule : Rule} {job : Job} {resolution : Resolution}

theorem unitCost_lineOf :
    (rule.lineOf resolution).unitCost = (rule.product?.getD {}).usableCost? :=
  rfl

theorem totalCost_lineOf :
    (rule.lineOf resolution).totalCost =
      ((rule.lineOf resolution).unitCost.map
        (Money.lineTotal · resolution.quantity)).getD .zero :=
  rfl

theorem fits_lineOf (hfinite : resolution.quantity.isFinite = true)
    (hpositive : Binary64.zero.lt resolution.quantity = true)
    (hbounds : rule.Bounds resolution.quantity) :
    (rule.lineOf resolution).Fits rule := by
  have husable : ∀ cost, (rule.lineOf resolution).unitCost = some cost →
      cost.isFinite = true ∧ Binary64.zero.le cost = true := by
    intro cost hcost
    rw [unitCost_lineOf] at hcost
    exact (Product.usableCost?_eq_some_iff.mp hcost).2
  refine ⟨hfinite, hpositive, hbounds, husable, ?_, ?_⟩
  · rw [totalCost_lineOf]
    cases hcost : (rule.lineOf resolution).unitCost with
    | none => exact le_rfl
    | some cost => exact Money.lineTotal_nonneg (husable cost hcost) ⟨hfinite, hpositive⟩
  · intro huncosted
    rw [totalCost_lineOf, huncosted]
    rfl

theorem fits_of_value_line? {line : Line} (h : (rule.line? job).value = some line) :
    line.Fits rule := by
  obtain ⟨hfinite, hpositive, rfl⟩ := value_line?_eq_some_iff.mp h
  exact fits_lineOf hfinite hpositive (bounds_quantity_resolve hfinite hpositive)

end Rule

variable {job : Job} {rules : List Rule} {selection : Selection} {line : Line}

/-- Every line of a run is the line of one of its rules and fits it. -/
theorem exists_rule_fits_of_mem_calculate
    (h : line ∈ (calculate job rules selection).value) :
    ∃ rule ∈ rules, (rule.line? job).value = some line ∧ line.Fits rule := by
  obtain ⟨rule, hrule, -, hline⟩ := mem_calculate_iff.mp h
  exact ⟨rule, hrule, hline, Rule.fits_of_value_line? hline⟩

/-- A priced rule whose maximum is below its minimum. -/
def crossedRule : Rule where
  id := "clips"
  name := "Cable clips"
  category := "ELECTRICAL"
  productType := none
  strategy := .fixed
  base := .ofNat 7
  roundUp := true
  minimum := .ofNat 10
  maximum := some (.ofNat 5)
  isRequired := true
  isActive := true
  priority := 0
  unit := none
  notes := none
  candidates := [{ isPrimary := true, source := .direct { unitCost := some (.ofNat 2) } }]

def bareJob : Job where
  systemSize := .zero
  panelCount := 0

theorem crossedRule_takesPart : crossedRule.TakesPart bareJob {} :=
  Rule.applies_eq_true_iff.mp (by decide)

theorem value_line?_crossedRule :
    (crossedRule.line? bareJob).value =
      some (crossedRule.lineOf (crossedRule.resolve bareJob)) :=
  Rule.value_line?_eq_some_iff.mpr ⟨by decide +kernel, by decide +kernel, rfl⟩

theorem exists_rule_fits_crossedRule :
    crossedRule.lineOf (crossedRule.resolve bareJob) ∈
        (calculate bareJob [crossedRule] {}).value ∧
      ∃ rule ∈ [crossedRule],
        (rule.line? bareJob).value =
          some (crossedRule.lineOf (crossedRule.resolve bareJob)) ∧
        (crossedRule.lineOf (crossedRule.resolve bareJob)).Fits rule := by
  have hmem : crossedRule.lineOf (crossedRule.resolve bareJob) ∈
      (calculate bareJob [crossedRule] {}).value :=
    mem_calculate_iff.mpr
      ⟨crossedRule, by simp, crossedRule_takesPart, value_line?_crossedRule⟩
  exact ⟨hmem, exists_rule_fits_of_mem_calculate hmem⟩

end SolarTakeoff
