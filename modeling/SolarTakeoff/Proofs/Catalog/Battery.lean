import SolarTakeoff.Proofs.Catalog.Lines
import SolarTakeoff.Proofs.Line.PartialRuns
import SolarTakeoff.Proofs.Quantity.Stops
import Mathlib.Tactic

/-!
# Jobs without a battery

Two separate conditions keep batteries out of such a job: rules for battery
products do not take part, and rules per battery stop before their bounds can
raise them.  A capacity that is still on record for the job plays no part in
either.  Neither kind of rule gives a line, so a catalog without them gives the
same lines.
-/

namespace SolarTakeoff

def Strategy.isPerBattery : Strategy → Bool
  | .perBattery _ => true
  | _ => false

/-- For a battery product, or counted by the capacity of the battery. -/
def Rule.needsBattery (rule : Rule) : Bool :=
  rule.isBatteryGated || rule.strategy.isPerBattery

theorem Strategy.isPerBattery_eq_true_iff {strategy : Strategy} :
    strategy.isPerBattery = true ↔ ∃ multiplier, strategy = .perBattery multiplier := by
  cases strategy <;> simp [isPerBattery]

theorem Job.usableBattery?_of_hasBattery_eq_false {job : Job} (h : job.hasBattery = false) :
    job.usableBattery? = none := by
  simp [usableBattery?, h]

namespace Rule

variable {rule : Rule} {job : Job} {selection : Selection}

theorem needsBattery_eq_true_iff :
    rule.needsBattery = true ↔
      rule.productType = some "BATTERY" ∨
        ∃ multiplier, rule.strategy = .perBattery multiplier := by
  rw [needsBattery, Bool.or_eq_true, Strategy.isPerBattery_eq_true_iff]
  simp [isBatteryGated]

theorem not_contributes_of_battery_product (hbattery : job.hasBattery = false)
    (hproduct : rule.productType = some "BATTERY") : ¬ rule.Contributes job selection := by
  intro h
  have hhas : job.hasBattery = true := h.takesPart.battery hproduct
  rw [hbattery] at hhas
  cases hhas

theorem not_contributes_of_perBattery (hbattery : job.hasBattery = false)
    {multiplier : Binary64} (hstrategy : rule.strategy = .perBattery multiplier) :
    ¬ rule.Contributes job selection := by
  intro h
  have husable := Job.usableBattery?_of_hasBattery_eq_false hbattery
  obtain ⟨details, warning, hstopped⟩ := derive_of_perBattery_of_none hstrategy husable
  have hpositive := h.positive
  rw [quantity_resolve_of_stopped hstopped, Binary64.lt_irrefl] at hpositive
  cases hpositive

theorem not_contributes_of_needsBattery (hbattery : job.hasBattery = false)
    (hneeds : rule.needsBattery = true) : ¬ rule.Contributes job selection := by
  rcases needsBattery_eq_true_iff.mp hneeds with hproduct | ⟨multiplier, hstrategy⟩
  · exact not_contributes_of_battery_product hbattery hproduct
  · exact not_contributes_of_perBattery hbattery hstrategy

theorem productType_of_value_line? {line : Line} (h : (rule.line? job).value = some line) :
    line.productType = rule.productType := by
  obtain ⟨-, -, rfl⟩ := value_line?_eq_some_iff.mp h
  rfl

end Rule

theorem exists_rule_without_battery {job : Job} (hbattery : job.hasBattery = false)
    {rules : List Rule} {selection : Selection} {line : Line}
    (h : line ∈ (calculate job rules selection).value) :
    line.productType ≠ some "BATTERY" ∧
      ∃ rule ∈ rules, rule.needsBattery = false ∧ (rule.line? job).value = some line := by
  obtain ⟨rule, hrule, htakes, hline⟩ := mem_calculate_iff.mp h
  have hneeds : rule.needsBattery = false := by
    cases hneeds : rule.needsBattery with
    | false => rfl
    | true =>
        have hcontributes : rule.Contributes job selection :=
          Rule.contributes_iff.mpr ⟨htakes, line, hline⟩
        exact (Rule.not_contributes_of_needsBattery hbattery hneeds hcontributes).elim
  have hproduct : rule.productType ≠ some "BATTERY" := by
    intro hproduct
    simp [Rule.needsBattery_eq_true_iff.mpr (.inl hproduct)] at hneeds
  rw [← Rule.productType_of_value_line? hline] at hproduct
  exact ⟨hproduct, rule, hrule, hneeds, hline⟩

/-- For a job without a battery the rules that need one can be left out of a
list of rules or of a catalog: no line is for a battery product and none comes
from a rule per battery, whatever capacity is on record and whatever the rules
ask for as a minimum. -/
theorem calculate_without_battery {job : Job} (hbattery : job.hasBattery = false)
    (rules : List Rule) (selection : Selection) :
    (calculate job (rules.filter (!·.needsBattery)) selection).value =
        (calculate job rules selection).value ∧
      ((Catalog.ofRules (rules.filter (!·.needsBattery))).value.calculate job selection).value =
        ((Catalog.ofRules rules).value.calculate job selection).value ∧
      (∀ rule : Rule,
        (rule.productType = some "BATTERY" ∨
          ∃ multiplier, rule.strategy = .perBattery multiplier) →
        ¬ rule.Contributes job selection) ∧
      ∀ line,
        (line ∈ (calculate job rules selection).value ∨
          line ∈ ((Catalog.ofRules rules).value.calculate job selection).value) →
        line.productType ≠ some "BATTERY" ∧
          ∃ rule ∈ rules, rule.needsBattery = false ∧ (rule.line? job).value = some line := by
  have hlines : (calculate job (rules.filter (!·.needsBattery)) selection).value =
      (calculate job rules selection).value := by
    apply calculate_of_filter
    intro rule _ hkeep
    exact Rule.not_contributes_of_needsBattery hbattery (by simpa using hkeep)
  refine ⟨hlines, ?_, ?_, ?_⟩
  · rw [Catalog.value_calculate_eq, Catalog.value_calculate_eq, Catalog.rules_ofRules,
      Catalog.rules_ofRules, hlines]
  · intro rule hneeds
    exact Rule.not_contributes_of_needsBattery hbattery
      (Rule.needsBattery_eq_true_iff.mpr hneeds)
  · intro line hline
    rw [Catalog.value_calculate_eq, Catalog.rules_ofRules, or_self] at hline
    exact exists_rule_without_battery hbattery hline

/-- No battery, and the capacity of one on record. -/
def retiredJob : Job :=
  { bareJob with batteryCapacity := some (.ofNat 13) }

/-- A rule per battery that asks for ten at least. -/
def cablingRule : Rule :=
  { crossedRule with strategy := .perBattery (.ofNat 1), maximum := none }

def batteryRule : Rule :=
  { crossedRule with productType := some "BATTERY" }

theorem calculate_retiredJob :
    retiredJob.hasBattery = false ∧
      (calculate retiredJob [crossedRule] { categories := some ["ELECTRICAL"] }).value =
        (calculate retiredJob [cablingRule, crossedRule, batteryRule]
          { categories := some ["ELECTRICAL"] }).value ∧
      ¬ cablingRule.Contributes retiredJob { categories := some ["ELECTRICAL"] } := by
  have hbattery : retiredJob.hasBattery = false := rfl
  have hothers : [cablingRule, crossedRule, batteryRule].filter (!·.needsBattery) =
      [crossedRule] := rfl
  obtain ⟨hlines, -, hnone, -⟩ := calculate_without_battery hbattery
    [cablingRule, crossedRule, batteryRule] { categories := some ["ELECTRICAL"] }
  rw [hothers] at hlines
  exact ⟨hbattery, hlines, hnone cablingRule (.inr ⟨_, rfl⟩)⟩

end SolarTakeoff
