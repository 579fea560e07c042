import SolarTakeoff.Report
import SolarTakeoff.Proofs.Line.Order
import Mathlib.Tactic

/-!
# Lines by way of a catalog

A catalog is asked for the rules of a selection, and the run over its answer
filters once more.  The query says the same of a rule as the selection does,
only it does not know the job, so the answer holds every rule that applies and
perhaps some for a battery that the job lacks.  What is left out of a list
beforehand makes no difference to the rules of a run or to their order, as long
as it would not have applied.
-/

namespace SolarTakeoff

variable {rule : Rule} {job : Job} {selection : Selection} {rules : List Rule}

theorem Selection.selects_query_eq_true_iff :
    selection.query.selects rule = true ↔
      rule.isActive = true ∧
        (selection.includeOptional = false → rule.isRequired = true) ∧
        selection.allowsCategory rule.category = true := by
  unfold query Query.selects allowsCategory
  cases rule.isActive <;> cases selection.includeOptional <;> cases rule.isRequired <;> simp

/-- Of all conditions to take part, the query leaves only the one on the job
to the run. -/
theorem Rule.takesPart_iff_selects :
    rule.TakesPart job selection ↔
      selection.query.selects rule = true ∧
        (rule.productType = some "BATTERY" → job.hasBattery = true) := by
  rw [Selection.selects_query_eq_true_iff, Rule.allowsCategory_eq_true_iff]
  constructor
  · intro h
    exact ⟨⟨h.active, h.required, h.category⟩, h.battery⟩
  · rintro ⟨⟨hactive, hrequired, hcategory⟩, hbattery⟩
    exact ⟨hactive, hrequired, hcategory, hbattery⟩

theorem applicableRules_filter {keep : Rule → Bool}
    (hkeep : ∀ rule ∈ rules, rule.applies job selection = true → keep rule = true) :
    applicableRules job (rules.filter keep) selection =
      applicableRules job rules selection := by
  have hfilter : (rules.filter keep).filter (·.applies job selection) =
      rules.filter (·.applies job selection) := by
    rw [List.filter_filter]
    apply List.filter_congr
    intro rule hrule
    cases happlies : rule.applies job selection with
    | false => rfl
    | true => simp [hkeep rule hrule happlies]
  unfold applicableRules
  rw [hfilter]

namespace Catalog

theorem rules_ofRules : (ofRules rules).value.rules = rules :=
  rfl

theorem applicableRules_find (catalog : Catalog) :
    applicableRules job (catalog.find selection.query) selection =
      applicableRules job catalog.rules selection := by
  apply applicableRules_filter
  intro rule _ happlies
  have htakes := Rule.applies_eq_true_iff.mp happlies
  exact (Rule.takesPart_iff_selects.mp htakes).1

theorem value_calculate_eq (catalog : Catalog) :
    (catalog.calculate job selection).value =
      (SolarTakeoff.calculate job catalog.rules selection).value := by
  unfold calculate
  rw [value_calculate, value_calculate, applicableRules_find]

/-- A catalog made of rules gives exactly the lines of a run over these rules,
and so do all reports over the rules of their catalog. -/
theorem lines_calculate_ofRules (rules : List Rule) (job : Job) (selection : Selection) :
    ((ofRules rules).value.calculate job selection).value =
        (SolarTakeoff.calculate job rules selection).value ∧
      ∀ setup : Setup,
        (setup.reportWith job selection).value.lines =
            (SolarTakeoff.calculate job setup.catalog.rules selection).value ∧
          (setup.report job).value.lines =
            (SolarTakeoff.calculate job setup.catalog.rules setup.config.selection).value := by
  constructor
  · rw [value_calculate_eq, rules_ofRules]
  · intro setup
    exact ⟨setup.catalog.value_calculate_eq, setup.catalog.value_calculate_eq⟩

end Catalog

end SolarTakeoff
