import SolarTakeoff.Proofs.Formula.Inputs
import SolarTakeoff.Proofs.Quantity.Stops
import Mathlib.Tactic

/-!
# What a formula rule depends on

The account of a formula rule names every input that its quantity depends on:
for two jobs that agree on the inputs of the formula, the rule comes to the same
quantity with the same account.  This covers formulas without a value, and a
text that is no formula has no inputs to agree on.
-/

namespace SolarTakeoff

variable {first second : Inputs}

theorem bindingsText_congr {mentioned : List Input}
    (h : ∀ input ∈ mentioned, first input = second input) :
    bindingsText first mentioned = bindingsText second mentioned := by
  have hbindings : (mentioned.map fun input => input.name ++ "=" ++ (first input).brief) =
      mentioned.map fun input => input.name ++ "=" ++ (second input).brief := by
    apply List.map_congr_left
    intro input hinput
    rw [h input hinput]
  rw [bindingsText, bindingsText, hbindings]

theorem Derivation.ofFormula_congr (ruleId : String) {expression : String}
    (h : ∀ expr, Expr.ofText expression = .ok expr →
      ∀ input ∈ expr.inputs, first input = second input) :
    ofFormula ruleId expression first = ofFormula ruleId expression second := by
  unfold ofFormula
  cases hparse : Expr.ofText expression with
  | error error => rfl
  | ok expr =>
      have hinputs := h expr hparse
      have hvalue : expr.evaluate first = expr.evaluate second := Expr.evaluate_congr hinputs
      have hbindings := bindingsText_congr hinputs
      simp only [bind, Except.bind, pure, Except.pure, hvalue]
      cases expr.evaluate second with
      | error error => rfl
      | ok value => simp only [hbindings]

theorem Rule.resolve_congr {rule : Rule} {job other : Job} {expression : String}
    (hstrategy : rule.strategy = .formula expression)
    (h : ∀ expr, Expr.ofText expression = .ok expr →
      ∀ input ∈ expr.inputs, job.inputs input = other.inputs input) :
    rule.resolve job = rule.resolve other := by
  have hderive : rule.derive job = rule.derive other := by
    rw [derive_of_formula job hstrategy, derive_of_formula other hstrategy,
      Derivation.ofFormula_congr rule.id h]
  rw [resolve, resolve, hderive]

/-- The inputs of a tree are listed once each, exactly those that occur in it and
in the order of their first occurrences, and evaluation depends on no others.
So the quantity of a formula rule and the account of it depend on nothing of the
job but the inputs of the formula. -/
theorem inputs_suffice :
    (∀ expr : Expr,
      expr.inputs.Nodup ∧
        (∀ input, input ∈ expr.inputs ↔ .input input ∈ expr.postorder) ∧
        expr.inputs.Pairwise expr.UsesBefore ∧
        ∀ first second : Inputs, (∀ input ∈ expr.inputs, first input = second input) →
          expr.evaluate first = expr.evaluate second) ∧
    ∀ (rule : Rule) (job other : Job) (expression : String),
      rule.strategy = .formula expression →
      (∀ expr, Expr.ofText expression = .ok expr →
        ∀ input ∈ expr.inputs, job.inputs input = other.inputs input) →
      (rule.resolve job).quantity = (rule.resolve other).quantity ∧
        (rule.resolve job).details = (rule.resolve other).details := by
  constructor
  · intro expr
    exact ⟨expr.nodup_inputs, fun input => Expr.mem_inputs_iff,
      expr.pairwise_usesBefore_inputs, fun first second h => Expr.evaluate_congr h⟩
  · intro rule job other expression hstrategy h
    have hresolve := Rule.resolve_congr hstrategy h
    exact ⟨congrArg Resolution.quantity hresolve, congrArg Resolution.details hresolve⟩

def storageJob : Job :=
  { bareJob with panelCount := 20, hasBattery := true }

/-- The same panels and a battery as well, but no other finite number. -/
def unmeasuredJob : Job :=
  { storageJob with systemSize := .nan, batteryCapacity := some (.infinite false) }

theorem inputs_panelCount_div_hasBattery :
    (Expr.binary .divide (.input .panelCount) (.input .hasBattery)).inputs =
      [.panelCount, .hasBattery] := by
  simp [Expr.inputs, Expr.mentions, List.eraseDups_cons]

theorem resolve_unmeasuredJob :
    storageJob.inputs .systemSize ≠ unmeasuredJob.inputs .systemSize ∧
      storageJob.inputs .batteryCapacity ≠ unmeasuredJob.inputs .batteryCapacity ∧
      (Expr.binary .divide (.input .panelCount) (.input .hasBattery)).evaluate
          storageJob.inputs =
        (Expr.binary .divide (.input .panelCount) (.input .hasBattery)).evaluate
          unmeasuredJob.inputs ∧
      (Rule.dividingRule.resolve storageJob).quantity =
        (Rule.dividingRule.resolve unmeasuredJob).quantity ∧
      (Rule.dividingRule.resolve storageJob).details =
        (Rule.dividingRule.resolve unmeasuredJob).details := by
  have hagree : ∀ input ∈ (Expr.binary .divide (.input .panelCount) (.input .hasBattery)).inputs,
      storageJob.inputs input = unmeasuredJob.inputs input := by
    intro input hinput
    rw [inputs_panelCount_div_hasBattery] at hinput
    cases input with
    | panelCount | hasBattery => rfl
    | systemSize | batteryCapacity => simp at hinput
  have hvalue := (inputs_suffice.1 _).2.2.2 storageJob.inputs unmeasuredJob.inputs hagree
  have hformula : ∀ expr, Expr.ofText "panelCount / hasBattery" = .ok expr →
      ∀ input ∈ expr.inputs, storageJob.inputs input = unmeasuredJob.inputs input := by
    intro expr hparse
    rw [Rule.ofText_panelCount_div_hasBattery] at hparse
    cases hparse
    exact hagree
  have hresolve := inputs_suffice.2 Rule.dividingRule storageJob unmeasuredJob _ rfl hformula
  exact ⟨by decide, by decide, hvalue, hresolve⟩

end SolarTakeoff
