import SolarTakeoff.Proofs.Formula.Evaluation
import SolarTakeoff.Proofs.Formula.Parsing
import SolarTakeoff.Proofs.Line.Bounds
import SolarTakeoff.Proofs.Quantity.Settled
import Mathlib.Data.List.TakeWhile
import Mathlib.Tactic

/-!
# Rules that stop and formulas that do not

A rule whose strategy stops comes to zero whatever is set for rounding and for
its bounds, and so it never gives a line.  A formula stops a rule exactly where
its text has no value; where it has one, the rule goes on like a fixed rule
with that value for its base.
-/

namespace SolarTakeoff

theorem trimBlanks_of_isBlankText {text : String} (h : isBlankText text = true) :
    trimBlanks text.toList = [] := by
  have hdrop : text.toList.dropWhile isBlank = [] := by
    rw [List.dropWhile_eq_nil_iff]
    exact List.all_eq_true.mp h
  simp [trimBlanks, hdrop]

theorem evaluateText_of_isBlankText {inputs : Inputs} {text : String}
    (h : isBlankText text = true) : evaluateText inputs text = .error .blank := by
  rw [evaluateText, Expr.ofText_of_blank (trimBlanks_of_isBlankText h)]
  rfl

theorem evaluateText_eq_ok_iff {inputs : Inputs} {text : String} {value : Binary64} :
    evaluateText inputs text = .ok value ↔
      ∃ expr, Expr.ofText text = .ok expr ∧ expr.evaluate inputs = .ok value := by
  rw [evaluateText, bind_eq_ok_iff]

theorem evaluateText_eq_error_iff {inputs : Inputs} {text : String} {error : FormulaError} :
    evaluateText inputs text = .error error ↔
      Expr.ofText text = .error error ∨
        ∃ expr, Expr.ofText text = .ok expr ∧ expr.evaluate inputs = .error error := by
  rw [evaluateText, bind_eq_error_iff]

namespace Derivation

variable {expression : String} {inputs : Inputs}

theorem ofFormula_of_error (ruleId : String) {error : FormulaError}
    (h : evaluateText inputs expression = .error error) :
    ∃ details warning, ofFormula ruleId expression inputs = .stopped details warning := by
  unfold ofFormula
  by_cases hblank : isBlankText expression = true
  · rw [if_pos hblank]
    exact ⟨_, _, rfl⟩
  · rw [if_neg hblank]
    rcases evaluateText_eq_error_iff.mp h with hparse | ⟨expr, hparse, hvalue⟩
    · rw [hparse]
      exact ⟨_, _, rfl⟩
    · rw [hparse]
      simp only [bind, Except.bind, hvalue]
      exact ⟨_, _, rfl⟩

theorem ofFormula_of_ok (ruleId : String) {value : Binary64}
    (h : evaluateText inputs expression = .ok value) :
    ∃ details, ofFormula ruleId expression inputs = .raw value details := by
  have hblank : ¬ isBlankText expression = true := by
    intro hblank
    rw [evaluateText_of_isBlankText hblank] at h
    cases h
  obtain ⟨expr, hparse, hvalue⟩ := evaluateText_eq_ok_iff.mp h
  unfold ofFormula
  rw [if_neg hblank, hparse]
  simp only [bind, Except.bind, hvalue]
  exact ⟨_, rfl⟩

end Derivation

namespace Rule

variable {rule other : Rule} {job otherJob : Job}

/-- The rule comes to nothing for the job: to the positive zero and no line. -/
structure ComesToNothing (rule : Rule) (job : Job) : Prop where
  quantity : (rule.resolve job).quantity = .zero
  line : (rule.line? job).value = none

theorem comesToNothing_of_stopped {details : String} {warning : Option Event}
    (h : rule.derive job = .stopped details warning) : rule.ComesToNothing job := by
  have hquantity := quantity_resolve_of_stopped h
  refine ⟨hquantity, ?_⟩
  rw [Option.eq_none_iff_forall_ne_some]
  intro line hline
  obtain ⟨-, hpositive, -⟩ := value_line?_eq_some_iff.mp hline
  simp [hquantity] at hpositive

theorem derive_of_formula (job : Job) {expression : String}
    (h : rule.strategy = .formula expression) :
    rule.derive job = .ofFormula rule.id expression job.inputs := by
  rw [derive, h]

theorem derive_of_unrecognized (job : Job) {tag : String}
    (h : rule.strategy = .unrecognized tag) :
    ∃ details warning, rule.derive job = .stopped details warning := by
  rw [derive, h]
  exact ⟨_, _, rfl⟩

theorem derive_of_perBattery_of_none {multiplier : Binary64}
    (h : rule.strategy = .perBattery multiplier) (hbattery : job.usableBattery? = none) :
    ∃ details warning, rule.derive job = .stopped details warning := by
  rw [derive, h]
  simp only [hbattery]
  exact ⟨_, _, rfl⟩

theorem derive_of_fixed (job : Job) (h : rule.strategy = .fixed) :
    ∃ details, rule.derive job = .raw rule.base details := by
  rw [derive, h]
  exact ⟨_, rfl⟩

/-- A fixed rule with this base that rounds and has its bounds like the rule. -/
structure FixedTwin (rule other : Rule) (value : Binary64) : Prop where
  strategy : other.strategy = .fixed
  base : other.base = value
  roundUp : other.roundUp = rule.roundUp
  minimum : other.minimum = rule.minimum
  maximum : other.maximum = rule.maximum

theorem quantity_resolve_of_twin {value : Binary64} {details : String}
    (h : rule.derive job = .raw value details) (htwin : rule.FixedTwin other value) :
    (rule.resolve job).quantity = (other.resolve otherJob).quantity := by
  obtain ⟨otherDetails, hother⟩ := derive_of_fixed otherJob htwin.strategy
  rw [htwin.base] at hother
  rw [quantity_resolve_of_raw h, quantity_resolve_of_raw hother]
  exact (settled_congr htwin.roundUp htwin.minimum htwin.maximum).symm

/-- A formula rule comes to nothing where its text has no value, and to what a
fixed rule makes of the value where it has one.  Rules with an unknown tag come
to nothing as well, and rules per battery do without a battery to use. -/
theorem resolve_of_formula_or_stopped (rule : Rule) (job : Job) :
    (∀ expression, rule.strategy = .formula expression →
      (∀ error, evaluateText job.inputs expression = .error error →
        rule.ComesToNothing job) ∧
      ∀ value, evaluateText job.inputs expression = .ok value →
        ∀ other otherJob, rule.FixedTwin other value →
          (rule.resolve job).quantity = (other.resolve otherJob).quantity) ∧
    (∀ tag, rule.strategy = .unrecognized tag → rule.ComesToNothing job) ∧
    ∀ multiplier, rule.strategy = .perBattery multiplier → job.usableBattery? = none →
      rule.ComesToNothing job := by
  refine ⟨?_, ?_, ?_⟩
  · intro expression hstrategy
    have hderive := derive_of_formula job hstrategy
    constructor
    · intro error herror
      obtain ⟨details, warning, hstopped⟩ := Derivation.ofFormula_of_error rule.id herror
      exact comesToNothing_of_stopped (hderive.trans hstopped)
    · intro value hvalue other otherJob htwin
      obtain ⟨details, hraw⟩ := Derivation.ofFormula_of_ok rule.id hvalue
      exact quantity_resolve_of_twin (hderive.trans hraw) htwin
  · intro tag hstrategy
    obtain ⟨details, warning, hstopped⟩ := derive_of_unrecognized job hstrategy
    exact comesToNothing_of_stopped hstopped
  · intro multiplier hstrategy hbattery
    obtain ⟨details, warning, hstopped⟩ := derive_of_perBattery_of_none hstrategy hbattery
    exact comesToNothing_of_stopped hstopped

/-- A rule with a minimum whose formula divides by the absence of a battery. -/
def dividingRule : Rule :=
  { crossedRule with strategy := .formula "panelCount / hasBattery", maximum := none }

theorem ofText_panelCount_div_hasBattery :
    Expr.ofText "panelCount / hasBattery" =
      .ok (.binary .divide (.input .panelCount) (.input .hasBattery)) := by
  have hcount : Derives .unary [.word "panelCount"] (.input .panelCount) :=
    .primary (.input .panelCount)
  have hbattery : Derives .unary [.word "hasBattery"] (.input .hasBattery) :=
    .primary (.input .hasBattery)
  have hquotient : Derives .term [.word "panelCount", .slash, .word "hasBattery"]
      (.binary .divide (.input .panelCount) (.input .hasBattery)) :=
    @Derives.product .divide _ _ _ _ rfl (.unary hcount) hbattery
  have hparse := Formula.ofTokens_eq_ok_iff_derives.mpr (.term hquotient)
  exact Expr.ofText_eq_ok_iff.mpr ⟨by decide, by decide, _, by decide +kernel, hparse⟩

theorem comesToNothing_dividingRule :
    evaluateText bareJob.inputs "panelCount / hasBattery" = .error .divisionByZero ∧
      dividingRule.ComesToNothing bareJob := by
  have hcount : (Expr.input .panelCount).evaluate bareJob.inputs = .ok .zero := by
    rw [Expr.evaluate, requireFinite_eq_ok_iff]
    exact ⟨by decide +kernel, by decide +kernel⟩
  have hbattery : (Expr.input .hasBattery).evaluate bareJob.inputs = .ok .zero := by
    rw [Expr.evaluate]
    rfl
  have hquotient : (Expr.binary .divide (.input .panelCount) (.input .hasBattery)).evaluate
      bareJob.inputs = .error .divisionByZero := by
    have hoperands : evaluateAll bareJob.inputs [.input .panelCount, .input .hasBattery] =
        .ok [.zero, .zero] := by
      simp [Expr.evaluateAll_cons_eq_ok_iff, hcount, hbattery]
    rw [Expr.evaluate_binary_of_children hoperands,
      Operator.apply_of_dividesByZero ⟨rfl, Binary64.isZero_zero⟩]
    rfl
  have herror : evaluateText bareJob.inputs "panelCount / hasBattery" =
      .error .divisionByZero :=
    evaluateText_eq_error_iff.mpr (.inr ⟨_, ofText_panelCount_div_hasBattery, hquotient⟩)
  exact ⟨herror, ((resolve_of_formula_or_stopped dividingRule bareJob).1 _ rfl).1 _ herror⟩

end Rule

end SolarTakeoff
