import SolarTakeoff.Proofs.Line.Account
import SolarTakeoff.Proofs.Quantity.Stops
import Mathlib.Tactic

/-!
# Warnings of broken rules

A rule is broken for a job if its formula has no value there or its tag names no
strategy.  Resolving a broken rule tells in one warning what is wrong with it, and
resolving any other rule warns of nothing.

One kind of broken rule is passed over.  A formula of nothing but blanks has no
value either, but it counts as missing before it is read, and nothing is said of
it beside the details of the quantity.
-/

namespace SolarTakeoff

namespace Rule

variable {rule : Rule} {job : Job} {event : Event} {expression : String}

/-- What is wrong with a rule for a job, as the warning that tells of it. -/
inductive Breaks (rule : Rule) (job : Job) : Event → Prop where
  | formula {expression : String} {error : FormulaError}
    (hstrategy : rule.strategy = .formula expression)
    (herror : evaluateText job.inputs expression = .error error) :
    Breaks rule job (.formulaFailed rule.id expression error)
  | unrecognized {tag : String} (hstrategy : rule.strategy = .unrecognized tag) :
    Breaks rule job (.strategyUnknown rule.id tag)

def IsBroken (rule : Rule) (job : Job) : Prop :=
  ∃ event, rule.Breaks job event

/-- The rule is to be derived from a formula that is blank. -/
def LacksFormula (rule : Rule) : Prop :=
  ∃ expression, rule.strategy = .formula expression ∧ isBlankText expression = true

def warnings (rule : Rule) (job : Job) : List Event :=
  (rule.resolve job).warning.toList.filter (·.level = .warn)

/-- One warning if the rule is broken for the job, and none otherwise. -/
structure WarnsOnceIfBroken (rule : Rule) (job : Job) : Prop where
  once : rule.IsBroken job → (rule.warnings job).length = 1
  silent : ¬ rule.IsBroken job → rule.warnings job = []

end Rule

/-! ## Warnings of a derivation -/

namespace Derivation

variable {inputs : Inputs} {expression : String} {error : FormulaError} {value : Binary64}

def warning? : Derivation → Option Event
  | .raw .. => none
  | .stopped _ warning => warning

theorem warning?_ofFormula_of_blank (ruleId : String) (h : isBlankText expression = true) :
    (ofFormula ruleId expression inputs).warning? = none := by
  rw [ofFormula, if_pos h]
  rfl

theorem warning?_ofFormula_of_ok (ruleId : String)
    (h : evaluateText inputs expression = .ok value) :
    (ofFormula ruleId expression inputs).warning? = none := by
  obtain ⟨details, hraw⟩ := ofFormula_of_ok ruleId h
  rw [hraw]
  rfl

theorem warning?_ofFormula_of_error (ruleId : String) (hblank : isBlankText expression = false)
    (h : evaluateText inputs expression = .error error) :
    (ofFormula ruleId expression inputs).warning? =
      some (.formulaFailed ruleId expression error) := by
  rw [ofFormula, if_neg (by simp [hblank])]
  rcases evaluateText_eq_error_iff.mp h with hparse | ⟨expr, hparse, hvalue⟩
  · rw [hparse]
    rfl
  · rw [hparse]
    simp only [bind, Except.bind, hvalue]
    rfl

end Derivation

namespace Rule

variable {rule : Rule} {job : Job} {event : Event} {expression : String}

theorem warning_resolve : (rule.resolve job).warning = (rule.derive job).warning? := by
  unfold resolve
  cases rule.derive job with
  | raw value details => exact warning_round_raise_cut _ _ _ _
  | stopped details warning => rfl

theorem breaks_iff_of_formula (h : rule.strategy = .formula expression) :
    rule.Breaks job event ↔ ∃ error, evaluateText job.inputs expression = .error error ∧
      .formulaFailed rule.id expression error = event := by
  constructor
  · rintro (⟨hstrategy, herror⟩ | hstrategy)
    · obtain rfl := Strategy.formula.inj (h.symm.trans hstrategy)
      exact ⟨_, herror, rfl⟩
    · cases h.symm.trans hstrategy
  · rintro ⟨error, herror, rfl⟩
    exact .formula h herror

theorem warning_resolve_of_formula (h : rule.strategy = .formula expression) :
    (rule.resolve job).warning = some event ↔
      rule.Breaks job event ∧ isBlankText expression = false := by
  rw [warning_resolve, derive_of_formula job h, breaks_iff_of_formula h]
  cases hblank : isBlankText expression with
  | true => simp [Derivation.warning?_ofFormula_of_blank rule.id hblank]
  | false =>
      cases hresult : evaluateText job.inputs expression with
      | ok value => simp [Derivation.warning?_ofFormula_of_ok rule.id hresult]
      | error error => simp [Derivation.warning?_ofFormula_of_error rule.id hblank hresult]

theorem lacksFormula_iff_of_formula (h : rule.strategy = .formula expression) :
    rule.LacksFormula ↔ isBlankText expression = true := by
  simp [LacksFormula, h]

theorem warning_resolve_of_unrecognized {tag : String} (h : rule.strategy = .unrecognized tag) :
    (rule.resolve job).warning = some (.strategyUnknown rule.id tag) := by
  rw [warning_resolve, derive, h]
  rfl

theorem breaks_iff_of_unrecognized {tag : String} (h : rule.strategy = .unrecognized tag) :
    rule.Breaks job event ↔ .strategyUnknown rule.id tag = event := by
  constructor
  · rintro (⟨hstrategy, -⟩ | hstrategy)
    · cases h.symm.trans hstrategy
    · obtain rfl := Strategy.unrecognized.inj (h.symm.trans hstrategy)
      rfl
  · rintro rfl
    exact .unrecognized h

theorem warning_resolve_of_measured (hformula : ∀ expression, rule.strategy ≠ .formula expression)
    (htag : ∀ tag, rule.strategy ≠ .unrecognized tag) : (rule.resolve job).warning = none := by
  rw [warning_resolve]
  unfold derive
  cases hstrategy : rule.strategy with
  | fixed | perPanel multiplier | perKilowatt multiplier => rfl
  | perBattery multiplier => cases job.usableBattery? <;> rfl
  | formula expression => exact (hformula expression hstrategy).elim
  | unrecognized tag => exact (htag tag hstrategy).elim

theorem warning_resolve_eq_some_iff :
    (rule.resolve job).warning = some event ↔ rule.Breaks job event ∧ ¬ rule.LacksFormula := by
  by_cases hformula : ∃ expression, rule.strategy = .formula expression
  · obtain ⟨expression, hstrategy⟩ := hformula
    rw [warning_resolve_of_formula hstrategy, lacksFormula_iff_of_formula hstrategy,
      Bool.not_eq_true]
  have hlacks : ¬ rule.LacksFormula := fun ⟨expression, hstrategy, _⟩ =>
    hformula ⟨expression, hstrategy⟩
  by_cases htag : ∃ tag, rule.strategy = .unrecognized tag
  · obtain ⟨tag, hstrategy⟩ := htag
    simp [warning_resolve_of_unrecognized hstrategy, breaks_iff_of_unrecognized hstrategy, hlacks]
  · have hsound : ¬ rule.Breaks job event := by
      rintro (⟨hstrategy, -⟩ | hstrategy)
      · exact hformula ⟨_, hstrategy⟩
      · exact htag ⟨_, hstrategy⟩
    simp [warning_resolve_of_measured (not_exists.mp hformula) (not_exists.mp htag), hsound]

theorem warnings_eq (rule : Rule) (job : Job) :
    rule.warnings job = (rule.resolve job).warning.toList := by
  apply List.filter_eq_self.mpr
  intro event hevent
  exact decide_eq_true (level_of_warning event (Option.mem_toList.mp hevent))

theorem isBroken_of_lacksFormula (job : Job) (h : rule.LacksFormula) : rule.IsBroken job := by
  obtain ⟨expression, hstrategy, hblank⟩ := h
  exact ⟨_, .formula hstrategy (evaluateText_of_isBlankText hblank)⟩

theorem warnings_eq_nil (h : ∀ event, rule.Breaks job event → rule.LacksFormula) :
    rule.warnings job = [] := by
  have hnone : (rule.resolve job).warning = none := by
    rw [Option.eq_none_iff_forall_ne_some]
    intro event hevent
    obtain ⟨hbreaks, hfilled⟩ := warning_resolve_eq_some_iff.mp hevent
    exact hfilled (h event hbreaks)
  rw [warnings_eq, hnone]
  rfl

theorem warnings_of_lacksFormula (job : Job) (h : rule.LacksFormula) : rule.warnings job = [] :=
  warnings_eq_nil fun _ _ => h

theorem not_warnsOnceIfBroken_of_lacksFormula (job : Job) (h : rule.LacksFormula) :
    ¬ rule.WarnsOnceIfBroken job := by
  intro hwarns
  have hone := hwarns.once (isBroken_of_lacksFormula job h)
  rw [warnings_of_lacksFormula job h] at hone
  cases hone

/-- Resolving warns of what is wrong with a rule for a job, of this once and of nothing
else, unless what is wrong is that its formula is blank.  Rules with a blank formula
are the only ones that are broken and not warned of. -/
theorem warnsOnceIfBroken_iff (rule : Rule) (job : Job) :
    (∀ event, (rule.resolve job).warning = some event ↔
      rule.Breaks job event ∧ ¬ rule.LacksFormula) ∧
    (rule.WarnsOnceIfBroken job ↔ ¬ rule.LacksFormula) := by
  refine ⟨fun event => warning_resolve_eq_some_iff, ?_, ?_⟩
  · exact fun hwarns hlacks => not_warnsOnceIfBroken_of_lacksFormula job hlacks hwarns
  · intro hfilled
    constructor
    · rintro ⟨event, hbreaks⟩
      rw [warnings_eq, warning_resolve_eq_some_iff.mpr ⟨hbreaks, hfilled⟩]
      rfl
    · intro hsound
      exact warnings_eq_nil fun event hbreaks => (hsound ⟨event, hbreaks⟩).elim

/-- A rule with a minimum and without the formula it should be derived from. -/
def formulalessRule : Rule :=
  { crossedRule with strategy := .formula "" }

theorem not_warnsOnceIfBroken_formulalessRule :
    formulalessRule.IsBroken bareJob ∧ formulalessRule.warnings bareJob = [] ∧
      ¬ formulalessRule.WarnsOnceIfBroken bareJob := by
  have hlacks : formulalessRule.LacksFormula := ⟨"", rfl, rfl⟩
  exact ⟨isBroken_of_lacksFormula bareJob hlacks, warnings_of_lacksFormula bareJob hlacks,
    not_warnsOnceIfBroken_of_lacksFormula bareJob hlacks⟩

end Rule

end SolarTakeoff
