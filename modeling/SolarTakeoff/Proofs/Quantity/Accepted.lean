import SolarTakeoff.Proofs.Formula.Accepted
import SolarTakeoff.Proofs.Quantity.Stops
import SolarTakeoff.Proofs.Validation.Accepted
import Mathlib.Tactic

/-!
# Accepted rules on accepted jobs

Validation looks at a rule and at a job by themselves, and both together see to
it that a quantity is a number, not below zero and within its bounds.  Finite
values may still multiply to an infinity, but no step makes that into something
that is not a number: an infinity only meets finite numbers on its way.  A rule
stops only for want of a battery, or where its formula divides by zero or leaves
the finite numbers.
-/

namespace SolarTakeoff

/-! ## The inputs of an accepted job -/

namespace Job.Valid

variable {job : Job}

theorem inputs (hjob : job.Valid) (input : Input) : (job.inputs input).IsMeasure := by
  cases input with
  | panelCount =>
      have hlt : job.panelCount.toNat < 2 ^ 32 := job.panelCount.toNat_lt
      have hle : job.panelCount.toNat ≤ Nat.pow 2 53 := hlt.le.trans (by decide)
      exact ⟨Binary64.isFinite_ofNat hle, Binary64.zero_le_ofNat _⟩
  | systemSize => exact hjob.systemSize
  | batteryCapacity =>
      change (job.batteryCapacity.getD .zero).IsMeasure
      cases hcapacity : job.batteryCapacity with
      | none => exact ⟨rfl, by decide⟩
      | some capacity => exact hjob.capacity capacity hcapacity
  | hasBattery =>
      change (if job.hasBattery then Binary64.ofNat 1 else .zero).IsMeasure
      split
      · exact ⟨Binary64.isFinite_ofNat (by decide), Binary64.zero_le_ofNat 1⟩
      · exact ⟨rfl, by decide⟩

theorem usableBattery (hjob : job.Valid) {capacity : Binary64}
    (h : job.usableBattery? = some capacity) : capacity.IsMeasure := by
  unfold usableBattery? at h
  split at h
  · exact hjob.capacity capacity h
  · cases h

/-- Formulas and rules per battery see the same capacity, a battery that is not
there counting as zero. -/
theorem batteryCapacity_eq (hjob : job.Valid) :
    (job.inputs .batteryCapacity).eq (job.usableBattery?.getD .zero) = true := by
  have hnumber : (job.inputs .batteryCapacity).isNaN = false :=
    Binary64.isNaN_of_isFinite (hjob.inputs .batteryCapacity).1
  change (job.batteryCapacity.getD .zero).isNaN = false at hnumber
  change (job.batteryCapacity.getD .zero).eq (job.usableBattery?.getD .zero) = true
  unfold usableBattery?
  cases hbattery : job.hasBattery with
  | true => exact Binary64.eq_self_of_isNaN hnumber
  | false =>
      cases hcapacity : job.batteryCapacity with
      | none => decide
      | some capacity =>
          exact Binary64.eq_zero_of_zero_le (hjob.capacity capacity hcapacity).2
            (hjob.unused capacity hcapacity hbattery)

end Job.Valid

namespace Rule

variable {rule : Rule} {job : Job}

/-- A rule per battery has no battery to use, or the formula of the rule divides
by zero or comes to a value that is not finite. -/
inductive Stops (rule : Rule) (job : Job) : Prop where
  | noBattery {multiplier : Binary64} :
      rule.strategy = .perBattery multiplier → job.usableBattery? = none → Stops rule job
  | formula {expression : String} {expr : Expr} {error : FormulaError} :
      rule.strategy = .formula expression → Expr.ofText expression = .ok expr →
      expr.evaluate job.inputs = .error error →
      error = .divisionByZero ∨ error = .notFinite → Stops rule job

theorem Stops.exists_derive (h : rule.Stops job) :
    ∃ details warning, rule.derive job = .stopped details warning := by
  cases h with
  | noBattery hstrategy hbattery => exact derive_of_perBattery_of_none hstrategy hbattery
  | formula hstrategy hparse herror _ =>
      rw [derive_of_formula job hstrategy]
      exact Derivation.ofFormula_of_error rule.id
        (evaluateText_eq_error_iff.mpr (.inr ⟨_, hparse, herror⟩))

theorem derive_linear_of_finite {amount multiplier base : Binary64}
    (h : ∃ amountText, rule.derive job = .linear amountText amount multiplier base)
    (hamount : amount.isFinite = true) (hmultiplier : multiplier.isFinite = true)
    (hbase : base.isFinite = true) :
    ∃ value details, rule.derive job = .raw value details ∧ value.isNaN = false := by
  obtain ⟨amountText, hderive⟩ := h
  have hproduct := Binary64.isNaN_mul_of_isFinite hamount hmultiplier
  exact ⟨_, _, hderive, Binary64.isNaN_add_of_isFinite hproduct hbase⟩

theorem stops_or_derive_of_formula {expression : String}
    (hstrategy : rule.strategy = .formula expression)
    (hvalid : ∃ expr, Expr.ofText expression = .ok expr) :
    rule.Stops job ∨
      ∃ value details, rule.derive job = .raw value details ∧ value.isNaN = false := by
  obtain ⟨expr, hparse⟩ := hvalid
  cases hresult : expr.evaluate job.inputs with
  | error error =>
      have hcause := (callsFit_of_ofText hparse).error_of_evaluate hresult
      exact .inl (.formula hstrategy hparse hresult hcause)
  | ok value =>
      obtain ⟨details, hderive⟩ := Derivation.ofFormula_of_ok rule.id
        (evaluateText_eq_ok_iff.mpr ⟨expr, hparse, hresult⟩)
      have hfinite := Expr.isFinite_of_evaluate_eq_ok hresult
      exact .inr ⟨value, details, (derive_of_formula job hstrategy).trans hderive,
        Binary64.isNaN_of_isFinite hfinite⟩

theorem Valid.stops_or_derive (hrule : rule.Valid) (hjob : job.Valid) :
    rule.Stops job ∨
      ∃ value details, rule.derive job = .raw value details ∧ value.isNaN = false := by
  have hvalid := hrule.strategy
  cases hstrategy : rule.strategy with
  | fixed =>
      obtain ⟨details, hderive⟩ := derive_of_fixed job hstrategy
      exact .inr ⟨_, details, hderive, Binary64.isNaN_of_isFinite hrule.base⟩
  | perPanel multiplier =>
      rw [hstrategy] at hvalid
      have hderive : ∃ amountText, rule.derive job =
          .linear amountText (job.inputs .panelCount) multiplier rule.base := by
        rw [derive, hstrategy]
        exact ⟨_, rfl⟩
      exact .inr (derive_linear_of_finite hderive (hjob.inputs .panelCount).1 hvalid hrule.base)
  | perKilowatt multiplier =>
      rw [hstrategy] at hvalid
      have hderive : ∃ amountText, rule.derive job =
          .linear amountText job.systemSize multiplier rule.base := by
        rw [derive, hstrategy]
        exact ⟨_, rfl⟩
      exact .inr (derive_linear_of_finite hderive hjob.systemSize.1 hvalid hrule.base)
  | perBattery multiplier =>
      rw [hstrategy] at hvalid
      cases hbattery : job.usableBattery? with
      | none => exact .inl (.noBattery hstrategy hbattery)
      | some capacity =>
          have hderive : ∃ amountText, rule.derive job =
              .linear amountText capacity multiplier rule.base := by
            rw [derive, hstrategy]
            simp only [hbattery]
            exact ⟨_, rfl⟩
          have hcapacity := hjob.usableBattery hbattery
          exact .inr (derive_linear_of_finite hderive hcapacity.1 hvalid hrule.base)
  | formula expression =>
      rw [hstrategy] at hvalid
      exact stops_or_derive_of_formula hstrategy hvalid
  | unrecognized tag =>
      rw [hstrategy] at hvalid
      exact hvalid.elim

theorem Valid.minimum_le_maximum (hrule : rule.Valid) {maximum : Binary64}
    (h : rule.maximum = some maximum) : rule.minimum.le maximum = true :=
  Binary64.le_of_lt_eq_false (Binary64.isNaN_of_isFinite (hrule.maximum maximum h))
    (Binary64.isNaN_of_isFinite hrule.minimum.1) (hrule.ordered maximum h)

theorem Valid.quantity_of_derive (hrule : rule.Valid) {value : Binary64} {details : String}
    (hderive : rule.derive job = .raw value details) (hvalue : value.isNaN = false) :
    rule.minimum.le (rule.resolve job).quantity = true ∧
      ∀ maximum, rule.maximum = some maximum →
        (rule.resolve job).quantity.le maximum = true := by
  have hminimum := Binary64.isNaN_of_isFinite hrule.minimum.1
  rw [quantity_resolve_of_raw hderive]
  constructor
  · exact minimum_le_settled hvalue hminimum fun maximum => hrule.minimum_le_maximum
  · intro maximum hmaximum
    have hnumber := Binary64.isNaN_of_isFinite (hrule.maximum maximum hmaximum)
    exact settled_le_maximum hvalue hminimum hmaximum hnumber

/-- The quantity of an accepted rule for an accepted job is a number that is not
below zero, and it is within its bounds unless the rule stops.  The inputs of
the job are finite and not below zero, and formulas see the battery that rules
per battery see. -/
theorem quantity_of_validate {rule : Rule} {job : Job}
    (hrule : rule.validate = .ok ()) (hjob : job.validate = .ok ()) :
    ((rule.resolve job).quantity.isNaN = false ∧
        Binary64.zero.le (rule.resolve job).quantity = true) ∧
      (rule.Stops job → (rule.resolve job).quantity = .zero) ∧
      (¬ rule.Stops job →
        rule.minimum.le (rule.resolve job).quantity = true ∧
          ∀ maximum, rule.maximum = some maximum →
            (rule.resolve job).quantity.le maximum = true) ∧
      (∀ input, (job.inputs input).isFinite = true ∧
        Binary64.zero.le (job.inputs input) = true) ∧
      (job.inputs .batteryCapacity).eq (job.usableBattery?.getD .zero) = true := by
  rw [validate_eq_ok_iff] at hrule
  rw [Job.validate_eq_ok_iff] at hjob
  have hstops : rule.Stops job → (rule.resolve job).quantity = .zero := by
    intro h
    obtain ⟨details, warning, hderive⟩ := h.exists_derive
    exact quantity_resolve_of_stopped hderive
  have hbounds : ¬ rule.Stops job →
      rule.minimum.le (rule.resolve job).quantity = true ∧
        ∀ maximum, rule.maximum = some maximum →
          (rule.resolve job).quantity.le maximum = true := by
    intro h
    obtain ⟨value, details, hderive, hvalue⟩ := (hrule.stops_or_derive hjob).resolve_left h
    exact hrule.quantity_of_derive hderive hvalue
  have hnonneg : Binary64.zero.le (rule.resolve job).quantity = true := by
    by_cases h : rule.Stops job
    · rw [hstops h]
      decide
    · exact Binary64.le_trans hrule.minimum.2 (hbounds h).1
  exact ⟨⟨Binary64.isNaN_right_of_le hnonneg, hnonneg⟩, hstops, hbounds, hjob.inputs,
    hjob.batteryCapacity_eq⟩

/-- The quantity of this rule is out of range for a job of many panels. -/
def overflowingRule : Rule :=
  { crossedRule with
    strategy := .perPanel (.ofNat (Nat.pow 10 150 * Nat.pow 10 150))
    base := .neg (.ofNat 7)
    maximum := none }

/-- A job without a battery that has a negative zero on record for it. -/
def crowdedJob : Job :=
  { bareJob with panelCount := 4294967295, batteryCapacity := some (.neg .zero) }

theorem valid_overflowingRule : overflowingRule.Valid where
  id := by decide
  name := by decide
  category := by decide
  strategy := by
    change (Binary64.ofNat (Nat.pow 10 150 * Nat.pow 10 150)).isFinite = true
    decide +kernel
  base := by decide +kernel
  minimum := by
    constructor <;> decide +kernel
  maximum := by simp [overflowingRule]
  ordered := by simp [overflowingRule]

theorem valid_crowdedJob : crowdedJob.Valid where
  systemSize := ⟨rfl, by decide⟩
  capacity := by
    rintro capacity ⟨⟩
    exact ⟨rfl, by decide⟩
  unused := by
    rintro capacity ⟨⟩ -
    decide
  stories := by decide

theorem quantity_overflowingRule_crowdedJob :
    overflowingRule.validate = .ok () ∧ crowdedJob.validate = .ok () ∧
      (overflowingRule.resolve crowdedJob).quantity.isNaN = false ∧
      overflowingRule.minimum.le (overflowingRule.resolve crowdedJob).quantity = true ∧
      (crowdedJob.inputs .batteryCapacity).eq .zero = true := by
  have hrule := validate_eq_ok_iff.mpr valid_overflowingRule
  have hjob := Job.validate_eq_ok_iff.mpr valid_crowdedJob
  have hgoes : ¬ overflowingRule.Stops crowdedJob := by
    intro h
    cases h with
    | noBattery hstrategy _ | formula hstrategy _ _ _ => simp [overflowingRule] at hstrategy
  obtain ⟨⟨hnumber, -⟩, -, hbounds, -, hbattery⟩ := quantity_of_validate hrule hjob
  exact ⟨hrule, hjob, hnumber, (hbounds hgoes).1, hbattery⟩

end Rule

end SolarTakeoff
