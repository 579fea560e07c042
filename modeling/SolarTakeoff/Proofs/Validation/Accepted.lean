import SolarTakeoff.Validation.Checks
import SolarTakeoff.Proofs.Binary64.Order
import SolarTakeoff.Proofs.Sequences
import Mathlib.Tactic

/-!
# What validation accepts

The checks of a job and of a rule, one after the other, accept exactly what the
two structures here ask for.  Their fields are what later statements start
from, so that none of these has to look into a sequence of checks.  Of a tax
rate only its size is checked.
-/

namespace SolarTakeoff

/-- Finite and not below zero, as measures and bounds should be. -/
def Binary64.IsMeasure (x : Binary64) : Prop :=
  x.isFinite = true ∧ zero.le x = true

namespace Validation

variable {field value : String} {number : Binary64}

theorem present_eq_ok_iff : present field value = .ok () ↔ isBlankText value = false := by
  unfold present
  cases isBlankText value <;> simp

theorem finite_eq_ok_iff : finite field number = .ok () ↔ number.isFinite = true := by
  unfold finite
  cases number.isFinite <;> simp

theorem nonNegative_eq_ok_iff : nonNegative field number = .ok () ↔ number.IsMeasure := by
  unfold nonNegative Binary64.IsMeasure
  rw [check_bind_eq_ok_iff, finite_eq_ok_iff, refuse_eq_ok_iff]
  constructor
  · rintro ⟨hfinite, hnonneg⟩
    refine ⟨hfinite, ?_⟩
    cases hle : Binary64.zero.le number with
    | true => rfl
    | false =>
        rw [Binary64.le_eq_false_iff_of_isFinite Binary64.isFinite_zero hfinite] at hle
        exact (hnonneg hle).elim
  · rintro ⟨hfinite, hle⟩
    refine ⟨hfinite, ?_⟩
    intro hlt
    rw [← Binary64.le_eq_false_iff_of_isFinite Binary64.isFinite_zero hfinite] at hlt
    simp [hle] at hlt

end Validation

open Validation

namespace Job

/-- A job without a battery may have a capacity on record as long as it is zero. -/
structure Valid (job : Job) : Prop where
  systemSize : job.systemSize.IsMeasure
  capacity : ∀ capacity, job.batteryCapacity = some capacity → capacity.IsMeasure
  unused : ∀ capacity, job.batteryCapacity = some capacity → job.hasBattery = false →
    Binary64.zero.lt capacity = false
  stories : job.stories ≠ some 0

theorem validateBattery_eq_ok_iff {job : Job} :
    job.validateBattery = .ok () ↔
      ∀ capacity, job.batteryCapacity = some capacity →
        capacity.IsMeasure ∧ (job.hasBattery = false → Binary64.zero.lt capacity = false) := by
  unfold validateBattery
  cases job.batteryCapacity with
  | none => simp
  | some capacity =>
      simp only [check_bind_eq_ok_iff, nonNegative_eq_ok_iff, refuse_eq_ok_iff]
      cases job.hasBattery <;> simp

theorem validate_eq_ok_iff {job : Job} : job.validate = .ok () ↔ job.Valid := by
  unfold validate
  simp only [check_bind_eq_ok_iff, nonNegative_eq_ok_iff, refuse_eq_ok_iff,
    validateBattery_eq_ok_iff]
  constructor
  · rintro ⟨hsize, hbattery, hstories⟩
    exact ⟨hsize, fun capacity h => (hbattery capacity h).1,
      fun capacity h => (hbattery capacity h).2, hstories⟩
  · intro h
    exact ⟨h.systemSize, fun capacity hcapacity =>
      ⟨h.capacity capacity hcapacity, h.unused capacity hcapacity⟩, h.stories⟩

end Job

/-- A multiplier is finite, and a formula can be read. -/
def Strategy.Valid : Strategy → Prop
  | .fixed => True
  | .perPanel multiplier | .perKilowatt multiplier | .perBattery multiplier =>
    multiplier.isFinite = true
  | .formula expression => ∃ expr, Expr.ofText expression = .ok expr
  | .unrecognized _ => False

theorem Strategy.validate_eq_ok_iff {strategy : Strategy} :
    strategy.validate = .ok () ↔ strategy.Valid := by
  cases strategy with
  | fixed => simp [validate, Valid]
  | perPanel multiplier | perKilowatt multiplier | perBattery multiplier =>
      exact finite_eq_ok_iff
  | formula expression =>
      cases hparse : Expr.ofText expression <;> simp [validate, Valid, hparse]
  | unrecognized tag => simp [validate, Valid]

namespace Rule

structure Valid (rule : Rule) : Prop where
  id : isBlankText rule.id = false
  name : isBlankText rule.name = false
  category : isBlankText rule.category = false
  strategy : rule.strategy.Valid
  base : rule.base.isFinite = true
  minimum : rule.minimum.IsMeasure
  maximum : ∀ maximum, rule.maximum = some maximum → maximum.isFinite = true
  ordered : ∀ maximum, rule.maximum = some maximum → maximum.lt rule.minimum = false

theorem validateMaximum_eq_ok_iff {rule : Rule} :
    rule.validateMaximum = .ok () ↔
      ∀ maximum, rule.maximum = some maximum →
        maximum.isFinite = true ∧ maximum.lt rule.minimum = false := by
  unfold validateMaximum
  cases rule.maximum with
  | none => simp
  | some maximum =>
      simp only [check_bind_eq_ok_iff, finite_eq_ok_iff, refuse_eq_ok_iff]
      simp

theorem validate_eq_ok_iff {rule : Rule} : rule.validate = .ok () ↔ rule.Valid := by
  unfold validate
  simp only [check_bind_eq_ok_iff, present_eq_ok_iff, Strategy.validate_eq_ok_iff,
    finite_eq_ok_iff, nonNegative_eq_ok_iff, validateMaximum_eq_ok_iff]
  constructor
  · rintro ⟨hid, hname, hcategory, hstrategy, hbase, hminimum, hmaximum⟩
    exact ⟨hid, hname, hcategory, hstrategy, hbase, hminimum,
      fun maximum h => (hmaximum maximum h).1, fun maximum h => (hmaximum maximum h).2⟩
  · intro h
    exact ⟨h.id, h.name, h.category, h.strategy, h.base, h.minimum, fun maximum hmaximum =>
      ⟨h.maximum maximum hmaximum, h.ordered maximum hmaximum⟩⟩

end Rule

theorem TaxRate.validate_eq_ok_iff {rate : TaxRate} :
    rate.validate = .ok () ↔ rate.bps.toNat ≤ 10000 := by
  have hlimit : limit.bps < rate.bps ↔ 10000 < rate.bps.toNat := UInt32.lt_iff_toNat_lt
  unfold validate
  by_cases h : limit.bps < rate.bps
  · simp [h, hlimit.mp h]
  · simpa [h] using Nat.le_of_not_lt (mt hlimit.mpr h)

end SolarTakeoff
