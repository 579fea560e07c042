import SolarTakeoff.Proofs.Binary64.Monotone
import SolarTakeoff.Proofs.Line.Bounds
import SolarTakeoff.Proofs.Quantity.Settled
import Mathlib.Tactic

/-!
# More of what is counted is never less material

A linear strategy with a factor that is not below zero keeps the order of the
amounts it counts, and so does every step after it.  Rounding changes its rule
where the raw value crosses zero; half up gives nothing above zero on the one
side of it, and rounding up nothing below zero on the other.

Bounds may be inverted, infinite or no numbers at all: a comparison with what is
not a number fails for both quantities alike.
-/

namespace SolarTakeoff

namespace Binary64

variable {x y : Binary64}

theorem roundHalfUp_zero_le : (roundHalfUp zero).le zero = true := by
  decide +kernel

theorem zero_le_ceil_zero : zero.le (ceil zero) = true := by
  decide +kernel

theorem keepsOrder_rounded (roundUp : Bool) : KeepsOrder (·.rounded roundUp) := by
  intro x y h
  change (x.rounded roundUp).le (y.rounded roundUp) = true
  unfold rounded
  by_cases hx : (roundUp && zero.lt x) = true
  · by_cases hy : (roundUp && zero.lt y) = true
    · rw [if_pos hx, if_pos hy]
      exact keepsOrder_ceil x y h
    · rw [Bool.and_eq_true] at hx
      obtain ⟨a, ha, hpos⟩ := zero_lt_iff.mp hx.2
      obtain ⟨a', b, ha', hb, hab⟩ := le_eq_true_iff.mp h
      obtain rfl : a = a' := Option.some.inj (ha.symm.trans ha')
      have hlt : zero.lt y = true := zero_lt_iff.mpr ⟨b, hb, by omega⟩
      exact absurd (by simp [hx.1, hlt]) hy
  · rw [if_neg hx]
    by_cases hy : (roundUp && zero.lt y) = true
    · rw [if_pos hy]
      rw [Bool.and_eq_true] at hy
      have hnot : zero.lt x = false := by simpa [hy.1] using hx
      have hlow : x.le zero = true := le_of_lt_eq_false rfl (isNaN_left_of_le h) hnot
      have hdown : x.roundHalfUp.le zero = true :=
        le_trans (keepsOrder_roundHalfUp x zero hlow) roundHalfUp_zero_le
      have hup : zero.le y.ceil = true :=
        le_trans zero_le_ceil_zero (keepsOrder_ceil zero y (zero_le_of_zero_lt hy.2))
      exact le_trans hdown hup
    · rw [if_neg hy]
      exact keepsOrder_roundHalfUp x y h

theorem keepsOrder_raised (minimum : Binary64) : KeepsOrder (·.raised minimum) := by
  intro x y h
  change (x.raised minimum).le (y.raised minimum) = true
  unfold raised
  by_cases hx : x.lt minimum = true
  · rw [if_pos hx]
    have hminimum : minimum.isNaN = false := isNaN_right_of_lt hx
    by_cases hy : y.lt minimum = true
    · rw [if_pos hy]
      exact le_refl_of_isNaN hminimum
    · rw [if_neg hy]
      exact le_of_lt_eq_false (isNaN_right_of_le h) hminimum (by simpa using hy)
  · have hy : ¬ y.lt minimum = true := fun hy => hx (lt_of_le_of_lt h hy)
    rw [if_neg hx, if_neg hy]
    exact h

theorem keepsOrder_cut (maximum : Option Binary64) : KeepsOrder (·.cut maximum) := by
  intro x y h
  change (x.cut maximum).le (y.cut maximum) = true
  unfold cut
  cases maximum with
  | none => exact h
  | some upper =>
      dsimp only
      by_cases hy : upper.lt y = true
      · rw [if_pos hy]
        have hupper : upper.isNaN = false := isNaN_left_of_lt hy
        by_cases hx : upper.lt x = true
        · rw [if_pos hx]
          exact le_refl_of_isNaN hupper
        · rw [if_neg hx]
          exact le_of_lt_eq_false hupper (isNaN_left_of_le h) (by simpa using hx)
      · have hx : ¬ upper.lt x = true := fun hx => hy (lt_of_lt_of_le hx h)
        rw [if_neg hx, if_neg hy]
        exact h

end Binary64

/-- The second job is the first one with more of what the strategy counts: more
panels, a larger system, or a larger battery where there is one. -/
inductive Strategy.Outgrows (multiplier : Binary64) : Strategy → Job → Job → Prop where
  | panels {job : Job} {count : UInt32} :
      job.panelCount ≤ count →
      Outgrows multiplier (.perPanel multiplier) job { job with panelCount := count }
  | system {job : Job} {size : Binary64} :
      job.systemSize.isFinite = true → size.isFinite = true →
      job.systemSize.le size = true →
      Outgrows multiplier (.perKilowatt multiplier) job { job with systemSize := size }
  | battery {job : Job} {capacity larger : Binary64} :
      job.hasBattery = true → job.batteryCapacity = some capacity →
      capacity.isFinite = true → larger.isFinite = true →
      capacity.le larger = true →
      Outgrows multiplier (.perBattery multiplier) job
        { job with batteryCapacity := some larger }

namespace Rule

variable {rule : Rule} {small large : Job} {multiplier : Binary64}

theorem keepsOrder_settled (rule : Rule) : Binary64.KeepsOrder rule.settled := by
  intro x y h
  have hrounded := Binary64.keepsOrder_rounded rule.roundUp x y h
  have hraised := Binary64.keepsOrder_raised rule.minimum _ _ hrounded
  exact Binary64.keepsOrder_cut rule.maximum _ _ hraised

theorem quantity_le_of_linear {amount more : Binary64}
    (hmultiplier : multiplier.isFinite = true) (hnonneg : Binary64.zero.le multiplier = true)
    (hbase : rule.base.isFinite = true) (hamount : amount.isFinite = true)
    (hmore : more.isFinite = true) (h : amount.le more = true)
    (hsmall : ∃ amountText,
      rule.derive small = .linear amountText amount multiplier rule.base)
    (hlarge : ∃ amountText,
      rule.derive large = .linear amountText more multiplier rule.base) :
    (rule.resolve small).quantity.le (rule.resolve large).quantity = true := by
  obtain ⟨smallText, hsmall⟩ := hsmall
  obtain ⟨largeText, hlarge⟩ := hlarge
  rw [quantity_resolve_of_raw hsmall, quantity_resolve_of_raw hlarge]
  apply keepsOrder_settled
  have hproduct := Binary64.mul_le_mul_of_zero_le hamount hmore hmultiplier hnonneg h
  exact Binary64.keepsOrder_add hbase _ _ hproduct

/-- A rule that counts panels, kilowatts or kilowatt-hours with a factor that is
not below zero never comes to less for a job that differs only by more of them. -/
theorem quantity_le_of_outgrows (hmultiplier : multiplier.isFinite = true)
    (hnonneg : Binary64.zero.le multiplier = true) (hbase : rule.base.isFinite = true)
    (h : rule.strategy.Outgrows multiplier small large) :
    (rule.resolve small).quantity.le (rule.resolve large).quantity = true := by
  generalize hstrategy : rule.strategy = strategy at h
  cases h with
  | @panels _ count hcount =>
      have hfinite : ∀ count : UInt32, (Binary64.ofNat count.toNat).isFinite = true := by
        intro count
        have hlt : count.toNat < 2 ^ 32 := count.toNat_lt
        exact Binary64.isFinite_ofNat (hlt.le.trans (by decide))
      have hle := Binary64.ofNat_le_ofNat (UInt32.le_iff_toNat_le.mp hcount)
      refine quantity_le_of_linear hmultiplier hnonneg hbase (hfinite _) (hfinite _) hle ?_ ?_
      · rw [derive, hstrategy]
        exact ⟨_, rfl⟩
      · rw [derive, hstrategy]
        exact ⟨_, rfl⟩
  | system hsize hlarger hle =>
      refine quantity_le_of_linear hmultiplier hnonneg hbase hsize hlarger hle ?_ ?_
      · rw [derive, hstrategy]
        exact ⟨_, rfl⟩
      · rw [derive, hstrategy]
        exact ⟨_, rfl⟩
  | @battery _ capacity larger hhas hcapacity hfinite hlarger hle =>
      refine quantity_le_of_linear hmultiplier hnonneg hbase hfinite hlarger hle ?_ ?_
      · rw [derive, hstrategy]
        simp only [Job.usableBattery?, hhas, hcapacity, if_true]
        exact ⟨_, rfl⟩
      · rw [derive, hstrategy]
        simp only [Job.usableBattery?, hhas, if_true]
        exact ⟨_, rfl⟩

/-- Half a piece per kilowatt-hour less seven, with a minimum that is no number. -/
def discountedRule : Rule :=
  { crossedRule with
    strategy := .perBattery .half
    base := .neg (.ofNat 7)
    roundUp := true
    minimum := .nan
    maximum := some (.ofNat 2) }

theorem quantity_discountedRule_le :
    discountedRule.strategy.Outgrows .half (bareJob.withBattery (.ofNat 3))
        (bareJob.withBattery (.ofNat 20)) ∧
      (discountedRule.resolve (bareJob.withBattery (.ofNat 3))).quantity.le
        (discountedRule.resolve (bareJob.withBattery (.ofNat 20))).quantity = true := by
  have hgrows : discountedRule.strategy.Outgrows .half (bareJob.withBattery (.ofNat 3))
      (bareJob.withBattery (.ofNat 20)) :=
    .battery rfl rfl (Binary64.isFinite_ofNat (by decide)) (Binary64.isFinite_ofNat (by decide))
      (Binary64.ofNat_le_ofNat (by decide))
  have hbase : discountedRule.base.isFinite = true := by decide +kernel
  exact ⟨hgrows, quantity_le_of_outgrows Binary64.isFinite_half (by decide +kernel) hbase hgrows⟩

end Rule

end SolarTakeoff
