import SolarTakeoff.Proofs.Binary64.Monotone
import SolarTakeoff.Proofs.Quantity.Accepted
import Mathlib.Tactic

/-!
# Raw values that are not finite

A formula whose value is not finite stops its rule.  The strategies that count
go on with what their arithmetic gives, and only a quantity that is still not
finite behind its bounds gives no line.  What is no number passes all bounds; an
infinity gives way to a bound on its side, and so a rule that overflows may come
to a line of as much as was meant to bound it.
-/

namespace SolarTakeoff

namespace Binary64

variable {x : Binary64}

theorem infinite_add_half (negative : Bool) :
    (infinite negative + half : Binary64) = infinite negative := by
  obtain ⟨sign, magnitude, hhalf⟩ := isFinite_eq_true_iff.mp isFinite_half
  rw [hhalf]
  rfl

theorem rounded_infinite (negative roundUp : Bool) :
    (infinite negative).rounded roundUp = infinite negative := by
  have hdown : (infinite negative).roundHalfUp = infinite negative := by
    rw [roundHalfUp, infinite_add_half]
    rfl
  unfold rounded
  split
  · rfl
  · exact hdown

@[simp] theorem infinite_false_lt (x : Binary64) : (infinite false).lt x = false := by
  rw [Bool.eq_false_iff]
  intro h
  obtain ⟨a, b, ha, hb, hab⟩ := lt_eq_true_iff.mp h
  obtain rfl : (unitsLimit : ℤ) = a := Option.some.inj ha
  exact absurd (position?_bounds hb).2 (not_le.mpr hab)

@[simp] theorem lt_infinite_true (x : Binary64) : x.lt (infinite true) = false := by
  rw [Bool.eq_false_iff]
  intro h
  obtain ⟨a, b, ha, hb, hab⟩ := lt_eq_true_iff.mp h
  obtain rfl : -(unitsLimit : ℤ) = b := Option.some.inj hb
  exact absurd (position?_bounds ha).1 (not_le.mpr hab)

@[simp] theorem lt_nan (x : Binary64) : x.lt nan = false := by
  unfold lt
  cases x.position? <;> rfl

/-- Finite numbers lie strictly between the infinities. -/
theorem exists_position_strict (h : x.isFinite = true) :
    ∃ a, x.position? = some a ∧ -(unitsLimit : ℤ) < a ∧ a < unitsLimit := by
  obtain ⟨negative, magnitude, rfl⟩ := isFinite_eq_true_iff.mp h
  have hbounded := magnitude.bounded
  refine ⟨_, rfl, ?_⟩
  split <;> constructor <;> omega

theorem lt_infinite_false_of_isFinite (h : x.isFinite = true) :
    x.lt (infinite false) = true := by
  obtain ⟨a, ha, -, hlt⟩ := exists_position_strict h
  exact lt_eq_true_iff.mpr ⟨a, _, ha, rfl, hlt⟩

theorem infinite_true_lt_of_isFinite (h : x.isFinite = true) :
    (infinite true).lt x = true := by
  obtain ⟨a, ha, hlt, -⟩ := exists_position_strict h
  exact lt_eq_true_iff.mpr ⟨_, a, rfl, ha, hlt⟩

theorem cut_cases (x : Binary64) (maximum : Option Binary64) :
    (x.cut maximum = x ∧ ∀ bound, maximum = some bound → bound.lt x = false) ∨
      ∃ bound, maximum = some bound ∧ bound.lt x = true ∧ x.cut maximum = bound := by
  cases maximum with
  | none => exact .inl ⟨rfl, by simp⟩
  | some bound => cases hlt : bound.lt x <;> simp [cut, hlt]

end Binary64

namespace Rule

variable {rule : Rule} {job : Job} {value quantity : Binary64}

/-- What the arithmetic of a strategy that counts gives, before rounding. -/
inductive Reckons (rule : Rule) (job : Job) : Binary64 → Prop where
  | fixed : rule.strategy = .fixed → Reckons rule job rule.base
  | panels {multiplier : Binary64} :
      rule.strategy = .perPanel multiplier →
      Reckons rule job (.ofNat job.panelCount.toNat * multiplier + rule.base)
  | system {multiplier : Binary64} :
      rule.strategy = .perKilowatt multiplier →
      Reckons rule job (job.systemSize * multiplier + rule.base)
  | battery {multiplier capacity : Binary64} :
      rule.strategy = .perBattery multiplier → job.usableBattery? = some capacity →
      Reckons rule job (capacity * multiplier + rule.base)

theorem Reckons.derive (h : rule.Reckons job value) :
    ∃ details, rule.derive job = .raw value details := by
  cases h with
  | fixed hstrategy | panels hstrategy | system hstrategy =>
      rw [Rule.derive, hstrategy]
      exact ⟨_, rfl⟩
  | battery hstrategy hcapacity =>
      rw [Rule.derive, hstrategy]
      simp only [hcapacity]
      exact ⟨_, rfl⟩

/-- The bound that stands in for a value that is not finite: the maximum for what
lies above all numbers, and the minimum, unless the maximum is below it, for
what lies below.  Nothing stands in for what is no number. -/
inductive StandsIn (rule : Rule) : Binary64 → Binary64 → Prop where
  | maximum {bound : Binary64} : rule.maximum = some bound →
      StandsIn rule (.infinite false) bound
  | minimum : (∀ bound, rule.maximum = some bound → bound.lt rule.minimum = false) →
      StandsIn rule (.infinite true) rule.minimum
  | crossed {bound : Binary64} : rule.maximum = some bound → bound.lt rule.minimum = true →
      StandsIn rule (.infinite true) bound

/-! ## Settling -/

theorem settled_nan (rule : Rule) : rule.settled .nan = .nan := by
  have hrounded : Binary64.nan.rounded rule.roundUp = .nan := by
    simp only [Binary64.rounded, Binary64.lt_nan, Bool.and_false, Bool.false_eq_true, if_false]
    rfl
  have hraised : Binary64.nan.raised rule.minimum = .nan := rfl
  unfold settled
  rw [hrounded, hraised]
  cases rule.maximum <;> simp [Binary64.cut]

theorem settled_infinite_false (rule : Rule) :
    rule.settled (.infinite false) = (Binary64.infinite false).cut rule.maximum := by
  simp [settled, Binary64.rounded_infinite, Binary64.raised]

theorem settled_infinite_true (rule : Rule) :
    rule.settled (.infinite true) =
      ((Binary64.infinite true).raised rule.minimum).cut rule.maximum := by
  simp [settled, Binary64.rounded_infinite]

/-- Nothing else than a bound makes a finite quantity of what is not finite. -/
theorem standsIn_settled (hvalue : value.isFinite = false)
    (hfinite : (rule.settled value).isFinite = true) :
    rule.StandsIn value (rule.settled value) := by
  cases value with
  | nan =>
      rw [settled_nan] at hfinite
      cases hfinite
  | finite negative magnitude => cases hvalue
  | infinite negative =>
      cases negative with
      | false =>
          rw [settled_infinite_false] at hfinite ⊢
          rcases Binary64.cut_cases (.infinite false) rule.maximum with
            ⟨hkept, -⟩ | ⟨bound, hmaximum, -, hcut⟩
          · rw [hkept] at hfinite
            cases hfinite
          · rw [hcut]
            exact .maximum hmaximum
      | true =>
          rw [settled_infinite_true] at hfinite ⊢
          by_cases hraise : (Binary64.infinite true).lt rule.minimum = true
          · rw [Binary64.raised, if_pos hraise] at hfinite ⊢
            rcases Binary64.cut_cases rule.minimum rule.maximum with
              ⟨hkept, hmaximum⟩ | ⟨bound, hmaximum, hbelow, hcut⟩
            · rw [hkept]
              exact .minimum hmaximum
            · rw [hcut]
              exact .crossed hmaximum hbelow
          · rw [Binary64.raised, if_neg hraise] at hfinite
            rcases Binary64.cut_cases (.infinite true) rule.maximum with
              ⟨hkept, -⟩ | ⟨bound, -, hbelow, -⟩
            · rw [hkept] at hfinite
              cases hfinite
            · simp at hbelow

theorem StandsIn.settled_eq (h : rule.StandsIn value quantity)
    (hfinite : quantity.isFinite = true) : rule.settled value = quantity := by
  cases h with
  | maximum hmaximum =>
      have hlt := Binary64.lt_infinite_false_of_isFinite hfinite
      simp [settled_infinite_false, hmaximum, Binary64.cut, hlt]
  | minimum hmaximum =>
      have hlt := Binary64.infinite_true_lt_of_isFinite hfinite
      simp only [settled_infinite_true, Binary64.raised, hlt, if_true]
      cases hbound : rule.maximum with
      | none => rfl
      | some bound => simp [Binary64.cut, hmaximum bound hbound]
  | @crossed bound hmaximum hbelow =>
      have hlt : (Binary64.infinite true).lt rule.minimum = true :=
        Binary64.lt_of_le_of_lt
          (Binary64.infinite_true_le (Binary64.isNaN_of_isFinite hfinite)) hbelow
      simp [settled_infinite_true, Binary64.raised, hlt, hmaximum, Binary64.cut, hbelow]

/-- A value that is not finite makes a line exactly where a bound stands in for it
that is finite and above zero, and the line is of that quantity.  A formula that
leaves the finite numbers makes none, whatever the bounds are. -/
theorem line?_of_not_finite (rule : Rule) (job : Job) :
    (∀ value, rule.Reckons job value → value.isFinite = false → ∀ quantity,
      (∃ line, (rule.line? job).value = some line ∧ line.quantity = quantity) ↔
        rule.StandsIn value quantity ∧ quantity.isFinite = true ∧
          Binary64.zero.lt quantity = true) ∧
    ∀ expression, rule.strategy = .formula expression →
      evaluateText job.inputs expression = .error .notFinite → rule.ComesToNothing job := by
  constructor
  · intro value hreckons hvalue quantity
    obtain ⟨details, hderive⟩ := hreckons.derive
    have hsettled := quantity_resolve_of_raw hderive
    constructor
    · rintro ⟨line, hline, rfl⟩
      obtain ⟨hfinite, hpositive, rfl⟩ := value_line?_eq_some_iff.mp hline
      change rule.StandsIn value (rule.resolve job).quantity ∧ _
      refine ⟨?_, hfinite, hpositive⟩
      rw [hsettled] at hfinite ⊢
      exact standsIn_settled hvalue hfinite
    · rintro ⟨hstands, hfinite, hpositive⟩
      rw [hstands.settled_eq hfinite] at hsettled
      refine ⟨_, value_line?_eq_some_iff.mpr ⟨?_, ?_, rfl⟩, hsettled⟩
      · rw [hsettled]
        exact hfinite
      · rw [hsettled]
        exact hpositive
  · intro expression hstrategy herror
    obtain ⟨details, warning, hstopped⟩ := Derivation.ofFormula_of_error rule.id herror
    exact comesToNothing_of_stopped ((derive_of_formula job hstrategy).trans hstopped)

/-- A job of as many panels as can be counted. -/
def widestJob : Job :=
  { bareJob with panelCount := 4294967295 }

/-- A rule with a maximum that overflows for a job of many panels. -/
def cappedRule : Rule :=
  { overflowingRule with maximum := some (.ofNat 12) }

theorem reckons_cappedRule : cappedRule.Reckons widestJob (.infinite false) := by
  have hvalue : Binary64.ofNat widestJob.panelCount.toNat *
      .ofNat (Nat.pow 10 150 * Nat.pow 10 150) + cappedRule.base = .infinite false := by
    decide +kernel
  have hreckons : cappedRule.Reckons widestJob _ := .panels rfl
  rwa [hvalue] at hreckons

/-- A job of a system without any limit to its size. -/
def boundlessJob : Job :=
  { bareJob with systemSize := .infinite false }

def measuringRule : Rule :=
  { crossedRule with strategy := .formula "systemSize" }

theorem evaluateText_systemSize_boundlessJob :
    evaluateText boundlessJob.inputs "systemSize" = .error .notFinite := by
  have hsize : Derives .unary [.word "systemSize"] (.input .systemSize) :=
    .primary (.input .systemSize)
  have hparse := Formula.ofTokens_eq_ok_iff_derives.mpr (.term (.unary hsize))
  have htext : Expr.ofText "systemSize" = .ok (.input .systemSize) :=
    Expr.ofText_eq_ok_iff.mpr ⟨by decide, by decide, _, by decide +kernel, hparse⟩
  have hvalue : (Expr.input .systemSize).evaluate boundlessJob.inputs = .error .notFinite := by
    rw [Expr.evaluate]
    rfl
  exact evaluateText_eq_error_iff.mpr (.inr ⟨_, htext, hvalue⟩)

theorem line?_cappedRule_measuringRule :
    (cappedRule.Reckons widestJob (.infinite false) ∧
        ∃ line, (cappedRule.line? widestJob).value = some line ∧ line.quantity = .ofNat 12) ∧
      evaluateText boundlessJob.inputs "systemSize" = .error .notFinite ∧
        measuringRule.ComesToNothing boundlessJob := by
  have hcapped := (line?_of_not_finite cappedRule widestJob).1 _ reckons_cappedRule rfl (.ofNat 12)
  have hline := hcapped.mpr ⟨.maximum rfl, by decide +kernel, by decide +kernel⟩
  have hstops := (line?_of_not_finite measuringRule boundlessJob).2 _ rfl
  exact ⟨⟨reckons_cappedRule, hline⟩, evaluateText_systemSize_boundlessJob,
    hstops evaluateText_systemSize_boundlessJob⟩

/-- A rule with a minimum that takes off more pieces than any number for a job of
many panels. -/
def deductingRule : Rule :=
  { overflowingRule with strategy := .perPanel (.neg (.ofNat (Nat.pow 10 150 * Nat.pow 10 150))) }

theorem exists_line_deductingRule :
    deductingRule.validate = .ok () ∧ widestJob.validate = .ok () ∧
      deductingRule.Reckons widestJob (.infinite true) ∧
        ∃ line, (deductingRule.line? widestJob).value = some line ∧
          line.quantity = deductingRule.minimum := by
  have hvalue : Binary64.ofNat widestJob.panelCount.toNat *
      .neg (.ofNat (Nat.pow 10 150 * Nat.pow 10 150)) + deductingRule.base = .infinite true := by
    decide +kernel
  have hreckons : deductingRule.Reckons widestJob _ := .panels rfl
  rw [hvalue] at hreckons
  have hquantity : (deductingRule.lineOf (deductingRule.resolve widestJob)).quantity =
      deductingRule.minimum := by
    decide +kernel
  have hline : (deductingRule.line? widestJob).value =
      some (deductingRule.lineOf (deductingRule.resolve widestJob)) :=
    value_line?_eq_some_iff.mpr ⟨by decide +kernel, by decide +kernel, rfl⟩
  have hvalid : deductingRule.validate = .ok () ∧ widestJob.validate = .ok () := by
    decide +kernel
  exact ⟨hvalid.1, hvalid.2, hreckons, ⟨_, hline, hquantity⟩⟩

end Rule

end SolarTakeoff
