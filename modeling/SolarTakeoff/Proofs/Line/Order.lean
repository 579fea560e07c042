import SolarTakeoff.Line
import SolarTakeoff.Proofs.Binary64.Order
import SolarTakeoff.Proofs.StableSort
import Mathlib.Tactic

/-!
# Which rules give lines, and in which order

A rule takes part in a run or not, and its quantity makes a line or not; both
are said here without the run.  The lines of a run are then the lines of these
rules, and their order is settled by priority and place in the catalog alone.

Rules may be repeated, so the statement about order speaks of positions in the
catalog: every position that should give a line is met exactly once.
-/

namespace SolarTakeoff

namespace Rule

variable {rule : Rule} {job : Job} {selection : Selection}

/-- The rule is active, required unless optional rules are asked for, of an
allowed category, and not for a battery that the job lacks. -/
structure TakesPart (rule : Rule) (job : Job) (selection : Selection) : Prop where
  active : rule.isActive = true
  required : selection.includeOptional = false → rule.isRequired = true
  category : ∀ categories, selection.categories = some categories →
    rule.category ∈ categories
  battery : rule.productType = some "BATTERY" → job.hasBattery = true

/-- The rule takes part and comes to a finite quantity above zero. -/
structure Contributes (rule : Rule) (job : Job) (selection : Selection) : Prop where
  takesPart : rule.TakesPart job selection
  finite : (rule.resolve job).quantity.isFinite = true
  positive : Binary64.zero.lt (rule.resolve job).quantity = true

theorem allowsCategory_eq_true_iff {category : String} :
    selection.allowsCategory category = true ↔
      ∀ categories, selection.categories = some categories → category ∈ categories := by
  unfold Selection.allowsCategory
  cases selection.categories <;> simp

theorem applies_eq_true_iff :
    rule.applies job selection = true ↔ rule.TakesPart job selection := by
  have hfields : rule.applies job selection = true ↔
      rule.isActive = true ∧
        (selection.includeOptional = false → rule.isRequired = true) ∧
        selection.allowsCategory rule.category = true ∧
        (rule.isBatteryGated = true → job.hasBattery = true) := by
    unfold applies skipReason?
    cases rule.isActive <;> cases selection.includeOptional <;> cases rule.isRequired <;>
      cases selection.allowsCategory rule.category <;> cases rule.isBatteryGated <;>
      cases job.hasBattery <;> simp
  rw [hfields, allowsCategory_eq_true_iff]
  simp only [isBatteryGated, beq_iff_eq]
  exact ⟨fun ⟨ha, hr, hc, hb⟩ => ⟨ha, hr, hc, hb⟩, fun h => ⟨h.1, h.2, h.3, h.4⟩⟩

theorem value_line?_eq_some_iff {line : Line} :
    (rule.line? job).value = some line ↔
      (rule.resolve job).quantity.isFinite = true ∧
        Binary64.zero.lt (rule.resolve job).quantity = true ∧
        rule.lineOf (rule.resolve job) = line := by
  unfold line?
  dsimp only
  cases hfinite : (rule.resolve job).quantity.isFinite with
  | false => simp
  | true =>
      have hle := Binary64.le_eq_false_iff_of_isFinite hfinite Binary64.isFinite_zero
      cases hzero : (rule.resolve job).quantity.le .zero <;> simp_all

theorem isSome_value_line?_iff :
    (rule.line? job).value.isSome = true ↔
      (rule.resolve job).quantity.isFinite = true ∧
        Binary64.zero.lt (rule.resolve job).quantity = true := by
  simp [Option.isSome_iff_exists, value_line?_eq_some_iff]

end Rule

/-! ## Lines of a run -/

variable {job : Job} {rules : List Rule} {selection : Selection}

theorem value_calculate :
    (calculate job rules selection).value =
      (applicableRules job rules selection).filterMap fun rule => (rule.line? job).value := by
  simp [calculate, List.filterMap_map]

/-- Rules that are in order already give their lines in this order. -/
theorem value_calculate_of_ordered
    (h : rules.Pairwise fun first second => second.priority ≤ first.priority) :
    (calculate job rules selection).value =
      (rules.filter (·.applies job selection)).filterMap fun rule => (rule.line? job).value := by
  have hsorted : (rules.filter (·.applies job selection)).Pairwise fun first second =>
      decide (second.priority ≤ first.priority) = true := by
    simpa using h.filter (·.applies job selection)
  rw [value_calculate, applicableRules, List.mergeSort_of_pairwise hsorted]

theorem mem_applicableRules_iff {rule : Rule} :
    rule ∈ applicableRules job rules selection ↔
      rule ∈ rules ∧ rule.TakesPart job selection := by
  simp [applicableRules, Rule.applies_eq_true_iff]

theorem mem_calculate_iff {line : Line} :
    line ∈ (calculate job rules selection).value ↔
      ∃ rule ∈ rules, rule.TakesPart job selection ∧ (rule.line? job).value = some line := by
  simp [value_calculate, mem_applicableRules_iff, and_assoc]

theorem Rule.priority_trans (a b c : Rule) (hab : decide (b.priority ≤ a.priority) = true)
    (hbc : decide (c.priority ≤ b.priority) = true) :
    decide (c.priority ≤ a.priority) = true :=
  decide_eq_true (Int32.le_trans (of_decide_eq_true hbc) (of_decide_eq_true hab))

theorem Rule.priority_total (a b : Rule) :
    (decide (b.priority ≤ a.priority) || decide (a.priority ≤ b.priority)) = true := by
  simpa using Int32.le_total b.priority a.priority

/-- The order of lines: a higher priority first, and of equal priorities the
place that comes first in the catalog. -/
def Precedes (rules : List Rule) (first second : Fin rules.length) : Prop :=
  (rules.get second).priority.toInt < (rules.get first).priority.toInt ∨
    (rules.get first).priority.toInt = (rules.get second).priority.toInt ∧ first < second

/-- The positions of the rules that take part, in the order of their lines. -/
def runPositions (job : Job) (rules : List Rule) (selection : Selection) :
    List (Fin rules.length) :=
  ((List.finRange rules.length).filter
      fun position => (rules.get position).applies job selection).mergeSort
    fun first second => decide ((rules.get second).priority ≤ (rules.get first).priority)

theorem map_get_runPositions :
    (runPositions job rules selection).map rules.get = applicableRules job rules selection := by
  have hsort : (runPositions job rules selection).map rules.get =
      (((List.finRange rules.length).filter fun position =>
        (rules.get position).applies job selection).map rules.get).mergeSort
          fun a b => decide (b.priority ≤ a.priority) :=
    List.map_mergeSort fun _ _ _ _ => rfl
  have hfilter : ((List.finRange rules.length).filter fun position =>
        (rules.get position).applies job selection).map rules.get =
      rules.filter (·.applies job selection) := by
    conv_rhs => rw [← List.map_get_finRange rules, List.filter_map]
    rfl
  rw [hsort, hfilter, applicableRules]

theorem nodup_runPositions : (runPositions job rules selection).Nodup :=
  List.nodup_mergeSort.mpr ((List.nodup_finRange _).filter _)

theorem mem_runPositions_iff {position : Fin rules.length} :
    position ∈ runPositions job rules selection ↔
      (rules.get position).TakesPart job selection := by
  simp [runPositions, Rule.applies_eq_true_iff]

theorem pairwise_precedes_runPositions :
    (runPositions job rules selection).Pairwise (Precedes rules) := by
  have hincreasing : ((List.finRange rules.length).filter fun position =>
      (rules.get position).applies job selection).Pairwise (· < ·) :=
    (List.sortedLT_finRange rules.length).pairwise.filter _
  have hstable : (runPositions job rules selection).Pairwise fun first second =>
      decide ((rules.get second).priority ≤ (rules.get first).priority) = true ∧
        (decide ((rules.get first).priority ≤ (rules.get second).priority) = true →
          first < second) := by
    apply pairwise_mergeSort_stable _ _ hincreasing
    · intro a b c
      exact Rule.priority_trans (rules.get a) (rules.get b) (rules.get c)
    · intro a b
      exact Rule.priority_total (rules.get a) (rules.get b)
  refine hstable.imp ?_
  intro first second ⟨hle, hties⟩
  simp only [decide_eq_true_eq, Int32.le_iff_toInt_le] at hle hties
  rcases hle.lt_or_eq with hlt | heq
  · exact .inl hlt
  · exact .inr ⟨heq.symm, hties heq.ge⟩

theorem map_filter_isSome {α β : Type} (f : α → Option β) (l : List α) :
    (l.filter fun a => (f a).isSome).map f = (l.filterMap f).map some := by
  induction l with
  | nil => rfl
  | cons a l ih => cases h : f a <;> simp [h, ih]

/-- A run gives exactly one line for each position whose rule contributes, and
no other: the line that the rule gives for the job alone.  Lines come by
descending priority and with equal priority in catalog order. -/
theorem calculate_lines_of_positions
    (job : Job) (rules : List Rule) (selection : Selection) :
    ∃ positions : List (Fin rules.length),
      positions.Nodup ∧
      (∀ position, position ∈ positions ↔
        (rules.get position).Contributes job selection) ∧
      positions.Pairwise (Precedes rules) ∧
      (calculate job rules selection).value.map some =
        positions.map fun position => ((rules.get position).line? job).value := by
  refine ⟨(runPositions job rules selection).filter
    fun position => ((rules.get position).line? job).value.isSome, ?_, ?_, ?_, ?_⟩
  · exact nodup_runPositions.filter _
  · intro position
    rw [List.mem_filter, mem_runPositions_iff, Rule.isSome_value_line?_iff]
    exact ⟨fun ⟨htakes, hfinite, hpositive⟩ => ⟨htakes, hfinite, hpositive⟩,
      fun h => ⟨h.takesPart, h.finite, h.positive⟩⟩
  · exact pairwise_precedes_runPositions.filter _
  · rw [map_filter_isSome (fun position => ((rules.get position).line? job).value),
      value_calculate, ← map_get_runPositions, List.filterMap_map]
    rfl

end SolarTakeoff
