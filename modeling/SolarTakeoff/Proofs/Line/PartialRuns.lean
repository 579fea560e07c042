import SolarTakeoff.Proofs.Line.Order
import Mathlib.Tactic

/-!
# Runs over part of a catalog

Rules know nothing of each other, and the order of a run is kept under leaving
rules out.  So a run over part of a catalog gives part of the lines in the same
order, one rule more gives at most its own line more, and a narrower selection
does to the lines what it does to the rules.
-/

namespace SolarTakeoff

variable {job : Job} {rules : List Rule} {selection : Selection}

theorem Rule.contributes_iff {rule : Rule} :
    rule.Contributes job selection ↔
      rule.TakesPart job selection ∧ ∃ line, (rule.line? job).value = some line := by
  rw [← Option.isSome_iff_exists, isSome_value_line?_iff]
  constructor
  · intro h
    exact ⟨h.takesPart, h.finite, h.positive⟩
  · rintro ⟨htakes, hfinite, hpositive⟩
    exact ⟨htakes, hfinite, hpositive⟩

theorem calculate_sublist {part : List Rule} (h : part.Sublist rules) :
    (calculate job part selection).value.Sublist (calculate job rules selection).value := by
  have hrules : (applicableRules job part selection).Sublist
      (applicableRules job rules selection) :=
    mergeSort_sublist_mergeSort Rule.priority_trans Rule.priority_total (h.filter _)
  rw [value_calculate, value_calculate]
  exact hrules.filterMap _

theorem filter_applicableRules (keep : Rule → Bool) :
    (applicableRules job rules selection).filter keep =
      applicableRules job (rules.filter keep) selection := by
  have hfilter : (rules.filter (·.applies job selection)).filter keep =
      (rules.filter keep).filter (·.applies job selection) := by
    rw [List.filter_filter, List.filter_filter]
    exact List.filter_congr fun rule _ => Bool.and_comm _ _
  unfold applicableRules
  rw [filter_mergeSort Rule.priority_trans Rule.priority_total, hfilter]

theorem applicableRules_of_narrower {narrower : Selection} {keep : Rule → Bool}
    (h : ∀ rule : Rule, rule.applies job narrower = (keep rule && rule.applies job selection)) :
    applicableRules job rules narrower =
      (applicableRules job rules selection).filter keep := by
  have hfilter : rules.filter (·.applies job narrower) =
      (rules.filter (·.applies job selection)).filter keep := by
    rw [List.filter_filter]
    exact List.filter_congr fun rule _ => h rule
  unfold applicableRules
  rw [hfilter, filter_mergeSort Rule.priority_trans Rule.priority_total]

/-- Rules that give no line can be left out. -/
theorem calculate_of_filter {keep : Rule → Bool}
    (h : ∀ rule ∈ rules, keep rule = false → ¬ rule.Contributes job selection) :
    (calculate job (rules.filter keep) selection).value =
      (calculate job rules selection).value := by
  rw [value_calculate, value_calculate, ← filter_applicableRules, List.filterMap_filter]
  apply List.filterMap_congr
  intro rule hrule
  obtain ⟨hmem, htakes⟩ := mem_applicableRules_iff.mp hrule
  cases hkeep : keep rule with
  | true => simp
  | false =>
      have hnone : (rule.line? job).value = none := by
        rw [Option.eq_none_iff_forall_ne_some]
        intro line hline
        exact h rule hmem hkeep (Rule.contributes_iff.mpr ⟨htakes, line, hline⟩)
      simp [hnone]

/-! ## One rule more -/

theorem exists_insert_applicableRules (job : Job) (selection : Selection)
    (before after : List Rule) (rule : Rule) :
    ∃ front back,
      applicableRules job (before ++ after) selection = front ++ back ∧
        applicableRules job (before ++ [rule] ++ after) selection =
          front ++ [rule].filter (·.applies job selection) ++ back := by
  unfold applicableRules
  simp only [List.filter_append]
  cases happlies : rule.applies job selection with
  | false =>
      have hrule : [rule].filter (·.applies job selection) = [] := by
        simp [happlies]
      rw [hrule, List.append_nil]
      exact ⟨_, [], (List.append_nil _).symm, by simp⟩
  | true =>
      have hrule : [rule].filter (·.applies job selection) = [rule] := by
        simp [happlies]
      rw [hrule]
      simpa using exists_insert_mergeSort Rule.priority_trans Rule.priority_total rule
        (before.filter (·.applies job selection)) (after.filter (·.applies job selection))

/-- The line of a rule in a run, whatever else the run is about. -/
def Rule.ownLine? (rule : Rule) (job : Job) (selection : Selection) : Option Line :=
  if rule.applies job selection then (rule.line? job).value else none

theorem Rule.ownLine?_eq_some_iff {rule : Rule} {line : Line} :
    rule.ownLine? job selection = some line ↔
      rule.Contributes job selection ∧ rule.lineOf (rule.resolve job) = line := by
  unfold ownLine?
  by_cases happlies : rule.applies job selection = true
  · have htakes := applies_eq_true_iff.mp happlies
    rw [if_pos happlies]
    constructor
    · intro hline
      exact ⟨contributes_iff.mpr ⟨htakes, line, hline⟩, (value_line?_eq_some_iff.mp hline).2.2⟩
    · rintro ⟨hcontributes, hline⟩
      exact value_line?_eq_some_iff.mpr
        ⟨hcontributes.finite, hcontributes.positive, hline⟩
  · have hnot : ¬ rule.Contributes job selection := fun hcontributes =>
      happlies (applies_eq_true_iff.mpr hcontributes.takesPart)
    simp [happlies, hnot]

theorem filterMap_line?_filter_applies (rule : Rule) :
    ([rule].filter (·.applies job selection)).filterMap (fun rule => (rule.line? job).value) =
      (rule.ownLine? job selection).toList := by
  unfold Rule.ownLine?
  cases happlies : rule.applies job selection with
  | false => simp [happlies]
  | true => cases hline : (rule.line? job).value <;> simp [happlies, hline]

/-- One rule more in a catalog, wherever it stands and whatever is wrong with
it, puts in its own line if it contributes; all other lines are the same and
in the same order. -/
theorem calculate_insert (job : Job) (selection : Selection) (before after : List Rule)
    (rule : Rule) :
    ∃ (front back : List Line) (own : Option Line),
      (∀ line, own = some line ↔
        rule.Contributes job selection ∧ rule.lineOf (rule.resolve job) = line) ∧
      (calculate job (before ++ after) selection).value = front ++ back ∧
      (calculate job (before ++ [rule] ++ after) selection).value =
        front ++ own.toList ++ back := by
  obtain ⟨front, back, hrest, hall⟩ :=
    exists_insert_applicableRules job selection before after rule
  refine ⟨front.filterMap fun rule => (rule.line? job).value,
    back.filterMap fun rule => (rule.line? job).value,
    rule.ownLine? job selection, fun line => Rule.ownLine?_eq_some_iff, ?_, ?_⟩
  · rw [value_calculate, hrest, List.filterMap_append]
  · rw [value_calculate, hall, List.filterMap_append, List.filterMap_append,
      filterMap_line?_filter_applies]

/-! ## Narrower selections -/

namespace Rule

variable {rule : Rule}

theorem applies_of_categories (includeOptional : Bool) (categories : List String) :
    rule.applies job { includeOptional, categories := some categories } =
      (decide (rule.category ∈ categories) && rule.applies job { includeOptional }) := by
  rw [Bool.eq_iff_iff, Bool.and_eq_true, decide_eq_true_eq, applies_eq_true_iff,
    applies_eq_true_iff]
  constructor
  · intro h
    exact ⟨h.category categories rfl, h.active, h.required, by simp, h.battery⟩
  · rintro ⟨hcategory, h⟩
    exact ⟨h.active, h.required, by simpa using hcategory, h.battery⟩

theorem applies_of_requiredOnly (categories : Option (List String)) :
    rule.applies job { includeOptional := false, categories } =
      (rule.isRequired && rule.applies job { includeOptional := true, categories }) := by
  rw [Bool.eq_iff_iff, Bool.and_eq_true, applies_eq_true_iff, applies_eq_true_iff]
  constructor
  · intro h
    exact ⟨h.required rfl, h.active, by simp, h.category, h.battery⟩
  · rintro ⟨hrequired, h⟩
    exact ⟨h.active, fun _ => hrequired, h.category, h.battery⟩

theorem category_of_value_line? {line : Line} (h : (rule.line? job).value = some line) :
    line.category = rule.category := by
  obtain ⟨-, -, rfl⟩ := value_line?_eq_some_iff.mp h
  rfl

end Rule

theorem filterMap_line?_filter_category (categories : List String) :
    (rules.filter fun rule => rule.category ∈ categories).filterMap
        (fun rule => (rule.line? job).value) =
      (rules.filterMap fun rule => (rule.line? job).value).filter
        fun line => line.category ∈ categories := by
  rw [List.filterMap_filter, List.filter_filterMap]
  apply List.filterMap_congr
  intro rule _
  cases hline : (rule.line? job).value with
  | none => simp
  | some line =>
      have hcategory : line.category = rule.category := Rule.category_of_value_line? hline
      rw [Option.filter_some, hcategory]

/-- Asking for categories keeps the lines of these categories.  Asking for
required rules only keeps part of the lines, those of a run over the required
rules. -/
theorem calculate_narrower (job : Job) (rules : List Rule) :
    (∀ (includeOptional : Bool) (categories : List String),
      (calculate job rules { includeOptional, categories := some categories }).value =
        (calculate job rules { includeOptional }).value.filter
          fun line => line.category ∈ categories) ∧
    ∀ categories : Option (List String),
      (calculate job rules { includeOptional := false, categories }).value.Sublist
          (calculate job rules { includeOptional := true, categories }).value ∧
        (calculate job rules { includeOptional := false, categories }).value =
          (calculate job (rules.filter (·.isRequired))
            { includeOptional := true, categories }).value := by
  constructor
  · intro includeOptional categories
    have hrules : applicableRules job rules { includeOptional, categories := some categories } =
        (applicableRules job rules { includeOptional }).filter (·.category ∈ categories) :=
      applicableRules_of_narrower fun _ => Rule.applies_of_categories includeOptional categories
    rw [value_calculate, value_calculate, hrules, filterMap_line?_filter_category]
  · intro categories
    have hrules : applicableRules job rules { includeOptional := false, categories } =
        (applicableRules job rules { includeOptional := true, categories }).filter
          (·.isRequired) :=
      applicableRules_of_narrower fun _ => Rule.applies_of_requiredOnly categories
    have hrequired :
        (calculate job rules { includeOptional := false, categories }).value =
          (calculate job (rules.filter (·.isRequired))
            { includeOptional := true, categories }).value := by
      rw [value_calculate, value_calculate, hrules, filter_applicableRules]
    refine ⟨?_, hrequired⟩
    rw [hrequired]
    exact calculate_sublist List.filter_sublist

end SolarTakeoff
