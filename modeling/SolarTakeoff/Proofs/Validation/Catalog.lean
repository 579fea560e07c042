import SolarTakeoff.Catalog
import Mathlib.Tactic

/-!
# The problems of a catalog

A catalog is checked to its end with the ids met so far.  The problems at a
position are told by the rule there and by the rules before it, whether these are
valid or not, so what comes later never changes what was found earlier.

Each statement about a whole catalog is one about a run that starts with ids
already seen, and such a run is what the induction is on.
-/

namespace SolarTakeoff

namespace Rule

variable {rule : Rule} {seen : List String} {before : List Rule}

/-- What is wrong with a rule by itself, under its id. -/
def ownProblem? (rule : Rule) : Option ValidationError :=
  match rule.validate with
  | .ok () => none
  | .error error => some (.inRule rule.id error)

/-- What is wrong with an id that an earlier rule has as well. -/
def repetition? (before : List Rule) (rule : Rule) : Option ValidationError :=
  if ∃ earlier ∈ before, earlier.id = rule.id then some (.duplicate "rule id" rule.id) else none

theorem problems_eq_append (seen : List String) (rule : Rule) :
    rule.problems seen = rule.ownProblem?.toList ++
      if rule.id ∈ seen then [.duplicate "rule id" rule.id] else [] := by
  unfold problems ownProblem?
  rw [List.contains_eq_mem]
  cases rule.validate <;> simp

theorem problems_eq_of_before (h : ∀ id, id ∈ seen ↔ ∃ earlier ∈ before, earlier.id = id) :
    rule.problems seen = rule.ownProblem?.toList ++ (rule.repetition? before).toList := by
  rw [problems_eq_append, repetition?]
  congr 1
  by_cases hseen : rule.id ∈ seen
  · rw [if_pos hseen, if_pos ((h _).mp hseen)]
    rfl
  · rw [if_neg hseen, if_neg fun hbefore => hseen ((h _).mpr hbefore)]
    rfl

theorem problems_eq_nil_iff :
    rule.problems seen = [] ↔ rule.validate = .ok () ∧ rule.id ∉ seen := by
  rw [problems_eq_append, List.append_eq_nil_iff]
  apply and_congr
  · unfold ownProblem?
    cases rule.validate <;> simp
  · by_cases hseen : rule.id ∈ seen <;> simp [hseen]

theorem length_problems :
    (rule.problems seen).length =
      (if rule.validate ≠ .ok () then 1 else 0) + if rule.id ∈ seen then 1 else 0 := by
  rw [problems_eq_append, List.length_append]
  congr 1
  · unfold ownProblem?
    cases rule.validate <;> simp
  · by_cases hseen : rule.id ∈ seen <;> simp [hseen]

end Rule

section Runs

variable {rules : List Rule} {seen : List String}

theorem problemsAfter_eq_flatten {before : List Rule}
    (h : ∀ id, id ∈ seen ↔ ∃ earlier ∈ before, earlier.id = id) :
    problemsAfter seen rules =
      (List.ofFn fun position : Fin rules.length =>
        rules[position].ownProblem?.toList ++
          (rules[position].repetition? (before ++ rules.take position)).toList).flatten := by
  induction rules generalizing seen before with
  | nil => rfl
  | cons rule rules ih =>
      have hnext : ∀ id, id ∈ rule.id :: seen ↔
          ∃ earlier ∈ before ++ [rule], earlier.id = id := by
        intro id
        rw [List.mem_cons, h]
        simp only [List.mem_append, List.mem_singleton, or_and_right, exists_or, exists_eq_left]
        rw [or_comm, eq_comm]
      rw [problemsAfter, Rule.problems_eq_of_before h, ih hnext, List.ofFn_succ, List.flatten_cons]
      simp

theorem problemsAfter_eq_nil_iff :
    problemsAfter seen rules = [] ↔
      (∀ rule ∈ rules, rule.validate = .ok ()) ∧ (rules.map Rule.id).Nodup ∧
        ∀ rule ∈ rules, rule.id ∉ seen := by
  induction rules generalizing seen with
  | nil => simp [problemsAfter]
  | cons rule rules ih =>
      rw [problemsAfter, List.append_eq_nil_iff, Rule.problems_eq_nil_iff, ih, List.forall_mem_cons,
        List.forall_mem_cons, List.map_cons, List.nodup_cons]
      constructor
      · rintro ⟨⟨hrule, hfresh⟩, hrules, hnodup, hlater⟩
        refine ⟨⟨hrule, hrules⟩, ⟨?_, hnodup⟩, hfresh, ?_⟩
        · intro hrepeated
          obtain ⟨later, hmem, hid⟩ := List.mem_map.mp hrepeated
          exact hlater later hmem (hid ▸ List.mem_cons_self)
        · intro later hmem hseen
          exact hlater later hmem (List.mem_cons_of_mem _ hseen)
      · rintro ⟨⟨hrule, hrules⟩, ⟨hunique, hnodup⟩, hfresh, hlater⟩
        refine ⟨⟨hrule, hfresh⟩, hrules, hnodup, ?_⟩
        intro later hmem hseen
        rcases List.mem_cons.mp hseen with hid | hseen
        · exact hunique (List.mem_map.mpr ⟨later, hmem, hid⟩)
        · exact hlater later hmem hseen

theorem length_problemsAfter :
    (problemsAfter seen rules).length + (rules.map Rule.id ++ seen).toFinset.card =
      rules.countP (·.validate ≠ .ok ()) + rules.length + seen.toFinset.card := by
  induction rules generalizing seen with
  | nil => simp [problemsAfter]
  | cons rule rules ih =>
      have hids : ((rule :: rules).map Rule.id ++ seen).toFinset =
          (rules.map Rule.id ++ rule.id :: seen).toFinset := by
        ext id
        simp
      have hseen : (rule.id :: seen).toFinset.card +
          (if rule.id ∈ seen then 1 else 0) = seen.toFinset.card + 1 := by
        by_cases hmem : rule.id ∈ seen
        · have hsame : (rule.id :: seen).toFinset = seen.toFinset := by simp [hmem]
          rw [hsame, if_pos hmem]
        · rw [List.toFinset_cons, Finset.card_insert_of_notMem (by simpa using hmem), if_neg hmem]
      have hrest := @ih (rule.id :: seen)
      rw [problemsAfter, List.length_append, Rule.length_problems, hids, List.countP_cons,
        List.length_cons]
      simp only [decide_eq_true_eq]
      omega

theorem problemsAfter_prefix (more : List Rule) :
    problemsAfter seen rules <+: problemsAfter seen (rules ++ more) := by
  induction rules generalizing seen with
  | nil => exact List.nil_prefix
  | cons rule rules ih => exact (List.prefix_append_right_inj _).mpr ih

end Runs

theorem catalogProblems_eq_nil_iff (rules : List Rule) :
    catalogProblems rules = [] ↔
      (∀ rule ∈ rules, rule.validate = .ok ()) ∧ (rules.map Rule.id).Nodup := by
  rw [catalogProblems, problemsAfter_eq_nil_iff]
  simp

theorem catalogProblems_eq_flatten (rules : List Rule) :
    catalogProblems rules =
      (List.ofFn fun position : Fin rules.length =>
        rules[position].ownProblem?.toList ++
          (rules[position].repetition? (rules.take position)).toList).flatten := by
  have hnone : ∀ id, id ∈ ([] : List String) ↔ ∃ earlier ∈ ([] : List Rule), earlier.id = id := by
    simp
  exact problemsAfter_eq_flatten hnone

theorem length_catalogProblems (rules : List Rule) :
    (catalogProblems rules).length + (rules.map Rule.id).toFinset.card =
      rules.countP (·.validate ≠ .ok ()) + rules.length := by
  have hlength := @length_problemsAfter rules []
  rwa [List.append_nil, List.toFinset_nil, Finset.card_empty, Nat.add_zero] at hlength

/-- A catalog has no problems when all rules are valid and no two share an id.  What
it has otherwise stands in catalog order, at each position the rule's own problem
before that of its id, and is logged in this order beside rules that are all kept. -/
theorem catalogProblems_by_position (rules : List Rule) :
    (catalogProblems rules = [] ↔
        (∀ rule ∈ rules, rule.validate = .ok ()) ∧ (rules.map Rule.id).Nodup) ∧
      catalogProblems rules =
        (List.ofFn fun position : Fin rules.length =>
          rules[position].ownProblem?.toList ++
            (rules[position].repetition? (rules.take position)).toList).flatten ∧
      (catalogProblems rules).length + (rules.map Rule.id).toFinset.card =
        rules.countP (·.validate ≠ .ok ()) + rules.length ∧
      (∀ more, catalogProblems rules <+: catalogProblems (rules ++ more)) ∧
      (Catalog.ofRules rules).value.rules = rules ∧
      (Catalog.ofRules rules).events.filter (·.level = .warn) =
        (catalogProblems rules).map .ruleInvalid := by
  refine ⟨catalogProblems_eq_nil_iff rules, catalogProblems_eq_flatten rules,
    length_catalogProblems rules, problemsAfter_prefix, rfl, ?_⟩
  simp [Catalog.ofRules, Event.level]

end SolarTakeoff
