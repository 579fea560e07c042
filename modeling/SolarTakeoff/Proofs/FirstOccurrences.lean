import Mathlib.Tactic

/-!
# First occurrences

Dropping the repetitions of a list leaves each element once, in the order in
which the elements are first met.
-/

namespace SolarTakeoff

variable {α β : Type} {a b c : α} {l : List α}

/-- Somewhere in the list `a` is met and `b` has not been met before. -/
def MetBefore (l : List α) (a b : α) : Prop :=
  ∃ before after, l = before ++ a :: after ∧ b ∉ before

theorem MetBefore.append (h : MetBefore l a b) (more : List α) : MetBefore (l ++ more) a b := by
  obtain ⟨before, after, rfl, hb⟩ := h
  exact ⟨before, after ++ more, by simp, hb⟩

theorem metBefore_of_not_mem (ha : a ∈ l) (hb : b ∉ l) : MetBefore l a b := by
  obtain ⟨before, after, rfl⟩ := List.append_of_mem ha
  exact ⟨before, after, rfl, fun hbefore => hb (List.mem_append_left _ hbefore)⟩

theorem MetBefore.of_filterMap {f : α → Option β} {g : β → α} {first second : β}
    (hf : ∀ value result, f value = some result ↔ value = g result)
    (h : MetBefore (l.filterMap f) first second) : MetBefore l (g first) (g second) := by
  obtain ⟨before, after, hl, hsecond⟩ := h
  obtain ⟨left, right, rfl, hleft, hright⟩ := List.filterMap_eq_append_iff.mp hl
  obtain ⟨skipped, value, rest, rfl, hskipped, hvalue, -⟩ := List.filterMap_eq_cons_iff.mp hright
  obtain rfl : value = g first := (hf value first).mp hvalue
  refine ⟨left ++ skipped, rest, by simp, ?_⟩
  intro hmem
  rcases List.mem_append.mp hmem with hmem | hmem
  · apply hsecond
    rw [← hleft]
    exact List.mem_filterMap.mpr ⟨_, hmem, (hf _ second).mpr rfl⟩
  · have hnone := hskipped _ hmem
    rw [(hf _ second).mpr rfl] at hnone
    cases hnone

variable [DecidableEq α]

theorem eraseDups_concat (l : List α) (c : α) :
    (l ++ [c]).eraseDups = if c ∈ l then l.eraseDups else l.eraseDups ++ [c] := by
  rw [List.eraseDups_append]
  by_cases hc : c ∈ l
  · have hnew : [c].removeAll l = [] := by simp [List.removeAll, hc]
    rw [hnew, if_pos hc, List.eraseDups_nil, List.append_nil]
  · have hnew : [c].removeAll l = [c] := by simp [List.removeAll, hc]
    rw [hnew, if_neg hc, List.eraseDups_cons, List.filter_nil, List.eraseDups_nil]

theorem nodup_eraseDups (l : List α) : l.eraseDups.Nodup := by
  induction l using List.reverseRecOn with
  | nil => simp
  | append_singleton l c ih =>
      rw [eraseDups_concat]
      by_cases hc : c ∈ l
      · rw [if_pos hc]
        exact ih
      · have hnew : c ∉ l.eraseDups := fun hmem => hc (List.mem_eraseDups.mp hmem)
        rw [if_neg hc, List.nodup_append_comm]
        exact List.nodup_cons.mpr ⟨hnew, ih⟩

theorem pairwise_metBefore_eraseDups (l : List α) : l.eraseDups.Pairwise (MetBefore l) := by
  induction l using List.reverseRecOn with
  | nil => simp
  | append_singleton l c ih =>
      have hold : l.eraseDups.Pairwise (MetBefore (l ++ [c])) :=
        ih.imp fun h => h.append [c]
      rw [eraseDups_concat]
      by_cases hc : c ∈ l
      · rw [if_pos hc]
        exact hold
      · rw [if_neg hc, List.pairwise_append]
        refine ⟨hold, List.pairwise_singleton _ _, ?_⟩
        intro a ha b hb
        obtain rfl : b = c := by simpa using hb
        exact (metBefore_of_not_mem (List.mem_eraseDups.mp ha) hc).append [b]

end SolarTakeoff
