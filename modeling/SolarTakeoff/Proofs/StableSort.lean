import Mathlib.Tactic

/-!
# Stable sorting of positions and of parts

Merge sort keeps pairs in order that were in order before.  On a list whose
elements increase strictly this leaves no freedom among elements that compare
equal: they come out in increasing order.  Lists with repeated elements are
covered by sorting their positions.

Sorting part of a list gives part of the sorted list.  Filters therefore
commute with the sort, and one element more before it is one element more
after it.
-/

namespace SolarTakeoff

variable {α : Type}

theorem pair_sublist_or_swap {a b : α} {l : List α} (ha : a ∈ l) (hb : b ∈ l)
    (hne : a ≠ b) : [a, b].Sublist l ∨ [b, a].Sublist l := by
  obtain ⟨before, after, rfl⟩ := List.append_of_mem ha
  simp only [List.mem_append, List.mem_cons] at hb
  rcases hb with hbefore | rfl | hafter
  · have hsingle : [b].Sublist before := List.singleton_sublist.mpr hbefore
    exact .inr (hsingle.append (List.singleton_sublist.mpr (by simp)))
  · exact (hne rfl).elim
  · have hpair : [a, b].Sublist (a :: after) :=
      (List.singleton_sublist.mpr hafter).cons_cons a
    exact .inl (hpair.trans (List.sublist_append_right _ _))

theorem not_pair_sublist_swap {a b : α} {l : List α} (hnodup : l.Nodup)
    (hab : [a, b].Sublist l) : ¬ [b, a].Sublist l := by
  induction l with
  | nil => simp at hab
  | cons c l ih =>
      intro hba
      obtain ⟨hc, hl⟩ := List.nodup_cons.mp hnodup
      rw [List.sublist_cons_iff] at hab hba
      rcases hab with hab | ⟨tail, htail, hsub⟩ <;>
        rcases hba with hba | ⟨tail', htail', hsub'⟩
      · exact ih hl hab hba
      · cases htail'
        exact hc (hab.subset (by simp))
      · cases htail
        exact hc (hba.subset (by simp))
      · cases htail
        cases htail'
        exact hc (List.singleton_sublist.mp hsub)

/-- Stability: what compares equal in both directions stays in increasing order. -/
theorem pairwise_mergeSort_stable [LinearOrder α] {le : α → α → Bool} {l : List α}
    (htrans : ∀ a b c, le a b = true → le b c = true → le a c = true)
    (htotal : ∀ a b, (le a b || le b a) = true)
    (hl : l.Pairwise (· < ·)) :
    (l.mergeSort le).Pairwise fun a b =>
      le a b = true ∧ (le b a = true → a < b) := by
  have hsorted := List.pairwise_mergeSort htrans htotal l
  have hnodup : (l.mergeSort le).Nodup := List.nodup_mergeSort.mpr hl.nodup
  rw [List.pairwise_iff_forall_sublist] at hsorted ⊢
  intro a b hab
  refine ⟨hsorted hab, ?_⟩
  intro hle
  have hmem : ∀ c ∈ [a, b], c ∈ l := fun c hc => List.mem_mergeSort.mp (hab.subset hc)
  have hne : a ≠ b := by
    rintro rfl
    exact not_pair_sublist_swap hnodup hab hab
  rcases pair_sublist_or_swap (hmem a (by simp)) (hmem b (by simp)) hne with h | h
  · exact List.pairwise_iff_forall_sublist.mp hl h
  · have hswap := List.pair_sublist_mergeSort htrans htotal hle h
    exact (not_pair_sublist_swap hnodup hab hswap).elim

/-! ## Parts of a list -/

theorem exists_insert_of_sublist_of_perm {a : α} {part l : List α}
    (hpart : part.Sublist l) (hperm : l.Perm (a :: part)) :
    ∃ front back, part = front ++ back ∧ l = front ++ a :: back := by
  induction hpart with
  | slnil => simp at hperm
  | @cons part l b hrest _ =>
      have hlength : part.length = l.length := by simpa using hperm.length_eq.symm
      obtain rfl : part = l := hrest.eq_of_length hlength
      have hsame : [b].Perm [a] := (List.perm_append_right_iff part).mp hperm
      obtain rfl : b = a := by simpa using hsame
      exact ⟨[], part, rfl, rfl⟩
  | @cons_cons part l b _ ih =>
      have hrest : l.Perm (a :: part) :=
        (List.perm_cons b).mp (hperm.trans (List.Perm.swap b a part))
      obtain ⟨front, back, hfront, hback⟩ := ih hrest
      exact ⟨b :: front, back, by rw [hfront, List.cons_append],
        by rw [hback, List.cons_append]⟩

section Parts

variable {le : α → α → Bool}
  (htrans : ∀ a b c, le a b = true → le b c = true → le a c = true)
  (htotal : ∀ a b, (le a b || le b a) = true)

include htrans htotal

/-- The head of a list comes before everything it may come before. -/
theorem mergeSort_cons_eq (a : α) (l : List α) :
    (a :: l).mergeSort le =
      (l.mergeSort le).filter (fun b => !le a b) ++ a :: (l.mergeSort le).filter (le a) := by
  obtain ⟨before, after, hcons, hrest, hbefore⟩ := List.mergeSort_cons htrans htotal a l
  have hafter : ∀ b ∈ after, le a b = true := by
    have hsorted := List.pairwise_mergeSort htrans htotal (a :: l)
    rw [hcons, List.pairwise_append, List.pairwise_cons] at hsorted
    exact hsorted.2.1.1
  have hlower : (before ++ after).filter (fun b => !le a b) = before := by
    have hnone : after.filter (fun b => !le a b) = [] :=
      List.filter_eq_nil_iff.mpr fun b hb => by simp [hafter b hb]
    rw [List.filter_append, List.filter_eq_self.mpr hbefore, hnone, List.append_nil]
  have hupper : (before ++ after).filter (le a) = after := by
    have hnone : before.filter (le a) = [] :=
      List.filter_eq_nil_iff.mpr fun b hb => by simpa using hbefore b hb
    rw [List.filter_append, hnone, List.filter_eq_self.mpr hafter, List.nil_append]
  rw [hcons, hrest, hlower, hupper]

theorem mergeSort_sublist_mergeSort {part l : List α} (h : part.Sublist l) :
    (part.mergeSort le).Sublist (l.mergeSort le) := by
  induction h with
  | slnil => exact List.Sublist.refl _
  | @cons part l a _ ih =>
      obtain ⟨before, after, hcons, hrest, -⟩ := List.mergeSort_cons htrans htotal a l
      rw [hrest] at ih
      rw [hcons]
      exact ih.trans ((List.sublist_cons_self a after).append_left before)
  | @cons_cons part l a _ ih =>
      have hlower := ih.filter fun b => !le a b
      have hupper := ih.filter (le a)
      rw [mergeSort_cons_eq htrans htotal, mergeSort_cons_eq htrans htotal]
      exact hlower.append (hupper.cons_cons a)

theorem filter_mergeSort (keep : α → Bool) (l : List α) :
    (l.mergeSort le).filter keep = (l.filter keep).mergeSort le := by
  have hpart : ((l.filter keep).mergeSort le).Sublist ((l.mergeSort le).filter keep) := by
    have hkept : ((l.filter keep).mergeSort le).filter keep = (l.filter keep).mergeSort le :=
      List.filter_eq_self.mpr fun a ha => (List.mem_filter.mp (List.mem_mergeSort.mp ha)).2
    have hsorted : ((l.filter keep).mergeSort le).Sublist (l.mergeSort le) :=
      mergeSort_sublist_mergeSort htrans htotal List.filter_sublist
    rw [← hkept]
    exact hsorted.filter keep
  have hlength : ((l.filter keep).mergeSort le).length =
      ((l.mergeSort le).filter keep).length := by
    rw [List.length_mergeSort]
    exact ((List.mergeSort_perm l le).filter keep).length_eq.symm
  exact (hpart.eq_of_length hlength).symm

theorem exists_insert_mergeSort (a : α) (before after : List α) :
    ∃ front back,
      (before ++ after).mergeSort le = front ++ back ∧
        (before ++ a :: after).mergeSort le = front ++ a :: back := by
  have hpart : (before ++ after).Sublist (before ++ a :: after) :=
    (List.sublist_cons_self a after).append_left before
  have hperm : ((before ++ a :: after).mergeSort le).Perm
      (a :: (before ++ after).mergeSort le) :=
    (List.mergeSort_perm _ le).trans
      (List.perm_middle.trans ((List.mergeSort_perm _ le).symm.cons a))
  exact exists_insert_of_sublist_of_perm
    (mergeSort_sublist_mergeSort htrans htotal hpart) hperm

end Parts

end SolarTakeoff
