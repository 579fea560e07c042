import SolarTakeoff.Summary
import SolarTakeoff.Proofs.Money.Amounts
import Mathlib.Tactic

/-!
# Totals by group and over all

Grouping only moves lines together: the groups of a list hold its lines, each
as often as the list does.  For lines whose totals are not below zero and come
to a total in range, the totals of the groups are therefore exact, and they
come to the same total under every key.
-/

namespace SolarTakeoff

namespace Groups

variable {α : Type} (key : α → String)

theorem flatMap_insert_perm (name : String) (value : α) (groups : Groups α) :
    ((insert name value groups).flatMap Prod.snd).Perm
      (groups.flatMap Prod.snd ++ [value]) := by
  induction groups with
  | nil => simp [insert]
  | cons group rest ih =>
      obtain ⟨other, values⟩ := group
      by_cases hname : name = other
      · simp only [insert, if_pos hname, List.flatMap_cons, List.append_assoc]
        exact List.perm_append_comm.append_left values
      · simp only [insert, if_neg hname, List.flatMap_cons, List.append_assoc]
        exact ih.append_left values

theorem flatMap_foldl_insert_perm (values : List α) (groups : Groups α) :
    ((values.foldl (fun groups value => insert (key value) value groups) groups).flatMap
        Prod.snd).Perm (groups.flatMap Prod.snd ++ values) := by
  induction values generalizing groups with
  | nil => simp
  | cons value rest ih =>
      rw [List.foldl_cons]
      refine (ih _).trans ?_
      simpa using (flatMap_insert_perm (key value) value groups).append_right rest

theorem flatMap_ofList_perm (values : List α) :
    ((ofList key values).flatMap Prod.snd).Perm values := by
  simpa [ofList] using flatMap_foldl_insert_perm key values []

end Groups

/-! ## Totals of groups -/

/-- Groups that hold exactly the lines, with totals made of them by additions
that all stay in range, and the sum that these totals come to. -/
structure GroupsAddUp (lines : List Line) (groups : Groups Line)
    (totals : List (String × Money)) (total : Money) : Prop where
  partition : (groups.flatMap Prod.snd).Perm lines
  totals_eq : totals = groupTotals groups
  within : ∀ group ∈ groups, Money.SumsInRange (group.2.map Line.totalCost)
  across : Money.SumsInRange (totals.map Prod.snd)
  sum_eq : Money.sum (totals.map Prod.snd) = total

variable {lines : List Line} {groups : Groups Line}

theorem inRange_of_mem_groups
    (hperm : (groups.flatMap Prod.snd).Perm lines)
    (hnonneg : ∀ line ∈ lines, 0 ≤ line.totalCost.cents.toInt)
    (hrange : Money.InRange (Money.exactSum (lines.map Line.totalCost)))
    {group : String × List Line} (hgroup : group ∈ groups) :
    (∀ amount ∈ group.2.map Line.totalCost, 0 ≤ amount.cents.toInt) ∧
      Money.InRange (Money.exactSum (group.2.map Line.totalCost)) := by
  have hsublist : group.2.Sublist (groups.flatMap Prod.snd) :=
    List.sublist_flatten_of_mem (List.mem_map_of_mem hgroup)
  have hcontents : ∀ amount ∈ (groups.flatMap Prod.snd).map Line.totalCost,
      0 ≤ amount.cents.toInt := by
    intro amount hamount
    obtain ⟨line, hline, rfl⟩ := List.mem_map.mp hamount
    exact hnonneg line (hperm.mem_iff.mp hline)
  rw [← Money.exactSum_perm (hperm.map Line.totalCost)] at hrange
  exact ⟨fun amount hamount => hcontents amount ((hsublist.map _).subset hamount),
    Money.inRange_of_sublist (hsublist.map _) hcontents hrange⟩

theorem exactSum_groupTotals
    (hexact : ∀ group ∈ groups, (totalCost group.2).cents.toInt =
      Money.exactSum (group.2.map Line.totalCost)) :
    Money.exactSum ((groupTotals groups).map Prod.snd) =
      Money.exactSum ((groups.flatMap Prod.snd).map Line.totalCost) := by
  induction groups with
  | nil => rfl
  | cons group rest ih =>
      have hrest := ih fun other hother => hexact other (List.mem_cons_of_mem _ hother)
      have hgroup := hexact group List.mem_cons_self
      simp only [groupTotals, List.map_cons, Money.exactSum_cons, List.flatMap_cons,
        List.map_append, Money.exactSum_append] at hrest ⊢
      rw [hgroup, hrest]

/-- Whatever the lines are grouped by, the totals of the groups add up to the
total of the lines. -/
theorem groupsAddUp_of_perm
    (hperm : (groups.flatMap Prod.snd).Perm lines)
    (hnonneg : ∀ line ∈ lines, 0 ≤ line.totalCost.cents.toInt)
    (hrange : Money.InRange (Money.exactSum (lines.map Line.totalCost))) :
    GroupsAddUp lines groups (groupTotals groups) (totalCost lines) := by
  have hgroups := fun (group : String × List Line) (hgroup : group ∈ groups) =>
    inRange_of_mem_groups hperm hnonneg hrange hgroup
  have hexact : ∀ group ∈ groups, (totalCost group.2).cents.toInt =
      Money.exactSum (group.2.map Line.totalCost) := fun group hgroup =>
    Money.toInt_sum_of_nonneg (hgroups group hgroup).1 (hgroups group hgroup).2
  have htotals : ∀ amount ∈ (groupTotals groups).map Prod.snd, 0 ≤ amount.cents.toInt := by
    intro amount hamount
    obtain ⟨group, hgroup, rfl⟩ : ∃ group ∈ groups, totalCost group.2 = amount := by
      simpa [groupTotals] using hamount
    rw [hexact group hgroup]
    exact Money.exactSum_nonneg (hgroups group hgroup).1
  have hsum : Money.exactSum ((groupTotals groups).map Prod.snd) =
      Money.exactSum (lines.map Line.totalCost) :=
    (exactSum_groupTotals hexact).trans
      (Money.exactSum_perm (hperm.map Line.totalCost))
  have hrangeTotals : Money.InRange (Money.exactSum ((groupTotals groups).map Prod.snd)) := by
    rwa [hsum]
  refine ⟨hperm, rfl, fun group hgroup => ?_, ?_, ?_⟩
  · exact Money.sumsInRange_of_nonneg (hgroups group hgroup).1 (hgroups group hgroup).2
  · exact Money.sumsInRange_of_nonneg htotals hrangeTotals
  · apply Money.eq_of_toInt_eq
    rw [Money.toInt_sum_of_nonneg htotals hrangeTotals, hsum, totalCost,
      Money.toInt_sum_of_nonneg (by simpa using hnonneg) hrange]

theorem exactSum_filter_of_zero (keep : Line → Bool)
    (hzero : ∀ line ∈ lines, keep line = false → line.totalCost = .zero) :
    Money.exactSum ((lines.filter keep).map Line.totalCost) =
      Money.exactSum (lines.map Line.totalCost) := by
  induction lines with
  | nil => rfl
  | cons line rest ih =>
      have hrest := ih fun other hother => hzero other (List.mem_cons_of_mem _ hother)
      cases hkeep : keep line with
      | true => simp [hkeep, hrest]
      | false =>
          have hnothing := hzero line List.mem_cons_self hkeep
          have hcents : Money.zero.cents.toInt = 0 := rfl
          simp [hkeep, hrest, hnothing, hcents]

end SolarTakeoff
