import SolarTakeoff.Summary
import SolarTakeoff.Proofs.FirstOccurrences
import Mathlib.Tactic

/-!
# Which values a group holds

Grouping walks over the values and keeps changing the groups it has.  What it
has at any time depends on the values so far alone: one group for each of their
keys, in the order of first appearance, with the values that have this key.

Values may be repeated, so the statement about groups speaks of positions.
-/

namespace SolarTakeoff

namespace Groups

variable {α : Type} {names : List String} {contents : String → List α}

/-- The positions of the values with a key, in increasing order. -/
def positions (key : α → String) (values : List α) (name : String) :
    List (Fin values.length) :=
  (List.finRange values.length).filter fun position => key (values.get position) == name

/-- One group for each key, in the order of first appearance; it holds what
stands at the positions with this key, so each position is in one group. -/
structure Partitions (groups : Groups α) (key : α → String) (values : List α) : Prop where
  nodup : (groups.map Prod.fst).Nodup
  ordered : (groups.map Prod.fst).Pairwise (MetBefore (values.map key))
  nonempty : ∀ group ∈ groups, group.2 ≠ []
  contents : ∀ group ∈ groups, group.2 = (positions key values group.1).map values.get
  covers : ∀ position, ∃! group, group ∈ groups ∧ position ∈ positions key values group.1

theorem insert_of_mem (name : String) (value : α) (hnodup : names.Nodup) (hname : name ∈ names) :
    insert name value (names.map fun other => (other, contents other)) =
      names.map fun other =>
        (other, if name = other then contents other ++ [value] else contents other) := by
  induction names with
  | nil => simp at hname
  | cons first rest ih =>
      obtain ⟨hfirst, hrest⟩ := List.nodup_cons.mp hnodup
      by_cases hne : name = first
      · subst hne
        have hothers : ∀ other ∈ rest, ¬ name = other := by
          rintro other hother rfl
          exact hfirst hother
        simpa [insert] using fun other hother hsame => (hothers other hother hsame).elim
      · have hmem : name ∈ rest := (List.mem_cons.mp hname).resolve_left hne
        simp [insert, hne, ih hrest hmem]

theorem insert_of_not_mem (name : String) (value : α) (hname : name ∉ names) :
    insert name value (names.map fun other => (other, contents other)) =
      names.map (fun other => (other, contents other)) ++ [(name, [value])] := by
  induction names with
  | nil => rfl
  | cons first rest ih =>
      rw [List.mem_cons, not_or] at hname
      simp [insert, hname.1, ih hname.2]

variable (key : α → String) (values : List α)

theorem ofList_concat (value : α) :
    ofList key (values ++ [value]) = insert (key value) value (ofList key values) :=
  List.foldl_concat _ _ _ _

/-- The groups are those of the keys seen, each with the values of its key. -/
theorem ofList_eq :
    ofList key values = (values.map key).eraseDups.map fun name =>
      (name, values.filter fun value => key value == name) := by
  induction values using List.reverseRecOn with
  | nil => rfl
  | append_singleton values value ih =>
      rw [ofList_concat, ih, List.map_append, List.map_singleton, eraseDups_concat]
      by_cases hseen : key value ∈ values.map key
      · rw [if_pos hseen,
          insert_of_mem _ _ (nodup_eraseDups _) (List.mem_eraseDups.mpr hseen)]
        apply List.map_congr_left
        intro name _
        by_cases hname : key value = name <;> simp [hname]
      · have hnew : key value ∉ (values.map key).eraseDups := by
          rwa [List.mem_eraseDups]
        have hold : ∀ name ∈ (values.map key).eraseDups, key value ≠ name := by
          rintro name hname rfl
          exact hnew hname
        have hnone : values.filter (fun other => key other == key value) = [] := by
          rw [List.filter_eq_nil_iff]
          intro other hother hsame
          exact hseen (List.mem_map.mpr ⟨other, hother, beq_iff_eq.mp hsame⟩)
        rw [if_neg hseen, insert_of_not_mem _ _ hnew, List.map_append]
        congr 1
        · apply List.map_congr_left
          intro name hname
          simp [hold name hname]
        · simp [hnone]

theorem keys_ofList : (ofList key values).map Prod.fst = (values.map key).eraseDups := by
  simp [ofList_eq, Function.comp_def]

theorem mem_ofList_iff {group : String × List α} :
    group ∈ ofList key values ↔
      group.1 ∈ values.map key ∧ group.2 = values.filter fun value => key value == group.1 := by
  rw [ofList_eq, List.mem_map]
  constructor
  · rintro ⟨name, hname, rfl⟩
    exact ⟨List.mem_eraseDups.mp hname, rfl⟩
  · rintro ⟨hname, hvalues⟩
    exact ⟨group.1, List.mem_eraseDups.mpr hname, Prod.ext rfl hvalues.symm⟩

theorem map_get_positions (name : String) :
    (positions key values name).map values.get =
      values.filter fun value => key value == name := by
  conv_rhs => rw [← List.map_get_finRange values, List.filter_map]
  rfl

theorem mem_positions_iff {position : Fin values.length} {name : String} :
    position ∈ positions key values name ↔ key (values.get position) = name := by
  simp [positions]

theorem partitions_ofList : (ofList key values).Partitions key values where
  nodup := by
    rw [keys_ofList]
    exact nodup_eraseDups _
  ordered := by
    rw [keys_ofList]
    exact pairwise_metBefore_eraseDups _
  nonempty := by
    intro group hgroup
    obtain ⟨hname, hvalues⟩ := (mem_ofList_iff key values).mp hgroup
    obtain ⟨value, hvalue, hkey⟩ := List.mem_map.mp hname
    rw [hvalues]
    exact List.ne_nil_of_mem (List.mem_filter.mpr ⟨hvalue, beq_iff_eq.mpr hkey⟩)
  contents := by
    intro group hgroup
    rw [map_get_positions]
    exact ((mem_ofList_iff key values).mp hgroup).2
  covers := by
    intro position
    have hkey : key (values.get position) ∈ values.map key :=
      List.mem_map_of_mem (List.get_mem values position)
    let own := values.filter fun value => key value == key (values.get position)
    have hown : (key (values.get position), own) ∈ ofList key values :=
      (mem_ofList_iff key values).mpr ⟨hkey, rfl⟩
    refine ⟨(key (values.get position), own),
      ⟨hown, (mem_positions_iff key values).mpr rfl⟩, ?_⟩
    rintro ⟨name, group⟩ ⟨hgroup, hposition⟩
    obtain rfl := (mem_positions_iff key values).mp hposition
    exact Prod.ext rfl ((mem_ofList_iff key values).mp hgroup).2

end Groups

theorem keys_groupTotals (groups : Groups Line) :
    (groupTotals groups).map Prod.fst = groups.map Prod.fst := by
  simp [groupTotals, Function.comp_def]

/-- By supplier and by category, the groups of lines are those of the keys in
the order of first appearance, each with exactly the lines of its key; their
totals come under the same keys in the same order. -/
theorem groups_partition_lines (lines : List Line) :
    (groupBySupplier lines).Partitions Line.supplierKey lines ∧
      (groupByCategory lines).Partitions Line.category lines ∧
      (groupTotals (groupBySupplier lines)).map Prod.fst =
        (groupBySupplier lines).map Prod.fst ∧
      (groupTotals (groupByCategory lines)).map Prod.fst =
        (groupByCategory lines).map Prod.fst :=
  ⟨Groups.partitions_ofList _ _, Groups.partitions_ofList _ _, keys_groupTotals _,
    keys_groupTotals _⟩

end SolarTakeoff
