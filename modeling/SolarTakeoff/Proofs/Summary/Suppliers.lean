import SolarTakeoff.Proofs.Summary.Groups
import Mathlib.Tactic

/-!
# Suppliers and lines without one

Lines without a supplier are grouped under a key that is a text like the id of
any supplier.  Grouping tells the suppliers apart from each other and from none
exactly as long as no supplier has this key for its id; the lines of one that
has it are counted with the lines of none.
-/

namespace SolarTakeoff

namespace Groups

variable {α : Type} {key : α → String} {values : List α} {a b : α}

/-- The two values stand in one group. -/
def Together (groups : Groups α) (a b : α) : Prop :=
  ∃ group ∈ groups, a ∈ group.2 ∧ b ∈ group.2

theorem together_ofList_iff (ha : a ∈ values) (hb : b ∈ values) :
    (ofList key values).Together a b ↔ key a = key b := by
  constructor
  · rintro ⟨group, hgroup, hfirst, hsecond⟩
    rw [((mem_ofList_iff key values).mp hgroup).2] at hfirst hsecond
    simp only [List.mem_filter, beq_iff_eq] at hfirst hsecond
    rw [hfirst.2, hsecond.2]
  · intro hkey
    have hgroup : (key a, values.filter fun value => key value == key a) ∈ ofList key values :=
      (mem_ofList_iff key values).mpr ⟨List.mem_map_of_mem ha, rfl⟩
    exact ⟨_, hgroup, by simp [ha], by simp [hb, hkey]⟩

theorem mk_mem_ofList_iff {name : String} {contents : List α} :
    (name, contents) ∈ ofList key values ↔
      (∃ value ∈ values, key value = name) ∧
        contents = values.filter fun value => key value == name := by
  rw [mem_ofList_iff, List.mem_map]

end Groups

theorem mk_mem_groupTotals_iff {groups : Groups Line} {name : String} {total : Money} :
    (name, total) ∈ groupTotals groups ↔
      ∃ contents, (name, contents) ∈ groups ∧ total = totalCost contents := by
  simp only [groupTotals, List.mem_map, Prod.mk.injEq, Prod.exists]
  constructor
  · rintro ⟨other, contents, hgroup, rfl, rfl⟩
    exact ⟨contents, hgroup, rfl⟩
  · rintro ⟨contents, hgroup, rfl⟩
    exact ⟨name, contents, hgroup, rfl, rfl⟩

namespace Line

variable {a b : Line}

def isUnlinked (line : Line) : Bool :=
  line.product.supplierId.isNone

/-- Without a supplier, or of a supplier that has the key of such lines for its id. -/
def countsAsUnlinked (line : Line) : Bool :=
  line.isUnlinked || line.product.supplierId == some noSupplier

theorem countsAsUnlinked_iff : a.countsAsUnlinked = true ↔ a.supplierKey = noSupplier := by
  unfold countsAsUnlinked isUnlinked supplierKey
  cases a.product.supplierId <;> simp

theorem supplierKey_eq_iff :
    a.supplierKey = b.supplierKey ↔
      a.product.supplierId = b.product.supplierId ∨
        a.countsAsUnlinked = true ∧ b.countsAsUnlinked = true := by
  constructor
  · intro hkey
    by_cases hnone : a.supplierKey = noSupplier
    · exact .inr ⟨countsAsUnlinked_iff.mpr hnone, countsAsUnlinked_iff.mpr (hkey ▸ hnone)⟩
    · left
      have hnone' : ¬ b.supplierKey = noSupplier := hkey ▸ hnone
      unfold supplierKey at hkey hnone hnone'
      cases hfirst : a.product.supplierId with
      | none => simp [hfirst] at hnone
      | some first =>
          cases hsecond : b.product.supplierId with
          | none => simp [hsecond] at hnone'
          | some second => simpa [hfirst, hsecond] using hkey
  · rintro (hsame | ⟨hfirst, hsecond⟩)
    · unfold supplierKey
      rw [hsame]
    · rw [countsAsUnlinked_iff.mp hfirst, countsAsUnlinked_iff.mp hsecond]

end Line

/-- Groups by supplier when some lines are counted as having none: two lines are
together if they have the same supplier or both none, and the group and the
total under the key of such lines are of exactly these. -/
structure GroupsSuppliers (lines : List Line) (unlinked : Line → Bool) : Prop where
  together : ∀ a ∈ lines, ∀ b ∈ lines, (groupBySupplier lines).Together a b ↔
    a.product.supplierId = b.product.supplierId ∨ unlinked a = true ∧ unlinked b = true
  group : ∀ contents, (noSupplier, contents) ∈ groupBySupplier lines ↔
    (∃ line ∈ lines, unlinked line = true) ∧ contents = lines.filter unlinked
  subtotal : ∀ total, (noSupplier, total) ∈ groupTotals (groupBySupplier lines) ↔
    (∃ line ∈ lines, unlinked line = true) ∧ total = totalCost (lines.filter unlinked)

theorem groupsSuppliers_countsAsUnlinked (lines : List Line) :
    GroupsSuppliers lines Line.countsAsUnlinked := by
  have hgroup : ∀ contents, (noSupplier, contents) ∈ groupBySupplier lines ↔
      (∃ line ∈ lines, line.countsAsUnlinked = true) ∧
        contents = lines.filter Line.countsAsUnlinked := by
    intro contents
    have hkey : (fun line : Line => line.supplierKey == noSupplier) = Line.countsAsUnlinked := by
      funext line
      rw [Bool.eq_iff_iff, beq_iff_eq, Line.countsAsUnlinked_iff]
    rw [groupBySupplier, Groups.mk_mem_ofList_iff, hkey]
    simp only [Line.countsAsUnlinked_iff]
  refine ⟨?_, hgroup, ?_⟩
  · intro a ha b hb
    rw [groupBySupplier, Groups.together_ofList_iff ha hb, Line.supplierKey_eq_iff]
  · intro total
    rw [mk_mem_groupTotals_iff]
    simp only [hgroup]
    constructor
    · rintro ⟨contents, ⟨hline, rfl⟩, htotal⟩
      exact ⟨hline, htotal⟩
    · rintro ⟨hline, htotal⟩
      exact ⟨_, ⟨hline, rfl⟩, htotal⟩

theorem GroupsSuppliers.congr {lines : List Line} {first second : Line → Bool}
    (h : GroupsSuppliers lines first) (hsame : ∀ line ∈ lines, first line = second line) :
    GroupsSuppliers lines second := by
  have hlines : lines.filter first = lines.filter second := List.filter_congr hsame
  have hsome : (∃ line ∈ lines, first line = true) ↔ ∃ line ∈ lines, second line = true :=
    exists_congr fun line => and_congr_right fun hline => by rw [hsame line hline]
  refine ⟨?_, ?_, ?_⟩
  · intro a ha b hb
    rw [← hsame a ha, ← hsame b hb]
    exact h.together a ha b hb
  · intro contents
    rw [← hlines, ← hsome]
    exact h.group contents
  · intro total
    rw [← hlines, ← hsome]
    exact h.subtotal total

/-- The lines of a supplier with the key of lines without one are counted with
these.  Only where there are no such lines is every supplier told from none. -/
theorem groupsSuppliers_isUnlinked_iff (lines : List Line) :
    GroupsSuppliers lines Line.countsAsUnlinked ∧
      (GroupsSuppliers lines Line.isUnlinked ↔
        ∀ line ∈ lines, line.product.supplierId ≠ some noSupplier) := by
  have hcounts := groupsSuppliers_countsAsUnlinked lines
  refine ⟨hcounts, ?_, ?_⟩
  · intro h line hline hnamesake
    have hcounted : line.countsAsUnlinked = true := by
      simp [Line.countsAsUnlinked, hnamesake]
    have hgroup := (hcounts.group _).mpr ⟨⟨line, hline, hcounted⟩, rfl⟩
    have hcontents := ((h.group _).mp hgroup).2
    have hmem : line ∈ lines.filter Line.isUnlinked := by
      rw [← hcontents]
      exact List.mem_filter.mpr ⟨hline, hcounted⟩
    simp [Line.isUnlinked, hnamesake] at hmem
  · intro h
    apply hcounts.congr
    intro line hline
    simp [Line.countsAsUnlinked, h line hline]

def unlinkedLine : Line where
  ruleId := "a"
  ruleName := "a"
  category := "MOUNTING"
  productType := none
  quantity := .ofNat 1
  unit := "each"
  product := {}
  totalCost := ⟨100⟩
  notes := none
  details := ""

/-- A line of a supplier with the key of lines without one. -/
def namesakeLine : Line :=
  { unlinkedLine with
    ruleId := "b"
    product := { supplierId := some noSupplier }
    totalCost := ⟨250⟩ }

theorem not_groupsSuppliers_namesakeLine :
    (groupBySupplier [unlinkedLine, namesakeLine]).Together unlinkedLine namesakeLine ∧
      ¬ GroupsSuppliers [unlinkedLine, namesakeLine] Line.isUnlinked := by
  have htogether : (groupBySupplier [unlinkedLine, namesakeLine]).Together unlinkedLine
      namesakeLine :=
    (Groups.together_ofList_iff (by simp) (by simp)).mpr rfl
  refine ⟨htogether, ?_⟩
  intro h
  have hsame := (h.together unlinkedLine (by simp) namesakeLine (by simp)).mp htogether
  simp [unlinkedLine, namesakeLine, Line.isUnlinked] at hsame

end SolarTakeoff
