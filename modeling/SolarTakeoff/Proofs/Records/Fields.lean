import SolarTakeoff.Catalog
import SolarTakeoff.Records.Config
import SolarTakeoff.Records.Line
import Mathlib.Data.List.Nodup
import Mathlib.Tactic

/-!
# Fields read back

A field of each kind is read back from what it is written as.  A record that is
written with its names in their declared order has every name once, so it is
taken for a record with these fields.
-/

namespace SolarTakeoff

namespace Datum

theorem length_filter_name (fields : List (String × Datum)) (name : String) :
    (fields.filter (·.1 == name)).length = (fields.map Prod.fst).count name := by
  rw [List.count, List.countP_map, List.countP_eq_length_filter]
  rfl

theorem record?_of_nodup {names : List String} {fields : List (String × Datum)}
    (hnames : fields.map Prod.fst = names) (hnodup : names.Nodup) :
    (Datum.record fields).record? names = some ⟨false, fields⟩ := by
  have hall : names.all (fun name => (fields.filter (·.1 == name)).length ≤ 1) = true := by
    rw [List.all_eq_true]
    intro name _
    rw [decide_eq_true_eq, length_filter_name, hnames]
    exact List.nodup_iff_count_le_one.mp hnodup name
  simp only [record?, hall, if_true]

theorem lookup_of_nodup {fields : List (String × Datum)} (hnodup : (fields.map Prod.fst).Nodup) :
    ∀ field ∈ fields, fields.lookup field.1 = some field.2 := by
  induction fields with
  | nil => simp
  | cons first fields ih =>
      obtain ⟨name, datum⟩ := first
      obtain ⟨hnew, hrest⟩ := List.nodup_cons.mp hnodup
      intro field hfield
      rcases List.mem_cons.mp hfield with rfl | hmem
      · exact List.lookup_cons_self
      · have hne : field.1 ≠ name := by
          intro heq
          exact hnew (List.mem_map.mpr ⟨field, hmem, heq⟩)
        rw [List.lookup_cons, beq_eq_false_iff_ne.mpr hne]
        exact ih hrest field hmem

/-- What is read from a record written with these names depends on its fields only. -/
theorem record?_bind {α : Type} {names : List String} {fields : List (String × Datum)}
    {value? : Record → Option α} {result : Option α} (hnodup : names.Nodup)
    (hnames : fields.map Prod.fst = names)
    (h : ∀ record : Record, (∀ field ∈ fields, record.get? field.1 = some field.2) →
      value? record = result) :
    (Datum.record fields).record? names >>= value? = result := by
  rw [record?_of_nodup hnames hnodup]
  exact h ⟨false, fields⟩ (lookup_of_nodup (hnames ▸ hnodup))

/-! ## Values -/

@[simp] theorem string?_string (value : String) : (Datum.string value).string? = some value :=
  rfl

@[simp] theorem bool?_bool (value : Bool) : (Datum.bool value).bool? = some value :=
  rfl

theorem ofBinary64_of_isFinite {value : Binary64} (h : value.isFinite = true) :
    ofBinary64 value = .number value := by
  simp [ofBinary64, h]

theorem binary64?_ofBinary64 {value : Binary64} (h : value.isFinite = true) :
    (ofBinary64 value).binary64? = some value := by
  rw [ofBinary64_of_isFinite h]
  rfl

theorem integer?_integer {least greatest value : ℤ} (hleast : least ≤ value)
    (hgreatest : value ≤ greatest) :
    (Datum.integer value).integer? least greatest = some value := by
  simp [integer?, hleast, hgreatest]

@[simp] theorem uint32?_toNat (value : UInt32) :
    (Datum.integer value.toNat).uint32? = some value := by
  have hlt := value.toNat_lt
  rw [uint32?, integer?_integer (by omega) (by omega)]
  simp

@[simp] theorem int32?_toInt (value : Int32) : (Datum.integer value.toInt).int32? = some value := by
  have hleast := value.le_toInt
  have hlt := value.toInt_lt
  rw [int32?, integer?_integer (by omega) (by omega)]
  simp

@[simp] theorem int64?_toInt (value : Int64) : (Datum.integer value.toInt).int64? = some value := by
  have hleast := value.le_toInt
  have hlt := value.toInt_lt
  rw [int64?, integer?_integer (by omega) (by omega)]
  simp

section Parts

variable {α : Type} {toDatum : α → Datum} {value? : Datum → Option α}

theorem nullable?_of_ne_null {datum : Datum} (h : datum ≠ .null) :
    datum.nullable? value? = (value? datum).map some := by
  cases datum <;> first | rfl | exact absurd rfl h

theorem nullable?_ofOption {option : Option α} (hnull : ∀ value ∈ option, toDatum value ≠ .null)
    (hread : ∀ value ∈ option, value? (toDatum value) = some value) :
    (ofOption toDatum option).nullable? value? = some option := by
  cases option with
  | none => rfl
  | some value =>
      rw [ofOption, nullable?_of_ne_null (hnull value rfl), hread value rfl]
      rfl

theorem list?_ofList {items : List α}
    (hread : ∀ item ∈ items, value? (toDatum item) = some item) :
    (ofList toDatum items).list? value? = some items := by
  rw [ofList, list?]
  induction items with
  | nil => rfl
  | cons item items ih =>
      rw [List.map_cons, List.mapM_cons, hread item List.mem_cons_self,
        ih fun other hother => hread other (List.mem_cons_of_mem _ hother)]
      rfl

@[simp] theorem nullable?_string (option : Option String) :
    (ofOption .string option).nullable? string? = some option :=
  nullable?_ofOption (by simp) (by simp)

@[simp] theorem nullable?_bool (option : Option Bool) :
    (ofOption .bool option).nullable? bool? = some option :=
  nullable?_ofOption (by simp) (by simp)

@[simp] theorem nullable?_uint32 (option : Option UInt32) :
    (ofOption (fun value => .integer value.toNat) option).nullable? uint32? = some option :=
  nullable?_ofOption (by simp) (by simp)

@[simp] theorem nullable?_strings (option : Option (List String)) :
    (ofOption (ofList .string) option).nullable? (list? string?) = some option :=
  nullable?_ofOption (by simp [ofList]) fun items _ => list?_ofList (by simp)

theorem nullable?_binary64 {option : Option Binary64}
    (h : ∀ value ∈ option.toList, value.isFinite = true) :
    (ofOption ofBinary64 option).nullable? binary64? = some option := by
  have hfinite : ∀ value ∈ option, value.isFinite = true :=
    fun value hvalue => h value (Option.mem_toList.mpr hvalue)
  apply nullable?_ofOption
  · intro value hvalue
    rw [ofBinary64_of_isFinite (hfinite value hvalue)]
    simp
  · exact fun value hvalue => binary64?_ofBinary64 (hfinite value hvalue)

end Parts

end Datum

end SolarTakeoff
