import SolarTakeoff.Datum.Record
import SolarTakeoff.Proofs.Records.Fields
import Mathlib.Data.List.Forall2
import Mathlib.Tactic

/-!
# Schemas of records

What it means for a datum to be a record in writing, said field by field and
not by reading it.  The names of a record may stand in any order, other names
may stand anywhere between them, and a field may be left out where its schema
allows.  A datum is broken when no record can be written so: a known name
repeats, a required one is missing, or a field holds what no value of it is
written as.
-/

namespace SolarTakeoff

variable {α ρ : Type}

/-! ## Values -/

def IsText (value : String) (datum : Datum) : Prop :=
  datum = .string value

def IsFlag (value : Bool) (datum : Datum) : Prop :=
  datum = .bool value

def IsWhole (value : Int32) (datum : Datum) : Prop :=
  datum = .integer value.toInt

/-- A number may be written as a whole number that rounds to it. -/
def IsNumber (value : Binary64) (datum : Datum) : Prop :=
  datum = .number value ∨ ∃ whole, datum = .integer whole ∧ .ofInt whole = value

/-- What may be absent is written as null then. -/
def IsNullable (Written : α → Datum → Prop) : Option α → Datum → Prop
  | none, datum => datum = .null
  | some value, datum => Written value datum

def IsList (Written : α → Datum → Prop) (values : List α) (datum : Datum) : Prop :=
  ∃ items, datum = .array items ∧ List.Forall₂ Written values items

/-- A reader that takes exactly what a value is written as. -/
def ReadsExactly (value? : Datum → Option α) (Written : α → Datum → Prop) : Prop :=
  ∀ datum value, value? datum = some value ↔ Written value datum

namespace Datum

theorem reads_string? : ReadsExactly string? IsText := by
  intro datum value
  cases datum <;> simp [string?, IsText]

theorem reads_bool? : ReadsExactly bool? IsFlag := by
  intro datum value
  cases datum <;> simp [bool?, IsFlag]

theorem reads_binary64? : ReadsExactly binary64? IsNumber := by
  intro datum value
  cases datum <;> simp [binary64?, IsNumber]

theorem integer?_eq_some_iff {datum : Datum} {least greatest value : ℤ} :
    datum.integer? least greatest = some value ↔
      datum = .integer value ∧ least ≤ value ∧ value ≤ greatest := by
  cases datum with
  | integer whole =>
      simp only [integer?, integer.injEq, Option.ite_none_right_eq_some, Option.some.injEq]
      constructor
      · rintro ⟨hrange, rfl⟩
        exact ⟨rfl, hrange⟩
      · rintro ⟨rfl, hrange⟩
        exact ⟨hrange, rfl⟩
  | _ => simp [integer?]

theorem reads_int32? : ReadsExactly int32? IsWhole := by
  intro datum value
  constructor
  · intro h
    obtain ⟨whole, hwhole, rfl⟩ := Option.map_eq_some_iff.mp h
    obtain ⟨rfl, hleast, hgreatest⟩ := integer?_eq_some_iff.mp hwhole
    rw [IsWhole, Int32.toInt_ofInt_of_le hleast (by omega)]
  · rintro rfl
    exact int32?_toInt value

theorem reads_nullable? {value? : Datum → Option α} {Written : α → Datum → Prop}
    (h : ReadsExactly value? Written) (hnull : ∀ value, ¬ Written value .null) :
    ReadsExactly (nullable? value?) (IsNullable Written) := by
  intro datum option
  by_cases hdatum : datum = .null
  · subst hdatum
    cases option with
    | none => simp [nullable?, IsNullable]
    | some value => simp [nullable?, IsNullable, hnull value]
  · rw [nullable?_of_ne_null hdatum]
    cases option with
    | none => simp [IsNullable, hdatum]
    | some value => simp [IsNullable, h datum value]

theorem mapM_eq_some_iff {value? : Datum → Option α} {Written : α → Datum → Prop}
    (h : ReadsExactly value? Written) {items : List Datum} {values : List α} :
    items.mapM value? = some values ↔ List.Forall₂ Written values items := by
  induction items generalizing values with
  | nil => cases values <;> simp
  | cons item items ih =>
      rw [List.mapM_cons]
      cases values with
      | nil => simp [Option.bind_eq_some_iff]
      | cons value values => simp [Option.bind_eq_some_iff, h item value, ih]

theorem reads_list? {value? : Datum → Option α} {Written : α → Datum → Prop}
    (h : ReadsExactly value? Written) : ReadsExactly (list? value?) (IsList Written) := by
  intro datum values
  cases datum with
  | array items => simp [list?, IsList, mapM_eq_some_iff h]
  | _ => simp [list?, IsList]

end Datum

theorem exists_of_forall₂_of_mem {Written : α → Datum → Prop} {values : List α}
    {items : List Datum} {item : Datum} (h : List.Forall₂ Written values items)
    (hmem : item ∈ items) : ∃ value, Written value item := by
  induction h with
  | nil => cases hmem
  | cons hwritten _ ih =>
      rcases List.mem_cons.mp hmem with rfl | hrest
      · exact ⟨_, hwritten⟩
      · exact ih hrest

/-! ## Fields -/

/-- A field of a record: its name, what it is written as, and when it may be
left out. -/
structure Field (ρ : Type) where
  name : String
  Written : ρ → Datum → Prop
  Omissible : ρ → Prop

namespace Field

/-- A field that may not be left out. -/
def required (name : String) (get : ρ → α) (Written : α → Datum → Prop) : Field ρ where
  name
  Written record := Written (get record)
  Omissible _ := False

/-- A field that may be left out when it holds its default. -/
def defaulted (name : String) (get : ρ → α) (Written : α → Datum → Prop) (default : α) :
    Field ρ where
  name
  Written record := Written (get record)
  Omissible record := get record = default

/-- A field that may be null, and left out then. -/
def lenient (name : String) (get : ρ → Option α) (Written : α → Datum → Prop) : Field ρ :=
  defaulted name get (IsNullable Written) none

/-- The fields of a datum have this one once and rightly written, or leave it
out where they may. -/
structure WrittenIn (field : Field ρ) (record : ρ) (fields : List (String × Datum)) : Prop where
  once : (fields.map Prod.fst).count field.name ≤ 1
  written : (∃ datum, (field.name, datum) ∈ fields ∧ field.Written record datum) ∨
    (∀ datum, (field.name, datum) ∉ fields) ∧ field.Omissible record

/-- The same of a record that has been looked up by name. -/
def ReadFrom (field : Field ρ) (record : ρ) (source : Record) : Prop :=
  (∃ datum, source.get? field.name = some datum ∧ field.Written record datum) ∨
    source.get? field.name = none ∧ field.Omissible record

end Field

/-- The fields that a datum lists: by name, or in the order of the names. -/
inductive Datum.Lists (names : List String) : Datum → List (String × Datum) → Prop
  | named (fields : List (String × Datum)) : Lists names (.record fields) fields
  | ordered (items : List Datum) (h : items.length ≤ names.length) :
    Lists names (.array items) (names.zip items)

/-- The datum is the record in writing. -/
def Encodes (schema : List (Field ρ)) (record : ρ) (datum : Datum) : Prop :=
  ∃ fields, Datum.Lists (schema.map Field.name) datum fields ∧
    ∀ field ∈ schema, field.WrittenIn record fields

/-- What is wrong with a datum that is no record in writing. -/
inductive Broken (schema : List (Field ρ)) (datum : Datum) : Prop
  | noRecord (h : ∀ fields, ¬ Datum.Lists (schema.map Field.name) datum fields)
  | repeated (fields : List (String × Datum)) (field : Field ρ)
    (hlists : Datum.Lists (schema.map Field.name) datum fields) (hfield : field ∈ schema)
    (h : 1 < (fields.map Prod.fst).count field.name)
  | missing (fields : List (String × Datum)) (field : Field ρ)
    (hlists : Datum.Lists (schema.map Field.name) datum fields) (hfield : field ∈ schema)
    (hrequired : ∀ record, ¬ field.Omissible record) (h : ∀ part, (field.name, part) ∉ fields)
  | illTyped (fields : List (String × Datum)) (field : Field ρ) (part : Datum)
    (hlists : Datum.Lists (schema.map Field.name) datum fields) (hfield : field ∈ schema)
    (hpart : (field.name, part) ∈ fields) (h : ∀ record, ¬ field.Written record part)

/-! ## Reading records -/

section Lookup

variable {names : List String} {name : String} {datum part : Datum}
  {fields : List (String × Datum)}

theorem lookup_eq_none_iff_forall :
    fields.lookup name = none ↔ ∀ part, (name, part) ∉ fields := by
  rw [List.lookup_eq_none_iff]
  constructor
  · intro h part hmem
    simpa using h _ hmem
  · rintro h ⟨other, part⟩ hmem
    rw [bne_iff_ne]
    rintro rfl
    exact h part hmem

theorem lookup_eq_some_iff_mem (honce : (fields.map Prod.fst).count name ≤ 1) :
    fields.lookup name = some part ↔ (name, part) ∈ fields := by
  induction fields with
  | nil => simp
  | cons first fields ih =>
      obtain ⟨other, datum⟩ := first
      rw [List.map_cons, List.count_cons] at honce
      by_cases hname : name = other
      · subst hname
        have hnone : (name, part) ∉ fields := by
          intro hmem
          have hpos : 0 < (fields.map Prod.fst).count name :=
            List.count_pos_iff.mpr (List.mem_map.mpr ⟨_, hmem, rfl⟩)
          simp only [beq_self_eq_true, if_true] at honce
          omega
        simp [hnone, eq_comm]
      · rw [List.lookup_cons, beq_eq_false_iff_ne.mpr hname]
        simp [ih (by omega), hname]

theorem sublist_map_fst_zip (names : List String) (items : List Datum) :
    ((names.zip items).map Prod.fst).Sublist names := by
  induction names generalizing items with
  | nil => simp
  | cons name names ih =>
      cases items with
      | nil => simp
      | cons item items => simpa using ih items

/-- A record is found where the datum lists fields and no name repeats. -/
theorem Datum.exists_record?_iff (hnodup : names.Nodup) :
    (∃ positional, datum.record? names = some ⟨positional, fields⟩) ↔
      Datum.Lists names datum fields ∧ ∀ name ∈ names, (fields.map Prod.fst).count name ≤ 1 := by
  constructor
  · rintro ⟨positional, h⟩
    cases datum with
    | record others =>
        simp only [record?, List.all_eq_true, decide_eq_true_eq, length_filter_name] at h
        split at h
        · next honce =>
            obtain ⟨-, rfl⟩ := Record.mk.inj (Option.some.inj h)
            exact ⟨.named others, honce⟩
        · cases h
    | array items =>
        simp only [record?] at h
        split at h
        · next hlength =>
            obtain ⟨-, rfl⟩ := Record.mk.inj (Option.some.inj h)
            refine ⟨.ordered items hlength, fun name _ => ?_⟩
            exact List.nodup_iff_count_le_one.mp
              (hnodup.sublist (sublist_map_fst_zip names items)) name
        · cases h
    | _ => cases h
  · rintro ⟨hlists, honce⟩
    cases hlists with
    | named =>
        refine ⟨false, ?_⟩
        simp only [record?, List.all_eq_true, decide_eq_true_eq, length_filter_name]
        exact if_pos honce
    | ordered items hlength => exact ⟨true, if_pos hlength⟩

end Lookup

section Schemas

variable {schema : List (Field ρ)} {field : Field ρ} {record : ρ} {source : Record}
  {datum : Datum}

theorem Field.readFrom_iff_writtenIn
    (honce : (source.fields.map Prod.fst).count field.name ≤ 1) :
    field.ReadFrom record source ↔ field.WrittenIn record source.fields := by
  have hiff : field.ReadFrom record source ↔
      (∃ part, (field.name, part) ∈ source.fields ∧ field.Written record part) ∨
        (∀ part, (field.name, part) ∉ source.fields) ∧ field.Omissible record := by
    unfold ReadFrom Record.get?
    simp only [lookup_eq_some_iff_mem honce, lookup_eq_none_iff_forall]
  rw [hiff]
  exact ⟨fun h => ⟨honce, h⟩, fun h => h.written⟩

/-- A reader that looks up every field of a schema by its name takes exactly
what a record is written as. -/
theorem record?_bind_eq_some_iff {fields? : Record → Option ρ}
    (hnodup : (schema.map Field.name).Nodup)
    (hread : ∀ source, fields? source = some record ↔
      ∀ field ∈ schema, field.ReadFrom record source) :
    datum.record? (schema.map Field.name) >>= fields? = some record ↔
      Encodes schema record datum := by
  constructor
  · intro h
    obtain ⟨⟨positional, fields⟩, hsource, hrecord⟩ := Option.bind_eq_some_iff.mp h
    obtain ⟨hlists, honce⟩ := (Datum.exists_record?_iff hnodup).mp ⟨positional, hsource⟩
    refine ⟨fields, hlists, fun field hfield => ?_⟩
    exact (Field.readFrom_iff_writtenIn (honce _ (List.mem_map_of_mem hfield))).mp
      ((hread _).mp hrecord field hfield)
  · rintro ⟨fields, hlists, hwritten⟩
    have honce : ∀ name ∈ schema.map Field.name, (fields.map Prod.fst).count name ≤ 1 := by
      intro name hname
      obtain ⟨field, hfield, rfl⟩ := List.mem_map.mp hname
      exact (hwritten field hfield).once
    obtain ⟨positional, hsource⟩ := (Datum.exists_record?_iff hnodup).mpr ⟨hlists, honce⟩
    refine Option.bind_eq_some_iff.mpr ⟨_, hsource, (hread _).mpr fun field hfield => ?_⟩
    exact (Field.readFrom_iff_writtenIn (hwritten field hfield).once).mpr (hwritten field hfield)

/-! ## The same record in other writing -/

/-- The order of names does not matter. -/
theorem Encodes.perm {fields others : List (String × Datum)}
    (h : Encodes schema record (.record fields)) (hperm : fields.Perm others) :
    Encodes schema record (.record others) := by
  obtain ⟨fields, hlists, hwritten⟩ := h
  cases hlists
  refine ⟨others, .named others, fun field hfield => ?_⟩
  obtain ⟨honce, hpart⟩ := hwritten field hfield
  refine ⟨(hperm.map Prod.fst).count_eq field.name ▸ honce, ?_⟩
  simpa only [hperm.mem_iff] using hpart

/-- Unknown names may stand anywhere. -/
theorem Encodes.insert {name : String} {part : Datum} {before after : List (String × Datum)}
    (h : Encodes schema record (.record (before ++ after)))
    (hname : name ∉ schema.map Field.name) :
    Encodes schema record (.record (before ++ (name, part) :: after)) := by
  apply Encodes.perm _ List.perm_middle.symm
  obtain ⟨fields, hlists, hwritten⟩ := h
  cases hlists
  refine ⟨_, .named _, fun field hfield => ?_⟩
  have hne : field.name ≠ name := by
    rintro rfl
    exact hname (List.mem_map_of_mem hfield)
  obtain ⟨honce, hpart⟩ := hwritten field hfield
  constructor
  · rw [List.map_cons, List.count_cons_of_ne hne.symm]
    exact honce
  · simpa [hne] using hpart

/-- What may be left out can be left out. -/
theorem Encodes.erase {part : Datum} {before after : List (String × Datum)}
    (h : Encodes schema record (.record (before ++ (field.name, part) :: after)))
    (hnodup : (schema.map Field.name).Nodup) (hfield : field ∈ schema)
    (homissible : field.Omissible record) :
    Encodes schema record (.record (before ++ after)) := by
  obtain ⟨fields, hlists, hwritten⟩ := h.perm List.perm_middle
  cases hlists
  refine ⟨_, .named _, fun other hother => ?_⟩
  obtain ⟨honce, hpart⟩ := hwritten other hother
  rw [List.map_cons, List.count_cons] at honce
  by_cases hname : other.name = field.name
  · obtain rfl : other = field := List.inj_on_of_nodup_map hnodup hother hfield hname
    simp only [beq_self_eq_true, if_true] at honce
    refine ⟨by omega, .inr ⟨fun rest hrest => ?_, homissible⟩⟩
    have hpos : 0 < ((before ++ after).map Prod.fst).count other.name :=
      List.count_pos_iff.mpr (List.mem_map.mpr ⟨_, hrest, rfl⟩)
    omega
  · exact ⟨by omega, by simpa [hname] using hpart⟩

/-! ## Broken records -/

theorem Datum.Lists.unique {names : List String} {fields others : List (String × Datum)}
    (h : Datum.Lists names datum fields) (hothers : Datum.Lists names datum others) :
    others = fields := by
  cases h <;> cases hothers <;> rfl

/-- Nothing can be written as a broken datum. -/
theorem Broken.not_encodes (h : Broken schema datum) (record : ρ) :
    ¬ Encodes schema record datum := by
  rintro ⟨written, hwritten, hfields⟩
  cases h with
  | noRecord hnone => exact hnone written hwritten
  | repeated fields field hlists hfield hcount =>
      obtain rfl := hwritten.unique hlists
      have honce := (hfields field hfield).once
      omega
  | missing fields field hlists hfield hrequired hnone =>
      obtain rfl := hwritten.unique hlists
      rcases (hfields field hfield).written with ⟨part, hpart, -⟩ | ⟨-, homitted⟩
      · exact hnone part hpart
      · exact hrequired record homitted
  | illTyped fields field part hlists hfield hpart hnone =>
      obtain rfl := hwritten.unique hlists
      have hwrittenIn := hfields field hfield
      rcases hwrittenIn.written with ⟨other, hother, hwrittenPart⟩ | ⟨habsent, -⟩
      · have hsame : some other = some part := by
          rw [← (lookup_eq_some_iff_mem hwrittenIn.once).mpr hother,
            (lookup_eq_some_iff_mem hwrittenIn.once).mpr hpart]
        obtain rfl := Option.some.inj hsame
        exact hnone record hwrittenPart
      · exact habsent part hpart

theorem not_encodes_null (record : ρ) : ¬ Encodes schema record .null := by
  rintro ⟨fields, hlists, -⟩
  cases hlists

end Schemas

/-! ## Reading one field -/

theorem Record.defaulted_eq_some_iff {source : Record} {value? : Datum → Option α}
    {Written : α → Datum → Prop} {name : String} {default value : α}
    (h : ReadsExactly value? Written) :
    source.defaulted value? default name = some value ↔
      (∃ datum, source.get? name = some datum ∧ Written value datum) ∨
        source.get? name = none ∧ value = default := by
  unfold defaulted
  cases source.get? name with
  | none => simp [eq_comm]
  | some datum => simp [h datum value]

namespace Field

variable {source : Record} {record : ρ} {get : ρ → α} {value? : Datum → Option α}
  {Written : α → Datum → Prop} {name : String} {default : α}

theorem readFrom_required (h : ReadsExactly value? Written) :
    (required name get Written).ReadFrom record source ↔
      source.required value? name = some (get record) := by
  simp [ReadFrom, required, Record.required, Option.bind_eq_some_iff, h _ (get record)]

theorem readFrom_defaulted (h : ReadsExactly value? Written) :
    (defaulted name get Written default).ReadFrom record source ↔
      source.defaulted value? default name = some (get record) :=
  (Record.defaulted_eq_some_iff h).symm

theorem readFrom_lenient {get : ρ → Option α} (h : ReadsExactly value? Written)
    (hnull : ∀ value, ¬ Written value .null) :
    (lenient name get Written).ReadFrom record source ↔
      source.lenient value? name = some (get record) :=
  readFrom_defaulted (Datum.reads_nullable? h hnull)

end Field

/-- One step of reading a record: a field has a value, and the rest is read with it. -/
theorem of_bind_eq_some {β : Type} {first : Option α} {next : α → Option β} {result : β}
    {p : Prop} (h : ∀ value, first = some value → next value = some result → p) :
    (first >>= next) = some result → p := by
  intro hbind
  obtain ⟨value, hvalue, hnext⟩ := Option.bind_eq_some_iff.mp hbind
  exact h value hvalue hnext

end SolarTakeoff
