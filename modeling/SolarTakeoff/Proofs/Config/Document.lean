import SolarTakeoff.Proofs.Datum.Schema
import SolarTakeoff.Records.Config
import Mathlib.Tactic

/-!
# What a document gives

The settings of a configuration stand in three sections, and both sections and
settings may be left out.  A document is read exactly when every setting in it
is of the right kind, and what it does not give is left at its default.
-/

namespace SolarTakeoff

variable {α : Type}

/-! ## Documents -/

/-- The settings that a file gives. -/
structure Given where
  catalogPath : Option (Option String) := none
  includeOptional : Option Bool := none
  categories : Option (Option (List String)) := none
  taxRate : Option TaxRate := none

/-- The default configuration with what is given in its place. -/
def Given.config (given : Given) : Config where
  catalogPath := given.catalogPath.getD none
  includeOptional := given.includeOptional.getD false
  categories := given.categories.getD none
  taxRate := given.taxRate.getD .standard

def IsRate (rate : TaxRate) (datum : Datum) : Prop :=
  datum = .integer rate.bps.toNat

namespace Record

/-- What a record gives for a name. -/
inductive Gives (record : Record) (name : String) (Written : α → Datum → Prop) : Option α → Prop
  | value {datum : Datum} {value : α} (hget : record.get? name = some datum)
    (h : Written value datum) : Gives record name Written (some value)
  | nothing (hget : record.get? name = none) : Gives record name Written none

/-- The section of a name, which is empty where it is left out. -/
inductive HasSection (document : Record) (name : String) (names : List String) : Record → Prop
  | given {datum : Datum} {settings : Record} (hget : document.get? name = some datum)
    (h : datum.openRecord? names = some settings) : HasSection document name names settings
  | missing (hget : document.get? name = none) : HasSection document name names ⟨false, []⟩

end Record

/-- The sections of a document give these settings. -/
def Datum.Gives (datum : Datum) (given : Given) : Prop :=
  ∃ document catalog calculation tax,
    datum.openRecord? ["catalog", "calculation", "tax"] = some document ∧
    document.HasSection "catalog" ["path"] catalog ∧
    document.HasSection "calculation" ["include_optional", "categories"] calculation ∧
    document.HasSection "tax" ["rate_bps"] tax ∧
    catalog.Gives "path" (IsNullable IsText) given.catalogPath ∧
    calculation.Gives "include_optional" IsFlag given.includeOptional ∧
    calculation.Gives "categories" (IsNullable (IsList IsText)) given.categories ∧
    tax.Gives "rate_bps" IsRate given.taxRate

/-! ## Reading documents -/

section Documents

variable {record : Record} {name : String} {names : List String} {value? : Datum → Option α}
  {Written : α → Datum → Prop} {default value : α}

theorem TaxRate.reads_ofDatum? : ReadsExactly ofDatum? IsRate := by
  intro datum rate
  constructor
  · intro h
    obtain ⟨bps, hbps, rfl⟩ := Option.map_eq_some_iff.mp h
    obtain ⟨whole, hwhole, rfl⟩ := Option.map_eq_some_iff.mp hbps
    obtain ⟨rfl, hleast, hgreatest⟩ := Datum.integer?_eq_some_iff.mp hwhole
    have hlt : whole.toNat < UInt32.size := by
      unfold UInt32.size
      omega
    rw [IsRate, UInt32.toNat_ofNat_of_lt' hlt, Int.toNat_of_nonneg hleast]
  · rintro rfl
    rw [ofDatum?, Datum.uint32?_toNat]
    rfl

theorem Record.defaulted_eq_some_iff_gives (h : ReadsExactly value? Written) :
    record.defaulted value? default name = some value ↔
      ∃ given, record.Gives name Written given ∧ given.getD default = value := by
  rw [defaulted_eq_some_iff h]
  constructor
  · rintro (⟨datum, hget, hwritten⟩ | ⟨hget, rfl⟩)
    · exact ⟨some value, .value hget hwritten, rfl⟩
    · exact ⟨none, .nothing hget, rfl⟩
  · rintro ⟨given, hgives, rfl⟩
    cases hgives with
    | value hget hwritten => exact .inl ⟨_, hget, hwritten⟩
    | nothing hget => exact .inr ⟨hget, rfl⟩

/-- A section is read as its settings are; without it, as the default. -/
theorem Record.section_eq_some_iff {read? : Record → Option α}
    (hempty : read? ⟨false, []⟩ = some default) :
    record.defaulted (fun datum => datum.openRecord? names >>= read?) default name = some value ↔
      ∃ settings, record.HasSection name names settings ∧ read? settings = some value := by
  unfold defaulted
  constructor
  · intro hread
    cases hget : record.get? name with
    | none =>
        rw [hget] at hread
        exact ⟨_, .missing hget, hempty.trans hread⟩
    | some datum =>
        rw [hget] at hread
        obtain ⟨settings, hsettings, hvalue⟩ := Option.bind_eq_some_iff.mp hread
        exact ⟨settings, .given hget hsettings, hvalue⟩
  · rintro ⟨settings, hsection, hvalue⟩
    cases hsection with
    | given hget hsettings =>
        rw [hget]
        exact Option.bind_eq_some_iff.mpr ⟨settings, hsettings, hvalue⟩
    | missing hget =>
        rw [hget]
        exact hempty.symm.trans hvalue

end Documents

namespace Config

variable {config : Config}

theorem catalogPathOf?_eq_some_iff {settings : Record} {path : Option String} :
    catalogPathOf? settings = some path ↔
      ∃ given, settings.Gives "path" (IsNullable IsText) given ∧ given.getD none = path :=
  Record.defaulted_eq_some_iff_gives (Datum.reads_nullable? Datum.reads_string? (by simp [IsText]))

theorem selectionOf?_eq_some_iff {settings : Record} {selection : Selection} :
    selectionOf? settings = some selection ↔
      ∃ flag categories, settings.Gives "include_optional" IsFlag flag ∧
        settings.Gives "categories" (IsNullable (IsList IsText)) categories ∧
        selection = ⟨flag.getD false, categories.getD none⟩ := by
  have hcategories : ReadsExactly (Datum.nullable? (Datum.list? Datum.string?))
      (IsNullable (IsList IsText)) :=
    Datum.reads_nullable? (Datum.reads_list? Datum.reads_string?) (by simp [IsList])
  constructor
  · intro h
    obtain ⟨flag, hflag, h⟩ := Option.bind_eq_some_iff.mp h
    obtain ⟨names, hnames, h⟩ := Option.bind_eq_some_iff.mp h
    obtain ⟨given, hgiven, rfl⟩ := (Record.defaulted_eq_some_iff_gives Datum.reads_bool?).mp hflag
    obtain ⟨listed, hlisted, rfl⟩ := (Record.defaulted_eq_some_iff_gives hcategories).mp hnames
    exact ⟨given, listed, hgiven, hlisted, (Option.some.inj h).symm⟩
  · rintro ⟨given, listed, hgiven, hlisted, rfl⟩
    have hflag : settings.defaulted Datum.bool? false "include_optional" =
        some (given.getD false) :=
      (Record.defaulted_eq_some_iff_gives Datum.reads_bool?).mpr ⟨given, hgiven, rfl⟩
    have hnames : settings.lenient (Datum.list? Datum.string?) "categories" =
        some (listed.getD none) :=
      (Record.defaulted_eq_some_iff_gives hcategories).mpr ⟨listed, hlisted, rfl⟩
    rw [selectionOf?, hflag, Option.bind_eq_bind, Option.bind_some, hnames]
    rfl

theorem taxRateOf?_eq_some_iff {settings : Record} {rate : TaxRate} :
    taxRateOf? settings = some rate ↔
      ∃ given, settings.Gives "rate_bps" IsRate given ∧ given.getD .standard = rate :=
  Record.defaulted_eq_some_iff_gives TaxRate.reads_ofDatum?

theorem catalogPathOf?_empty : catalogPathOf? ⟨false, []⟩ = some none :=
  rfl

theorem selectionOf?_empty : selectionOf? ⟨false, []⟩ = some {} :=
  rfl

theorem taxRateOf?_empty : taxRateOf? ⟨false, []⟩ = some .standard :=
  rfl

theorem ofRecords?_eq_some_iff {datum : Datum} :
    ofRecords? Datum.openRecord? datum = some config ↔
      ∃ given, datum.Gives given ∧ given.config = config := by
  constructor
  · intro h
    obtain ⟨document, hdocument, h⟩ := Option.bind_eq_some_iff.mp h
    obtain ⟨path, hpath, h⟩ := Option.bind_eq_some_iff.mp h
    obtain ⟨selection, hselection, h⟩ := Option.bind_eq_some_iff.mp h
    obtain ⟨rate, hrate, h⟩ := Option.bind_eq_some_iff.mp h
    obtain ⟨catalog, hcatalog, hpath⟩ :=
      (Record.section_eq_some_iff catalogPathOf?_empty).mp hpath
    obtain ⟨calculation, hcalculation, hselection⟩ :=
      (Record.section_eq_some_iff selectionOf?_empty).mp hselection
    obtain ⟨tax, htax, hrate⟩ := (Record.section_eq_some_iff taxRateOf?_empty).mp hrate
    obtain ⟨givenPath, hgivenPath, rfl⟩ := catalogPathOf?_eq_some_iff.mp hpath
    obtain ⟨flag, categories, hflag, hcategories, rfl⟩ := selectionOf?_eq_some_iff.mp hselection
    obtain ⟨givenRate, hgivenRate, rfl⟩ := taxRateOf?_eq_some_iff.mp hrate
    exact ⟨⟨givenPath, flag, categories, givenRate⟩,
      ⟨document, catalog, calculation, tax, hdocument, hcatalog, hcalculation, htax,
        hgivenPath, hflag, hcategories, hgivenRate⟩,
      Option.some.inj h⟩
  · rintro ⟨given, ⟨document, catalog, calculation, tax, hdocument, hcatalog, hcalculation, htax,
      hgivenPath, hflag, hcategories, hgivenRate⟩, rfl⟩
    have hpath := (Record.section_eq_some_iff catalogPathOf?_empty).mpr
      ⟨catalog, hcatalog, catalogPathOf?_eq_some_iff.mpr ⟨_, hgivenPath, rfl⟩⟩
    have hselection := (Record.section_eq_some_iff selectionOf?_empty).mpr
      ⟨calculation, hcalculation,
        selectionOf?_eq_some_iff.mpr ⟨_, _, hflag, hcategories, rfl⟩⟩
    have hrate := (Record.section_eq_some_iff taxRateOf?_empty).mpr
      ⟨tax, htax, taxRateOf?_eq_some_iff.mpr ⟨_, hgivenRate, rfl⟩⟩
    rw [ofRecords?, hdocument, Option.bind_eq_bind, Option.bind_some, hpath, Option.bind_eq_bind,
      Option.bind_some, hselection, Option.bind_eq_bind, Option.bind_some, hrate]
    rfl

end Config

end SolarTakeoff
