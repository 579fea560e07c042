import SolarTakeoff.Proofs.Datum.Schema
import SolarTakeoff.Proofs.Records.Json
import Mathlib.Tactic

/-!
# Snapshots in writing

The entries of a snapshot, their candidates and the price-list entries of these
are records of three schemas.  A snapshot is read exactly when each of its items
is an entry in writing, whatever the order of its names, the unknown names
between them and the defaults that are left out; its catalog then has one rule
for each entry, in order.  One broken record, at any of the three levels, and
there is no catalog at all.
-/

namespace SolarTakeoff

open Datum

/-! ## Schemas -/

/-- The fields of an offer within a larger record. -/
def Offer.schema {ρ : Type} (offer : ρ → Offer) : List (Field ρ) := [
  .lenient "unit_cost" (fun record => (offer record).unitCost) IsNumber,
  .lenient "brand" (fun record => (offer record).brand) IsText,
  .lenient "model" (fun record => (offer record).model) IsText,
  .lenient "sku" (fun record => (offer record).sku) IsText]

def SupplierProduct.schema : List (Field SupplierProduct) := [
  .required "id" id IsText,
  .required "supplier_id" supplierId IsText,
  .required "supplier_name" supplierName IsText] ++ Offer.schema offer

def CatalogCandidate.schema : List (Field CatalogCandidate) :=
  [.defaulted "is_primary" isPrimary IsFlag false] ++ Offer.schema offer ++
    [.lenient "supplier_product" supplierProduct (Encodes SupplierProduct.schema)]

def CatalogEntry.schema : List (Field CatalogEntry) := [
  .required "id" id IsText,
  .required "name" name IsText,
  .required "category" category IsText,
  .lenient "product_type" productType IsText,
  .required "calculation_type" strategyTag IsText,
  .defaulted "multiplier" multiplier IsNumber (.ofNat 1),
  .lenient "formula" formula IsText,
  .defaulted "base_quantity" base IsNumber .zero,
  .defaulted "round_up" roundUp IsFlag false,
  .defaulted "min_quantity" minimum IsNumber .zero,
  .lenient "max_quantity" maximum IsNumber,
  .defaulted "is_required" isRequired IsFlag false,
  .defaulted "is_active" isActive IsFlag true,
  .defaulted "priority" priority IsWhole 0,
  .lenient "unit" unit IsText,
  .lenient "notes" notes IsText,
  .defaulted "products" products (IsList (Encodes CatalogCandidate.schema)) []]

/-! ## The readers of the three records -/

section Fields

variable {ρ : Type} {source : Record} {record : ρ} {name : String}

theorem Field.readFrom_text {get : ρ → Option String} :
    (Field.lenient name get IsText).ReadFrom record source ↔
      source.lenient string? name = some (get record) :=
  Field.readFrom_lenient reads_string? (by simp [IsText])

theorem Field.readFrom_number {get : ρ → Option Binary64} :
    (Field.lenient name get IsNumber).ReadFrom record source ↔
      source.lenient binary64? name = some (get record) :=
  Field.readFrom_lenient reads_binary64? (by simp [IsNumber])

theorem Record.lenientOffer?_eq_some_iff {offer : ρ → Offer} :
    source.lenientOffer? = some (offer record) ↔
      ∀ field ∈ Offer.schema offer, field.ReadFrom record source := by
  have hfields : offer record = ⟨(offer record).unitCost, (offer record).brand,
      (offer record).model, (offer record).sku⟩ := rfl
  rw [hfields]
  simp [lenientOffer?, Option.bind_eq_some_iff, Offer.schema, Field.readFrom_text,
    Field.readFrom_number]

end Fields

theorem SupplierProduct.reads :
    ReadsExactly (supplierProduct? Record.lenientOffer?) (Encodes schema) := by
  intro datum product
  have hnodup : (schema.map Field.name).Nodup := by decide
  refine record?_bind_eq_some_iff hnodup fun source => ?_
  simp only [schema, List.forall_mem_append, List.forall_mem_cons,
    ← Record.lenientOffer?_eq_some_iff, Field.readFrom_required reads_string?]
  cases product
  simp [Option.bind_eq_some_iff, and_assoc]

theorem CatalogCandidate.reads : ReadsExactly ofDatum? (Encodes schema) := by
  intro datum candidate
  have hnodup : (schema.map Field.name).Nodup := by decide
  refine record?_bind_eq_some_iff hnodup fun source => ?_
  simp only [schema, List.forall_mem_append, List.forall_mem_cons,
    ← Record.lenientOffer?_eq_some_iff, Field.readFrom_defaulted reads_bool?,
    Field.readFrom_lenient SupplierProduct.reads not_encodes_null]
  cases candidate
  simp [Option.bind_eq_some_iff, -Bool.exists_bool, and_assoc]

theorem CatalogEntry.reads : ReadsExactly ofDatum? (Encodes schema) := by
  intro datum entry
  have hnodup : (schema.map Field.name).Nodup := by decide
  refine record?_bind_eq_some_iff hnodup fun source => ?_
  simp only [schema, List.forall_mem_cons, Field.readFrom_required reads_string?,
    Field.readFrom_defaulted reads_bool?, Field.readFrom_defaulted reads_binary64?,
    Field.readFrom_defaulted reads_int32?, Field.readFrom_text, Field.readFrom_number,
    Field.readFrom_defaulted (reads_list? CatalogCandidate.reads)]
  constructor
  · repeat with_reducible refine of_bind_eq_some fun _ _ => ?_
    intro h
    obtain rfl := Option.some.inj h
    simp [*]
  · intro h
    simp [h]

/-- The written form of an entry is one of many: names may be reordered, unknown
ones inserted, and defaults left out. -/
theorem CatalogEntry.encodes_toDatum {entry : CatalogEntry} (h : AllFinite (codec.floats entry)) :
    Encodes schema entry entry.toDatum :=
  (reads entry.toDatum entry).mp (readsBack entry h)

/-! ## Broken records at every level -/

/-- An item of a snapshot has a broken record in it: itself, a candidate of
its products, or the price-list entry of a candidate. -/
inductive HasBrokenRecord (item : Datum) : Prop
  | entry (h : Broken CatalogEntry.schema item)
  | candidate {fields : List (String × Datum)} {candidates : List Datum} {candidate : Datum}
    (hlists : Lists (CatalogEntry.schema.map Field.name) item fields)
    (hproducts : ("products", .array candidates) ∈ fields) (hmem : candidate ∈ candidates)
    (h : Broken CatalogCandidate.schema candidate)
  | supplierProduct {fields parts : List (String × Datum)} {candidates : List Datum}
    {candidate product : Datum} (hlists : Lists (CatalogEntry.schema.map Field.name) item fields)
    (hproducts : ("products", .array candidates) ∈ fields) (hmem : candidate ∈ candidates)
    (hparts : Lists (CatalogCandidate.schema.map Field.name) candidate parts)
    (hproduct : ("supplier_product", product) ∈ parts) (hnull : product ≠ .null)
    (h : Broken SupplierProduct.schema product)

theorem CatalogCandidate.broken_of_supplierProduct {candidate product : Datum}
    {parts : List (String × Datum)} (hparts : Lists (schema.map Field.name) candidate parts)
    (hproduct : ("supplier_product", product) ∈ parts) (hnull : product ≠ .null)
    (h : Broken SupplierProduct.schema product) : Broken schema candidate := by
  refine .illTyped parts (.lenient "supplier_product" supplierProduct
    (Encodes SupplierProduct.schema)) product hparts (by simp [schema]) hproduct ?_
  rintro ⟨isPrimary, offer, supplierProduct⟩ hwritten
  cases supplierProduct with
  | none => exact hnull hwritten
  | some value => exact h.not_encodes value hwritten

theorem CatalogEntry.broken_of_candidate {item candidate : Datum} {candidates : List Datum}
    {fields : List (String × Datum)} (hlists : Lists (schema.map Field.name) item fields)
    (hproducts : ("products", .array candidates) ∈ fields) (hmem : candidate ∈ candidates)
    (h : Broken CatalogCandidate.schema candidate) : Broken schema item := by
  refine .illTyped fields (.defaulted "products" products
    (IsList (Encodes CatalogCandidate.schema)) []) (.array candidates) hlists
    (by simp [schema]) hproducts ?_
  rintro record ⟨items, hitems, hwritten⟩
  obtain rfl := Datum.array.inj hitems
  obtain ⟨value, hvalue⟩ := exists_of_forall₂_of_mem hwritten hmem
  exact h.not_encodes value hvalue

theorem HasBrokenRecord.broken {item : Datum} (h : HasBrokenRecord item) :
    Broken CatalogEntry.schema item := by
  cases h with
  | entry hbroken => exact hbroken
  | candidate hlists hproducts hmem hbroken =>
      exact CatalogEntry.broken_of_candidate hlists hproducts hmem hbroken
  | supplierProduct hlists hproducts hmem hparts hproduct hnull hbroken =>
      exact CatalogEntry.broken_of_candidate hlists hproducts hmem
        (CatalogCandidate.broken_of_supplierProduct hparts hproduct hnull hbroken)

/-! ## The whole snapshot -/

theorem Catalog.entriesOfDatum?_eq_some_iff {datum : Datum} {entries : List CatalogEntry} :
    entriesOfDatum? datum = some entries ↔
      ∃ items, datum = .array items ∧ List.Forall₂ (Encodes CatalogEntry.schema) entries items :=
  reads_list? CatalogEntry.reads datum entries

theorem Catalog.ofJson?_eq_some_iff {json? : String → Option Datum} {text : String}
    {loaded : Traced Catalog} :
    ofJson? text json? = some loaded ↔
      ∃ items entries, json? text = some (.array items) ∧
        List.Forall₂ (Encodes CatalogEntry.schema) entries items ∧
        loaded = ofEntries entries := by
  constructor
  · intro h
    obtain ⟨datum, hdatum, hread⟩ := Option.bind_eq_some_iff.mp h
    obtain ⟨entries, hentries, hloaded⟩ := Option.bind_eq_some_iff.mp hread
    obtain ⟨items, rfl, hitems⟩ := entriesOfDatum?_eq_some_iff.mp hentries
    exact ⟨items, entries, hdatum, hitems, (Option.some.inj hloaded).symm⟩
  · rintro ⟨items, entries, hdatum, hitems, rfl⟩
    have hentries : entriesOfDatum? (.array items) = some entries :=
      entriesOfDatum?_eq_some_iff.mpr ⟨items, rfl, hitems⟩
    rw [ofJson?, hdatum, Option.bind_eq_bind, Option.bind_some, hentries]
    rfl

/-- Whatever reads the text, a snapshot is read exactly when its items are
entries in writing, and then every entry gives its rule, in order; with a broken
record anywhere there is no catalog. -/
theorem Catalog.rules_ofJson?_iff_encodes (json? : String → Option Datum) (text : String) :
    (∀ rules, (ofJson? text json?).map (·.value.rules) = some rules ↔
      ∃ items entries, json? text = some (.array items) ∧
        List.Forall₂ (Encodes CatalogEntry.schema) entries items ∧
        rules = entries.map CatalogEntry.rule) ∧
      ∀ items, json? text = some (.array items) →
        (∃ item ∈ items, HasBrokenRecord item) → ofJson? text json? = none := by
  constructor
  · intro rules
    rw [Option.map_eq_some_iff]
    constructor
    · rintro ⟨loaded, hloaded, rfl⟩
      obtain ⟨items, entries, hdatum, hitems, rfl⟩ := ofJson?_eq_some_iff.mp hloaded
      exact ⟨items, entries, hdatum, hitems, rfl⟩
    · rintro ⟨items, entries, hdatum, hitems, rfl⟩
      exact ⟨_, ofJson?_eq_some_iff.mpr ⟨items, entries, hdatum, hitems, rfl⟩, rfl⟩
  · rintro items hdatum ⟨item, hitem, hbroken⟩
    rw [Option.eq_none_iff_forall_ne_some]
    intro loaded hloaded
    obtain ⟨others, entries, hothers, hentries, -⟩ := ofJson?_eq_some_iff.mp hloaded
    obtain rfl : items = others := by
      rw [hdatum] at hothers
      exact Datum.array.inj (Option.some.inj hothers)
    obtain ⟨entry, hentry⟩ := exists_of_forall₂_of_mem hentries hitem
    exact hbroken.broken.not_encodes entry hentry

/-! A snapshot whose records have their names out of order, unknown names
between them, and no field that holds its default. -/

def looseProduct : Datum :=
  .record [
    ("supplier_name", .string "Sun"), ("weight", .integer 2),
    ("supplier_id", .string "s-1"), ("id", .string "p-1")]

def looseCandidate : Datum :=
  .record [("supplier_product", looseProduct), ("rating", .bool true)]

def looseItem : Datum :=
  .record [
    ("priority", .integer 3), ("name", .string "Clamps"), ("colour", .null),
    ("products", .array [looseCandidate]), ("calculation_type", .string "FIXED"),
    ("id", .string "c-1"), ("colour", .string "grey"), ("category", .string "MOUNTING")]

def looseEntry : CatalogEntry where
  id := "c-1"
  name := "Clamps"
  category := "MOUNTING"
  strategyTag := "FIXED"
  priority := 3
  products := [{
    supplierProduct := some {
      id := "p-1"
      supplierId := "s-1"
      supplierName := "Sun"
      offer := {} } }]

/-- An item without a category. -/
def uncategorizedItem : Datum :=
  .record [("id", .string "c-2"), ("name", .string "Rail"), ("calculation_type", .string "FIXED")]

theorem encodes_looseItem : Encodes CatalogEntry.schema looseEntry looseItem := by
  apply (CatalogEntry.reads looseItem looseEntry).mp
  rfl

theorem hasBrokenRecord_uncategorizedItem : HasBrokenRecord uncategorizedItem := by
  refine .entry (.missing _ (.required "category" CatalogEntry.category IsText) (.named _)
    (by simp [CatalogEntry.schema]) (fun _ => not_false) ?_)
  simp [Field.required]

theorem writable_looseItem : Json.Writable Datum.ofJson? .plain 4 looseItem := by
  have hstring := Json.Printer.readsBack_plain_string
  have hproduct : Json.Writable Datum.ofJson? .plain 1 looseProduct := by
    apply Json.writable_record hstring
    simp [Json.writable_string hstring, Json.Writable.integer]
  have hcandidate : Json.Writable Datum.ofJson? .plain 2 looseCandidate := by
    apply Json.writable_record hstring
    simp [hproduct]
  have hproducts : Json.Writable Datum.ofJson? .plain 3 (.array [looseCandidate]) := by
    apply Json.Writable.array
    simp [hcandidate]
  apply Json.writable_record hstring
  simp [Json.writable_string hstring, Json.Writable.integer, Json.Writable.null, hproducts]

theorem writable_uncategorizedItem : Json.Writable Datum.ofJson? .plain 4 uncategorizedItem := by
  apply Json.writable_record Json.Printer.readsBack_plain_string
  simp [Json.writable_string Json.Printer.readsBack_plain_string]

theorem ofJson?_json_array {items : List Datum}
    (h : ∀ item ∈ items, Json.Writable Datum.ofJson? .plain 4 item) :
    Datum.ofJson? ((Datum.array items).json .plain) = some (.array items) :=
  (Json.Writable.array h).readsBack (by decide)

theorem Catalog.ofJson?_looseItem_uncategorizedItem :
    Datum.ofJson? ((Datum.array [looseItem]).json .plain) = some (.array [looseItem]) ∧
      (ofJson? ((Datum.array [looseItem]).json .plain)).map (·.value.rules) =
        some [looseEntry.rule] ∧
      Datum.ofJson? ((Datum.array [looseItem, uncategorizedItem]).json .plain) =
        some (.array [looseItem, uncategorizedItem]) ∧
      HasBrokenRecord uncategorizedItem ∧
      ofJson? ((Datum.array [looseItem, uncategorizedItem]).json .plain) = none := by
  have hloose : Datum.ofJson? ((Datum.array [looseItem]).json .plain) =
      some (.array [looseItem]) :=
    ofJson?_json_array (by simp [writable_looseItem])
  have hbroken : Datum.ofJson? ((Datum.array [looseItem, uncategorizedItem]).json .plain) =
      some (.array [looseItem, uncategorizedItem]) :=
    ofJson?_json_array (by simp [writable_looseItem, writable_uncategorizedItem])
  refine ⟨hloose, ?_, hbroken, hasBrokenRecord_uncategorizedItem, ?_⟩
  · exact ((rules_ofJson?_iff_encodes Datum.ofJson? _).1 _).mpr
      ⟨[looseItem], [looseEntry], hloose, .cons encodes_looseItem .nil, rfl⟩
  · exact (rules_ofJson?_iff_encodes Datum.ofJson? _).2 _ hbroken
      ⟨uncategorizedItem, by simp, hasBrokenRecord_uncategorizedItem⟩

end SolarTakeoff
