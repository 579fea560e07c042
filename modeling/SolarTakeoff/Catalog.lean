import SolarTakeoff.Json.Reader
import SolarTakeoff.Records.Rule
import SolarTakeoff.Line
import SolarTakeoff.Validation.Checks

/-!
# Catalogs

A catalog holds rules in order and keeps every one of them, whatever
validation says about it.  A snapshot is a JSON array of entries, flat records
of which each becomes one rule; most fields of an entry may be left out.  A
snapshot is read as a whole or not at all, by any reader of JSON; where none is
named it is the one of this library.
-/

namespace SolarTakeoff

/-- A candidate as a snapshot has it: a price-list entry, where there is one,
comes before the candidate's own offer. -/
structure CatalogCandidate where
  isPrimary : Bool := false
  offer : Offer := {}
  supplierProduct : Option SupplierProduct := none
deriving DecidableEq

/-- A rule as a snapshot has it. -/
structure CatalogEntry where
  id : String
  name : String
  category : String
  productType : Option String := none
  strategyTag : String
  multiplier : Binary64 := .ofNat 1
  formula : Option String := none
  base : Binary64 := .zero
  roundUp : Bool := false
  minimum : Binary64 := .zero
  maximum : Option Binary64 := none
  isRequired : Bool := false
  isActive : Bool := true
  priority : Int32 := 0
  unit : Option String := none
  notes : Option String := none
  products : List CatalogCandidate := []
deriving DecidableEq

def CatalogCandidate.candidate (entry : CatalogCandidate) : Candidate where
  isPrimary := entry.isPrimary
  source :=
    match entry.supplierProduct with
    | some product => .supplier product
    | none => .direct entry.offer

def CatalogEntry.rule (entry : CatalogEntry) : Rule where
  id := entry.id
  name := entry.name
  category := entry.category
  productType := entry.productType
  strategy := .ofTag entry.strategyTag entry.multiplier entry.formula
  base := entry.base
  roundUp := entry.roundUp
  minimum := entry.minimum
  maximum := entry.maximum
  isRequired := entry.isRequired
  isActive := entry.isActive
  priority := entry.priority
  unit := entry.unit
  notes := entry.notes
  candidates := entry.products.map CatalogCandidate.candidate

open Datum in
def CatalogCandidate.toDatum (entry : CatalogCandidate) : Datum :=
  .record ([("is_primary", .bool entry.isPrimary)] ++ entry.offer.fields ++
    [("supplier_product",
      ofOption (fun product => .record product.fields) entry.supplierProduct)])

def CatalogCandidate.ofDatum? (datum : Datum) : Option CatalogCandidate := do
  let record ← datum.record?
    (["is_primary"] ++ Offer.fieldNames ++ ["supplier_product"])
  return {
    isPrimary := ← record.defaulted Datum.bool? false "is_primary"
    offer := ← record.lenientOffer?
    supplierProduct :=
      ← record.lenient (Datum.supplierProduct? Record.lenientOffer?) "supplier_product" }

open Datum in
def CatalogEntry.toDatum (entry : CatalogEntry) : Datum :=
  .record [
    ("id", .string entry.id),
    ("name", .string entry.name),
    ("category", .string entry.category),
    ("product_type", ofOption .string entry.productType),
    ("calculation_type", .string entry.strategyTag),
    ("multiplier", ofBinary64 entry.multiplier),
    ("formula", ofOption .string entry.formula),
    ("base_quantity", ofBinary64 entry.base),
    ("round_up", .bool entry.roundUp),
    ("min_quantity", ofBinary64 entry.minimum),
    ("max_quantity", ofOption ofBinary64 entry.maximum),
    ("is_required", .bool entry.isRequired),
    ("is_active", .bool entry.isActive),
    ("priority", .integer entry.priority.toInt),
    ("unit", ofOption .string entry.unit),
    ("notes", ofOption .string entry.notes),
    ("products", Datum.ofList CatalogCandidate.toDatum entry.products)]

def CatalogEntry.ofDatum? (datum : Datum) : Option CatalogEntry := do
  let record ← datum.record? [
    "id", "name", "category", "product_type", "calculation_type", "multiplier",
    "formula", "base_quantity", "round_up", "min_quantity", "max_quantity",
    "is_required", "is_active", "priority", "unit", "notes", "products"]
  return {
    id := ← record.required Datum.string? "id"
    name := ← record.required Datum.string? "name"
    category := ← record.required Datum.string? "category"
    productType := ← record.lenient Datum.string? "product_type"
    strategyTag := ← record.required Datum.string? "calculation_type"
    multiplier := ← record.defaulted Datum.binary64? (.ofNat 1) "multiplier"
    formula := ← record.lenient Datum.string? "formula"
    base := ← record.defaulted Datum.binary64? .zero "base_quantity"
    roundUp := ← record.defaulted Datum.bool? false "round_up"
    minimum := ← record.defaulted Datum.binary64? .zero "min_quantity"
    maximum := ← record.lenient Datum.binary64? "max_quantity"
    isRequired := ← record.defaulted Datum.bool? false "is_required"
    isActive := ← record.defaulted Datum.bool? true "is_active"
    priority := ← record.defaulted Datum.int32? 0 "priority"
    unit := ← record.lenient Datum.string? "unit"
    notes := ← record.lenient Datum.string? "notes"
    products :=
      ← record.defaulted (Datum.list? CatalogCandidate.ofDatum?) [] "products" }

structure Catalog where
  rules : List Rule
deriving DecidableEq

namespace Catalog

/-- Takes the rules as they are and reports what is wrong with them. -/
def ofRules (rules : List Rule) : Traced Catalog where
  value := { rules }
  events := (catalogProblems rules).map .ruleInvalid ++ [.catalogLoaded rules.length]

/-- The entries of a snapshot. -/
def entriesOfDatum? (datum : Datum) : Option (List CatalogEntry) :=
  datum.list? CatalogEntry.ofDatum?

def ofEntries (entries : List CatalogEntry) : Traced Catalog :=
  ofRules (entries.map CatalogEntry.rule)

/-- Reads a snapshot. -/
def ofJson? (text : String) (json? : String → Option Datum := Datum.ofJson?) :
    Option (Traced Catalog) := do
  let entries ← entriesOfDatum? (← json? text)
  return ofEntries entries

/-- The active rules a query selects, in catalog order. -/
def find (catalog : Catalog) (query : Query) : List Rule :=
  catalog.rules.filter query.selects

/-- The lines of a job from the rules the catalog finds for the selection. -/
def calculate (catalog : Catalog) (job : Job) (selection : Selection) :
    Traced (List Line) :=
  SolarTakeoff.calculate job (catalog.find selection.query) selection

end Catalog

end SolarTakeoff
