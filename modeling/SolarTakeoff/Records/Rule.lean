import SolarTakeoff.Datum.Record
import SolarTakeoff.Rule

/-!
# Rules and products as data

Strategies and product sources are tagged records: the tag stands beside the
fields of its variant.  What is read as a variant is read as a whole, so it
may hold nothing unreadable, not even in fields that are passed over.
-/

namespace SolarTakeoff

def StrategyKind.toDatum (kind : StrategyKind) : Datum :=
  .string kind.tag

/-- A kind is its exact tag, or a record with the tag as its only name and no
value. -/
def StrategyKind.ofDatum? : Datum → Option StrategyKind
  | .string tag => all.find? (·.tag == tag)
  | .record [(tag, .null)] => all.find? (·.tag == tag)
  | _ => none

open Datum in
def Strategy.toDatum : Strategy → Datum
  | .fixed => .record [("type", .string "fixed")]
  | .perPanel multiplier =>
    .record [("type", .string "per_panel"), ("multiplier", ofBinary64 multiplier)]
  | .perKilowatt multiplier =>
    .record [("type", .string "per_kw"), ("multiplier", ofBinary64 multiplier)]
  | .perBattery multiplier =>
    .record [("type", .string "per_battery"), ("multiplier", ofBinary64 multiplier)]
  | .formula expression =>
    .record [("type", .string "formula"), ("expression", .string expression)]
  | .unrecognized tag => .record [("type", .string "unrecognized"), ("tag", .string tag)]

/-- The only field of a variant. -/
def Datum.field? {α : Type} (value? : Datum → Option α) (name : String) (datum : Datum) :
    Option α := do
  (← datum.record? [name]).required value? name

/-- A variant without fields ignores named ones and refuses listed ones. -/
def Datum.noFields? : Datum → Option Unit
  | .record _ => some ()
  | .array [] => some ()
  | _ => none

def Strategy.ofDatum? (datum : Datum) : Option Strategy := do
  let (tag, content) ← datum.variant? "type"
  match tag with
  | "fixed" => content.noFields?.map fun _ => .fixed
  | "per_panel" => (content.field? Datum.binary64? "multiplier").map .perPanel
  | "per_kw" => (content.field? Datum.binary64? "multiplier").map .perKilowatt
  | "per_battery" => (content.field? Datum.binary64? "multiplier").map .perBattery
  | "formula" => (content.field? Datum.string? "expression").map .formula
  | "unrecognized" => (content.field? Datum.string? "tag").map .unrecognized
  | _ => none

open Datum in
/-- The fields of an offer. -/
def Offer.fields (offer : Offer) : List (String × Datum) :=
  [("unit_cost", ofOption ofBinary64 offer.unitCost),
    ("brand", ofOption .string offer.brand),
    ("model", ofOption .string offer.model),
    ("sku", ofOption .string offer.sku)]

def Offer.fieldNames : List String :=
  ["unit_cost", "brand", "model", "sku"]

def Record.offer? (record : Record) : Option Offer := do
  return {
    unitCost := ← record.optional Datum.binary64? "unit_cost"
    brand := ← record.optional Datum.string? "brand"
    model := ← record.optional Datum.string? "model"
    sku := ← record.optional Datum.string? "sku" }

/-- An offer whose fields may be left off the end of a list. -/
def Record.lenientOffer? (record : Record) : Option Offer := do
  return {
    unitCost := ← record.lenient Datum.binary64? "unit_cost"
    brand := ← record.lenient Datum.string? "brand"
    model := ← record.lenient Datum.string? "model"
    sku := ← record.lenient Datum.string? "sku" }

def SupplierProduct.fields (product : SupplierProduct) : List (String × Datum) :=
  [("id", .string product.id),
    ("supplier_id", .string product.supplierId),
    ("supplier_name", .string product.supplierName)] ++ product.offer.fields

def SupplierProduct.fieldNames : List String :=
  ["id", "supplier_id", "supplier_name"] ++ Offer.fieldNames

/-- A price-list entry, given how to read its offer. -/
def Datum.supplierProduct? (offer? : Record → Option Offer) (datum : Datum) :
    Option SupplierProduct := do
  let record ← datum.record? SupplierProduct.fieldNames
  return {
    id := ← record.required Datum.string? "id"
    supplierId := ← record.required Datum.string? "supplier_id"
    supplierName := ← record.required Datum.string? "supplier_name"
    offer := ← offer? record }

def ProductSource.toDatum : ProductSource → Datum
  | .direct offer => .record (("source", .string "direct") :: offer.fields)
  | .supplier product => .record (("source", .string "supplier") :: product.fields)

def ProductSource.ofDatum? (datum : Datum) : Option ProductSource := do
  let (tag, content) ← datum.variant? "source"
  match tag with
  | "direct" =>
    let record ← content.record? Offer.fieldNames
    return .direct (← record.offer?)
  | "supplier" => return .supplier (← content.supplierProduct? Record.offer?)
  | _ => none

def Candidate.toDatum (candidate : Candidate) : Datum :=
  .record [
    ("is_primary", .bool candidate.isPrimary),
    ("source", candidate.source.toDatum)]

def Candidate.ofDatum? (datum : Datum) : Option Candidate := do
  let record ← datum.record? ["is_primary", "source"]
  return {
    isPrimary := ← record.required Datum.bool? "is_primary"
    source := ← record.required ProductSource.ofDatum? "source" }

open Datum in
def Product.toDatum (product : Product) : Datum :=
  .record ([
    ("supplier_product_id", ofOption .string product.supplierProductId),
    ("supplier_id", ofOption .string product.supplierId),
    ("supplier_name", ofOption .string product.supplierName)] ++ product.offer.fields)

/-- The product in a record that may hold other fields too. -/
def Record.product? (record : Record) : Option Product := do
  return {
    supplierProductId := ← record.optional Datum.string? "supplier_product_id"
    supplierId := ← record.optional Datum.string? "supplier_id"
    supplierName := ← record.optional Datum.string? "supplier_name"
    offer := ← record.offer? }

def Product.ofDatum? (datum : Datum) : Option Product := do
  let record ← datum.record?
    (["supplier_product_id", "supplier_id", "supplier_name"] ++ Offer.fieldNames)
  record.product?

open Datum in
def Rule.toDatum (rule : Rule) : Datum :=
  .record [
    ("id", .string rule.id),
    ("name", .string rule.name),
    ("category", .string rule.category),
    ("product_type", ofOption .string rule.productType),
    ("calculation", rule.strategy.toDatum),
    ("base_quantity", ofBinary64 rule.base),
    ("round_up", .bool rule.roundUp),
    ("min_quantity", ofBinary64 rule.minimum),
    ("max_quantity", ofOption ofBinary64 rule.maximum),
    ("is_required", .bool rule.isRequired),
    ("is_active", .bool rule.isActive),
    ("priority", .integer rule.priority.toInt),
    ("unit", ofOption .string rule.unit),
    ("notes", ofOption .string rule.notes),
    ("candidates", Datum.ofList Candidate.toDatum rule.candidates)]

def Rule.ofDatum? (datum : Datum) : Option Rule := do
  let record ← datum.record? [
    "id", "name", "category", "product_type", "calculation", "base_quantity",
    "round_up", "min_quantity", "max_quantity", "is_required", "is_active",
    "priority", "unit", "notes", "candidates"]
  return {
    id := ← record.required Datum.string? "id"
    name := ← record.required Datum.string? "name"
    category := ← record.required Datum.string? "category"
    productType := ← record.optional Datum.string? "product_type"
    strategy := ← record.required Strategy.ofDatum? "calculation"
    base := ← record.required Datum.binary64? "base_quantity"
    roundUp := ← record.required Datum.bool? "round_up"
    minimum := ← record.required Datum.binary64? "min_quantity"
    maximum := ← record.optional Datum.binary64? "max_quantity"
    isRequired := ← record.required Datum.bool? "is_required"
    isActive := ← record.required Datum.bool? "is_active"
    priority := ← record.required Datum.int32? "priority"
    unit := ← record.optional Datum.string? "unit"
    notes := ← record.optional Datum.string? "notes"
    candidates := ← record.required (Datum.list? Candidate.ofDatum?) "candidates" }

end SolarTakeoff
