import SolarTakeoff.Line
import SolarTakeoff.Records.Job
import SolarTakeoff.Records.Rule

/-!
# Lines as data

The product of a line stands among the fields of the line itself.
-/

namespace SolarTakeoff

open Datum in
def Line.toDatum (line : Line) : Datum :=
  .record [
    ("rule_id", .string line.ruleId),
    ("rule_name", .string line.ruleName),
    ("category", .string line.category),
    ("product_type", ofOption .string line.productType),
    ("quantity", ofBinary64 line.quantity),
    ("unit", .string line.unit),
    ("unit_cost", ofOption ofBinary64 line.product.offer.unitCost),
    ("total_cost", line.totalCost.toDatum),
    ("supplier_product_id", ofOption .string line.product.supplierProductId),
    ("supplier_id", ofOption .string line.product.supplierId),
    ("supplier_name", ofOption .string line.product.supplierName),
    ("brand", ofOption .string line.product.offer.brand),
    ("model", ofOption .string line.product.offer.model),
    ("sku", ofOption .string line.product.offer.sku),
    ("notes", ofOption .string line.notes),
    ("calculation_details", .string line.details)]

def Line.ofDatum? (datum : Datum) : Option Line := do
  let record ← datum.record? [
    "rule_id", "rule_name", "category", "product_type", "quantity", "unit",
    "unit_cost", "total_cost", "supplier_product_id", "supplier_id",
    "supplier_name", "brand", "model", "sku", "notes", "calculation_details"]
  return {
    ruleId := ← record.required Datum.string? "rule_id"
    ruleName := ← record.required Datum.string? "rule_name"
    category := ← record.required Datum.string? "category"
    productType := ← record.optional Datum.string? "product_type"
    quantity := ← record.required Datum.binary64? "quantity"
    unit := ← record.required Datum.string? "unit"
    totalCost := ← record.required Money.ofDatum? "total_cost"
    product := ← record.product?
    notes := ← record.optional Datum.string? "notes"
    details := ← record.required Datum.string? "calculation_details" }

end SolarTakeoff
