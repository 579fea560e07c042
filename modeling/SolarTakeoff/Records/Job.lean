import SolarTakeoff.Datum.Record
import SolarTakeoff.Job
import SolarTakeoff.Selection
import SolarTakeoff.Summary

/-!
# Jobs, selections and amounts as data

Each type is written by `toDatum` and read back by `ofDatum?`.
-/

namespace SolarTakeoff

open Datum in
def Job.toDatum (job : Job) : Datum :=
  .record [
    ("system_size_kw", ofBinary64 job.systemSize),
    ("panel_count", .integer job.panelCount.toNat),
    ("battery_capacity_kwh", ofOption ofBinary64 job.batteryCapacity),
    ("has_battery", .bool job.hasBattery),
    ("inverter_type", ofOption .string job.inverterType),
    ("roof_type", ofOption .string job.roofType),
    ("is_ground_mount", ofOption .bool job.isGroundMount),
    ("stories", ofOption (fun stories => .integer stories.toNat) job.stories)]

def Job.ofDatum? (datum : Datum) : Option Job := do
  let record ← datum.record? [
    "system_size_kw", "panel_count", "battery_capacity_kwh", "has_battery",
    "inverter_type", "roof_type", "is_ground_mount", "stories"]
  return {
    systemSize := ← record.required Datum.binary64? "system_size_kw"
    panelCount := ← record.required Datum.uint32? "panel_count"
    batteryCapacity := ← record.lenient Datum.binary64? "battery_capacity_kwh"
    hasBattery := ← record.defaulted Datum.bool? false "has_battery"
    inverterType := ← record.lenient Datum.string? "inverter_type"
    roofType := ← record.lenient Datum.string? "roof_type"
    isGroundMount := ← record.lenient Datum.bool? "is_ground_mount"
    stories := ← record.lenient Datum.uint32? "stories" }

open Datum in
def Selection.toDatum (selection : Selection) : Datum :=
  .record [
    ("include_optional", .bool selection.includeOptional),
    ("category_filter", ofOption (Datum.ofList .string) selection.categories)]

def Selection.ofDatum? (datum : Datum) : Option Selection := do
  let record ← datum.record? ["include_optional", "category_filter"]
  return {
    includeOptional := ← record.defaulted Datum.bool? false "include_optional"
    categories := ← record.lenient (Datum.list? Datum.string?) "category_filter" }

def Money.toDatum (amount : Money) : Datum :=
  .integer amount.cents.toInt

def Money.ofDatum? (datum : Datum) : Option Money :=
  datum.int64?.map Money.mk

def TaxRate.toDatum (rate : TaxRate) : Datum :=
  .integer rate.bps.toNat

def TaxRate.ofDatum? (datum : Datum) : Option TaxRate :=
  datum.uint32?.map TaxRate.mk

def CostSummary.toDatum (summary : CostSummary) : Datum :=
  .record [
    ("subtotal", summary.subtotal.toDatum),
    ("tax_rate", summary.taxRate.toDatum),
    ("tax", summary.tax.toDatum),
    ("total", summary.total.toDatum)]

def CostSummary.ofDatum? (datum : Datum) : Option CostSummary := do
  let record ← datum.record? ["subtotal", "tax_rate", "tax", "total"]
  return {
    subtotal := ← record.required Money.ofDatum? "subtotal"
    taxRate := ← record.required TaxRate.ofDatum? "tax_rate"
    tax := ← record.required Money.ofDatum? "tax"
    total := ← record.required Money.ofDatum? "total" }

end SolarTakeoff
