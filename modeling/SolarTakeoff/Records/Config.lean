import SolarTakeoff.Config.Basic
import SolarTakeoff.Records.Job

/-!
# Configurations as data

A configuration is written in three sections.  Every section and every setting
may be left out and then has its default.  In TOML, a section given as a list
may go on beyond its settings.
-/

namespace SolarTakeoff

open Datum in
def Config.toDatum (config : Config) : Datum :=
  .record [
    ("catalog", .record [("path", ofOption .string config.catalogPath)]),
    ("calculation", .record [
      ("include_optional", .bool config.includeOptional),
      ("categories", ofOption (Datum.ofList .string) config.categories)]),
    ("tax", .record [("rate_bps", config.taxRate.toDatum)])]

namespace Config

/-- The catalog section. -/
def catalogPathOf? (settings : Record) : Option (Option String) :=
  settings.lenient Datum.string? "path"

/-- The calculation section. -/
def selectionOf? (settings : Record) : Option Selection := do
  return {
    includeOptional := ← settings.defaulted Datum.bool? false "include_optional"
    categories := ← settings.lenient (Datum.list? Datum.string?) "categories" }

/-- The tax section. -/
def taxRateOf? (settings : Record) : Option TaxRate :=
  settings.defaulted TaxRate.ofDatum? .standard "rate_bps"

/-- Reads a configuration, given how to read a record of named fields. -/
def ofRecords? (record? : List String → Datum → Option Record) (datum : Datum) :
    Option Config := do
  let sections ← record? ["catalog", "calculation", "tax"] datum
  let catalogPath ← sections.defaulted
    (fun settings => record? ["path"] settings >>= catalogPathOf?) none "catalog"
  let selection ← sections.defaulted
    (fun settings => record? ["include_optional", "categories"] settings >>= selectionOf?)
    {} "calculation"
  let taxRate ← sections.defaulted
    (fun settings => record? ["rate_bps"] settings >>= taxRateOf?) .standard "tax"
  return {
    catalogPath
    includeOptional := selection.includeOptional
    categories := selection.categories
    taxRate }

def ofDatum? (datum : Datum) : Option Config :=
  ofRecords? Datum.record? datum

/-- The configuration in a TOML document, given how to read one. -/
def ofToml? (text : String) (toml? : String → Option Datum) : Option Config := do
  ofRecords? Datum.openRecord? (← toml? text)

end Config

end SolarTakeoff
