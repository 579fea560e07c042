import SolarTakeoff.Catalog
import SolarTakeoff.SetupError
import SolarTakeoff.Summary

/-!
# Reports

A report is a run together with its totals: by supplier, by category and over
all, with tax at the configured rate.  What is needed for one is a setup, a
configuration with a catalog; the catalog may be given directly or lie in the
file that the configuration names.
-/

namespace SolarTakeoff

structure Report where
  job : Job
  lines : List Line
  supplierTotals : List (String × Money)
  categoryTotals : List (String × Money)
  summary : CostSummary

/-- The lines that have no price. -/
def Report.uncostedLines (report : Report) : List Line :=
  report.lines.filter (!·.isCosted)

/-- The catalog in a snapshot file. -/
def Catalog.ofFile (file : StoredFile) (json? : String → Option Datum) :
    Except SetupError (Traced Catalog) :=
  match file.text with
  | .error problem => .error (.unreadableCatalog problem)
  | .ok text =>
    match Catalog.ofJson? text json? with
    | none => .error .malformedCatalog
    | some catalog => .ok {
        value := catalog.value
        events := catalog.events ++ [.snapshotLoaded catalog.value.rules.length] }

structure Setup where
  config : Config
  catalog : Catalog

namespace Setup

/-- The setup of a configuration, given what lies at the path of its
catalog. -/
def ofConfig (config : Config) (fileAt : String → StoredFile)
    (json? : String → Option Datum := Datum.ofJson?) : Except SetupError (Traced Setup) := do
  match config.catalogPath with
  | none => throw .missingCatalog
  | some path =>
    let catalog ← Catalog.ofFile (fileAt path) json?
    return { value := { config, catalog := catalog.value }, events := catalog.events }

/-- The report of a job for an explicit selection. -/
def reportWith (setup : Setup) (job : Job) (selection : Selection) : Traced Report :=
  let run := setup.catalog.calculate job selection
  let lines := run.value
  let summary := summarize lines setup.config.taxRate
  { value := {
      job
      lines
      supplierTotals := groupTotals (groupBySupplier lines)
      categoryTotals := groupTotals (groupByCategory lines)
      summary }
    events := run.events ++ [.reportGenerated lines.length summary.total] }

/-- The report of a job for the configured selection. -/
def report (setup : Setup) (job : Job) : Traced Report :=
  setup.reportWith job setup.config.selection

end Setup

end SolarTakeoff
