import SolarTakeoff.Proofs.Catalog.Lines
import SolarTakeoff.Proofs.Line.Bounds
import SolarTakeoff.Proofs.Summary.Totals
import Mathlib.Tactic

/-!
# Reports add up

A report states one total in several ways: over all lines, over the suppliers,
over the categories, and over the lines that have a price.  They agree, and no
addition made for any of them overflows, as soon as the exact total of the
lines is in range; nothing else is assumed of the setup or the job.
-/

namespace SolarTakeoff

/-- A report whose totals agree with each other and with its lines, none of
which is below zero, and whose tax is at the given rate. -/
structure Report.AddsUp (report : Report) (rate : TaxRate) : Prop where
  line_nonneg : ∀ line ∈ report.lines, 0 ≤ line.totalCost.cents.toInt
  lines : Money.SumsInRange (report.lines.map Line.totalCost)
  subtotal : report.summary.subtotal.cents.toInt =
    Money.exactSum (report.lines.map Line.totalCost)
  costed : report.summary.subtotal.cents.toInt =
    Money.exactSum ((report.lines.filter Line.isCosted).map Line.totalCost)
  suppliers : GroupsAddUp report.lines (groupBySupplier report.lines)
    report.supplierTotals report.summary.subtotal
  categories : GroupsAddUp report.lines (groupByCategory report.lines)
    report.categoryTotals report.summary.subtotal
  uncosted : ∀ line ∈ report.uncostedLines, line.totalCost = .zero
  tax : report.summary.tax = report.summary.subtotal.tax rate
  total : report.summary.total.cents.toInt =
    report.summary.subtotal.cents.toInt + report.summary.tax.cents.toInt

namespace Setup

variable {setup : Setup} {job : Job} {selection : Selection} {report : Report}

theorem exists_fits_of_mem_lines
    (hreport : (setup.reportWith job selection).value = report) :
    ∀ line ∈ report.lines, ∃ rule, line.Fits rule := by
  subst hreport
  intro line hline
  obtain ⟨rule, -, -, hvalue⟩ := mem_calculate_iff.mp hline
  exact ⟨rule, Rule.fits_of_value_line? hvalue⟩

/-- A report adds up if the exact total of its lines is in range, with the tax
and without. -/
theorem addsUp_reportWith
    (hreport : (setup.reportWith job selection).value = report)
    (hlines : Money.InRange (Money.exactSum (report.lines.map Line.totalCost)))
    (htotal : Money.InRange (Money.exactSum (report.lines.map Line.totalCost) +
      report.summary.tax.cents.toInt)) :
    report.AddsUp setup.config.taxRate := by
  have hfits := exists_fits_of_mem_lines hreport
  have hnonneg : ∀ line ∈ report.lines, 0 ≤ line.totalCost.cents.toInt := by
    intro line hline
    obtain ⟨rule, hrule⟩ := hfits line hline
    exact hrule.total_nonneg
  have hcosted : ∀ line ∈ report.lines, line.isCosted = false → line.totalCost = .zero := by
    intro line hline huncosted
    obtain ⟨rule, hrule⟩ := hfits line hline
    exact hrule.total_uncosted (by simpa [Line.isCosted] using huncosted)
  have hamounts : ∀ amount ∈ report.lines.map Line.totalCost, 0 ≤ amount.cents.toInt := by
    simpa using hnonneg
  have hexact : (totalCost report.lines).cents.toInt =
      Money.exactSum (report.lines.map Line.totalCost) :=
    Money.toInt_sum_of_nonneg hamounts hlines
  have hfilter : Money.exactSum ((report.lines.filter Line.isCosted).map Line.totalCost) =
      Money.exactSum (report.lines.map Line.totalCost) :=
    exactSum_filter_of_zero Line.isCosted hcosted
  subst hreport
  rw [← hexact] at htotal
  exact {
    line_nonneg := hnonneg
    lines := Money.sumsInRange_of_nonneg hamounts hlines
    subtotal := hexact
    costed := hexact.trans hfilter.symm
    suppliers := groupsAddUp_of_perm (Groups.flatMap_ofList_perm _ _) hnonneg hlines
    categories := groupsAddUp_of_perm (Groups.flatMap_ofList_perm _ _) hnonneg hlines
    uncosted := fun line hline => by
      obtain ⟨hmem, huncosted⟩ := List.mem_filter.mp hline
      exact hcosted line hmem (by simpa using huncosted)
    tax := rfl
    total := Money.toInt_add_of_inRange htotal }

/-- Twenty panels on a roof, at another tax rate.  One supplier serves two
categories, another one of them, the clips come from none, and the labels have
no price. -/
def roof : Setup where
  config := { taxRate := ⟨825⟩ }
  catalog := { rules := [
    { crossedRule with
      id := "rails"
      category := "MOUNTING"
      strategy := .perPanel (.ofNat 2)
      maximum := none
      priority := 2
      candidates := [{
        isPrimary := true
        source := .supplier {
          id := "r-1"
          supplierId := "s-1"
          supplierName := "Sun"
          offer := { unitCost := some (.ofNat 49 / .ofNat 4) } } }] },
    { crossedRule with
      id := "cable"
      strategy := .perKilowatt (.ofNat 3)
      maximum := none
      priority := 1
      candidates := [{
        isPrimary := false
        source := .supplier {
          id := "c-1"
          supplierId := "s-1"
          supplierName := "Sun"
          offer := { unitCost := some (.ofNat 7 / .ofNat 20) } } }] },
    { crossedRule with
      id := "clamps"
      category := "MOUNTING"
      strategy := .perPanel (.ofNat 4)
      maximum := none
      candidates := [{
        isPrimary := true
        source := .supplier {
          id := "c-9"
          supplierId := "s-2"
          supplierName := "Roof"
          offer := { unitCost := some (.ofNat 3) } } }] },
    crossedRule,
    { crossedRule with id := "labels", category := "SAFETY", candidates := [] }] }

def roofJob : Job where
  systemSize := .ofNat 8
  panelCount := 20

theorem lines_reportWith_roof :
    (roof.reportWith roofJob {}).value.lines =
      (roof.catalog.rules.filter (·.applies roofJob {})).filterMap fun rule =>
        (rule.line? roofJob).value := by
  have hordered : roof.catalog.rules.Pairwise fun first second =>
      second.priority ≤ first.priority := by decide
  exact roof.catalog.value_calculate_eq.trans (value_calculate_of_ordered hordered)

theorem addsUp_reportWith_roof :
    (roof.reportWith roofJob {}).value.supplierTotals =
        [("s-1", ⟨58660⟩), ("s-2", ⟨26100⟩), ("NO_SUPPLIER", ⟨1000⟩)] ∧
      (roof.reportWith roofJob {}).value.categoryTotals =
        [("MOUNTING", ⟨83675⟩), ("ELECTRICAL", ⟨2085⟩), ("SAFETY", ⟨0⟩)] ∧
      (roof.reportWith roofJob {}).value.uncostedLines.map Line.ruleId = ["labels"] ∧
      Money.exactSum ((roof.reportWith roofJob {}).value.lines.map Line.totalCost) = 85760 ∧
      (roof.reportWith roofJob {}).value.summary.tax.cents.toInt = 7075 ∧
      (roof.reportWith roofJob {}).value.AddsUp ⟨825⟩ := by
  have hsuppliers : (roof.reportWith roofJob {}).value.supplierTotals =
      [("s-1", ⟨58660⟩), ("s-2", ⟨26100⟩), ("NO_SUPPLIER", ⟨1000⟩)] := by
    change groupTotals (groupBySupplier (roof.reportWith roofJob {}).value.lines) = _
    rw [lines_reportWith_roof]
    decide +kernel
  have hcategories : (roof.reportWith roofJob {}).value.categoryTotals =
      [("MOUNTING", ⟨83675⟩), ("ELECTRICAL", ⟨2085⟩), ("SAFETY", ⟨0⟩)] := by
    change groupTotals (groupByCategory (roof.reportWith roofJob {}).value.lines) = _
    rw [lines_reportWith_roof]
    decide +kernel
  have huncosted : (roof.reportWith roofJob {}).value.uncostedLines.map Line.ruleId =
      ["labels"] := by
    rw [Report.uncostedLines, lines_reportWith_roof]
    decide +kernel
  have hsum : Money.exactSum ((roof.reportWith roofJob {}).value.lines.map Line.totalCost) =
      85760 := by
    rw [lines_reportWith_roof]
    decide +kernel
  have htax : (roof.reportWith roofJob {}).value.summary.tax.cents.toInt = 7075 := by
    change ((totalCost (roof.reportWith roofJob {}).value.lines).tax ⟨825⟩).cents.toInt = _
    rw [lines_reportWith_roof]
    decide +kernel
  refine ⟨hsuppliers, hcategories, huncosted, hsum, htax, addsUp_reportWith rfl ?_ ?_⟩
  · rw [hsum]
    decide
  · rw [hsum, htax]
    decide

end Setup

end SolarTakeoff
