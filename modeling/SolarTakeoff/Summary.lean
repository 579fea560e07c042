import SolarTakeoff.Line

/-!
# Groups, totals and tax

Lines are grouped under a key; groups come in the order in which their keys
first appear, and each keeps the order of its lines.
-/

namespace SolarTakeoff

/-- Groups of values by key. -/
abbrev Groups (α : Type) :=
  List (String × List α)

namespace Groups

/-- Puts a value at the end of the group of its key, which is opened at the
end if there is none. -/
def insert {α : Type} (key : String) (value : α) : Groups α → Groups α
  | [] => [(key, [value])]
  | (other, values) :: rest =>
    if key = other then (other, values ++ [value]) :: rest
    else (other, values) :: insert key value rest

/-- Groups values by their keys, both in the order of first appearance. -/
def ofList {α : Type} (key : α → String) (values : List α) : Groups α :=
  values.foldl (fun groups value => insert (key value) value groups) []

end Groups

/-- The key of lines without a supplier. -/
def noSupplier : String :=
  "NO_SUPPLIER"

def Line.supplierKey (line : Line) : String :=
  line.product.supplierId.getD noSupplier

def groupBySupplier (lines : List Line) : Groups Line :=
  Groups.ofList Line.supplierKey lines

def groupByCategory (lines : List Line) : Groups Line :=
  Groups.ofList Line.category lines

def totalCost (lines : List Line) : Money :=
  .sum (lines.map Line.totalCost)

/-- The total of each group, in group order. -/
def groupTotals (groups : Groups Line) : List (String × Money) :=
  groups.map fun (key, lines) => (key, totalCost lines)

structure CostSummary where
  subtotal : Money
  taxRate : TaxRate
  tax : Money
  total : Money
deriving DecidableEq

def summarize (lines : List Line) (taxRate : TaxRate) : CostSummary :=
  let subtotal := totalCost lines
  let tax := subtotal.tax taxRate
  { subtotal, taxRate, tax, total := subtotal + tax }

end SolarTakeoff
