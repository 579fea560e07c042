import SolarTakeoff.Money
import SolarTakeoff.Text.Blank
import SolarTakeoff.Text.Capitals

/-!
# Rules

A rule says how much of one accessory a job needs and which products can serve
it.  Each strategy carries only what it works with; a tag that names no
strategy is kept, so that one bad rule does not take its catalog with it.
-/

namespace SolarTakeoff

inductive StrategyKind where
  | fixed
  | perPanel
  | perKilowatt
  | perBattery
  | formula
deriving DecidableEq

namespace StrategyKind

def all : List StrategyKind :=
  [.fixed, .perPanel, .perKilowatt, .perBattery, .formula]

def tag : StrategyKind → String
  | .fixed => "FIXED"
  | .perPanel => "PER_PANEL"
  | .perKilowatt => "PER_KW"
  | .perBattery => "PER_BATTERY"
  | .formula => "FORMULA"

/-- A tag without blanks at its ends, in capitals, with underscores for
hyphens. -/
def canonicalTag (tag : String) : String :=
  .ofList (((trimBlanks tag.toList).flatMap asciiCapitals).map
    fun char => if char == '-' then '_' else char)

def ofTag? (tag : String) : Option StrategyKind :=
  all.find? (·.tag == canonicalTag tag)

end StrategyKind

/-- How a rule derives its quantity before rounding. -/
inductive Strategy where
  | fixed
  | perPanel (multiplier : Binary64)
  | perKilowatt (multiplier : Binary64)
  | perBattery (multiplier : Binary64)
  | formula (expression : String)
  | unrecognized (tag : String)
deriving DecidableEq

/-- The strategy that a tag names, with its own part of the payload. -/
def Strategy.ofTag (tag : String) (multiplier : Binary64) (formula : Option String) :
    Strategy :=
  match StrategyKind.ofTag? tag with
  | some .fixed => .fixed
  | some .perPanel => .perPanel multiplier
  | some .perKilowatt => .perKilowatt multiplier
  | some .perBattery => .perBattery multiplier
  | some .formula => .formula (formula.getD "")
  | none => .unrecognized tag

/-- The cost of a product in dollars and what identifies it. -/
structure Offer where
  unitCost : Option Binary64 := none
  brand : Option String := none
  model : Option String := none
  sku : Option String := none
deriving DecidableEq

/-- An entry of a supplier's price list. -/
structure SupplierProduct where
  id : String
  supplierId : String
  supplierName : String
  offer : Offer
deriving DecidableEq

inductive ProductSource where
  | direct (offer : Offer)
  | supplier (product : SupplierProduct)
deriving DecidableEq

structure Candidate where
  isPrimary : Bool
  source : ProductSource
deriving DecidableEq

/-- The product chosen for a rule. -/
structure Product where
  supplierProductId : Option String := none
  supplierId : Option String := none
  supplierName : Option String := none
  offer : Offer := {}
deriving DecidableEq

structure Rule where
  id : String
  name : String
  category : String
  productType : Option String
  strategy : Strategy
  base : Binary64
  roundUp : Bool
  minimum : Binary64
  maximum : Option Binary64
  isRequired : Bool
  isActive : Bool
  priority : Int32
  unit : Option String
  notes : Option String
  candidates : List Candidate
deriving DecidableEq

namespace Rule

/-- The unit of a line, `each` unless the rule names one. -/
def unitLabel (rule : Rule) : String :=
  rule.unit.getD "each"

/-- Rules for battery products apply only to jobs with a battery. -/
def isBatteryGated (rule : Rule) : Bool :=
  rule.productType == some "BATTERY"

end Rule

/-- All fields come from the price list where there is one. -/
def ProductSource.product : ProductSource → Product
  | .direct offer => { offer }
  | .supplier product => {
      supplierProductId := some product.id
      supplierId := some product.supplierId
      supplierName := some product.supplierName
      offer := product.offer }

/-- The first primary candidate, or else the first one. -/
def selectCandidate? (candidates : List Candidate) : Option Candidate :=
  candidates.find? (·.isPrimary) <|> candidates.head?

def Rule.product? (rule : Rule) : Option Product :=
  (selectCandidate? rule.candidates).map (·.source.product)

end SolarTakeoff
