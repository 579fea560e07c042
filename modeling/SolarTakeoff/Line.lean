import SolarTakeoff.Quantity
import SolarTakeoff.Selection

/-!
# Lines

A run keeps the rules that apply, orders them by descending priority with ties
in catalog order, and makes at most one line of each.  A rule that resolves to
nothing, or to no finite quantity, gives no line.

Each rule leaves exactly one event that says what became of it: skipped, no
quantity, or a line.  All skipped rules come first, in catalog order.
-/

namespace SolarTakeoff

/-- A quantity of one accessory with the product that serves it. -/
structure Line where
  ruleId : String
  ruleName : String
  category : String
  productType : Option String
  quantity : Binary64
  unit : String
  product : Product
  totalCost : Money
  notes : Option String
  details : String
deriving DecidableEq

namespace Line

def unitCost (line : Line) : Option Binary64 :=
  line.product.offer.unitCost

/-- Whether a product with a usable cost was found. -/
def isCosted (line : Line) : Bool :=
  line.unitCost.isSome

end Line

/-- The cost of a product, if it is finite and not negative. -/
def Product.usableCost? (product : Product) : Option Binary64 :=
  product.offer.unitCost.filter fun cost => cost.isFinite && Binary64.zero.le cost

def Product.withCost (product : Product) (cost : Option Binary64) : Product :=
  { product with offer := { product.offer with unitCost := cost } }

/-- Why a rule does not take part in a run, if it does not. -/
def Rule.skipReason? (rule : Rule) (job : Job) (selection : Selection) :
    Option SkipReason :=
  if !rule.isActive then some .inactive
  else if !selection.includeOptional && !rule.isRequired then some .optional
  else if !selection.allowsCategory rule.category then
    some (.otherCategory rule.category)
  else if rule.isBatteryGated && !job.hasBattery then some .noBattery
  else none

def Rule.applies (rule : Rule) (job : Job) (selection : Selection) : Bool :=
  (rule.skipReason? job selection).isNone

/-- The line of a positive finite quantity. -/
def Rule.lineOf (rule : Rule) (resolution : Resolution) : Line :=
  let product := rule.product?.getD {}
  let cost := product.usableCost?
  { ruleId := rule.id
    ruleName := rule.name
    category := rule.category
    productType := rule.productType
    quantity := resolution.quantity
    unit := rule.unitLabel
    product := product.withCost cost
    totalCost := (cost.map (Money.lineTotal · resolution.quantity)).getD .zero
    notes := rule.notes
    details := resolution.details }

/-- Reports a cost that cannot be used. -/
def Rule.costWarning? (rule : Rule) : Option Event :=
  let product := rule.product?.getD {}
  match product.offer.unitCost, product.usableCost? with
  | some cost, none => some (.unitCostIgnored rule.id cost)
  | _, _ => none

/-- The line of a rule for a job, if it comes to one. -/
def Rule.line? (rule : Rule) (job : Job) : Traced (Option Line) :=
  let resolution := rule.resolve job
  let quantity := resolution.quantity
  if quantity.le .zero || !quantity.isFinite then
    { value := none
      events := resolution.warning.toList ++
        [.noQuantity rule.id quantity resolution.details] }
  else
    let line := rule.lineOf resolution
    { value := some line
      events := resolution.warning.toList ++ rule.costWarning?.toList ++
        [.lineAdded rule.id quantity line.totalCost] }

/-- The rules of a run in the order of their lines. -/
def applicableRules (job : Job) (rules : List Rule) (selection : Selection) : List Rule :=
  (rules.filter (·.applies job selection)).mergeSort
    fun a b => decide (b.priority ≤ a.priority)

/-- The lines of a job. -/
def calculate (job : Job) (rules : List Rule) (selection : Selection) :
    Traced (List Line) :=
  let skipped := rules.filterMap fun rule =>
    (rule.skipReason? job selection).map (Event.ruleSkipped rule.id)
  let outcomes := (applicableRules job rules selection).map (·.line? job)
  let lines := outcomes.filterMap (·.value)
  { value := lines
    events := skipped ++ outcomes.flatMap (·.events) ++
      [.calculated rules.length lines.length job.panelCount job.hasBattery] }

end SolarTakeoff
