import SolarTakeoff.Money
import SolarTakeoff.Validation.Error

/-!
# Events

What a run reports beside its result, as data in the order of its happening.
An event knows its level, its message and its named fields.
-/

namespace SolarTakeoff

/-- Why a rule does not take part in a run. -/
inductive SkipReason where
  | inactive
  | optional
  | otherCategory (category : String)
  | noBattery
deriving DecidableEq

inductive Event where
  | formulaAsZero (formula : String) (error : FormulaError)
  | formulaFailed (ruleId formula : String) (error : FormulaError)
  | strategyUnknown (ruleId tag : String)
  | ruleSkipped (ruleId : String) (reason : SkipReason)
  | noQuantity (ruleId : String) (quantity : Binary64) (details : String)
  | unitCostIgnored (ruleId : String) (unitCost : Binary64)
  | lineAdded (ruleId : String) (quantity : Binary64) (total : Money)
  | calculated (rules lines : Nat) (panelCount : UInt32) (hasBattery : Bool)
  | ruleInvalid (error : ValidationError)
  | catalogLoaded (rules : Nat)
  | snapshotLoaded (rules : Nat)
  | reportGenerated (lines : Nat) (total : Money)
  | configRead
  | configAbsent
  | catalogPathOverridden
  | includeOptionalUnknown (value : String)
  | taxRateOverridden (rate : TaxRate)
  | taxRateInvalid (value : String)
  | configReplaced (reason : String)
deriving DecidableEq

inductive EventLevel where
  | debug
  | info
  | warn
deriving DecidableEq

namespace EventLevel

def text : EventLevel → String
  | .debug => "DEBUG"
  | .info => "INFO"
  | .warn => "WARN"

end EventLevel

namespace Event

def level : Event → EventLevel
  | .formulaAsZero .. | .formulaFailed .. | .strategyUnknown ..
  | .unitCostIgnored .. | .ruleInvalid .. | .includeOptionalUnknown ..
  | .taxRateInvalid .. | .configReplaced .. => .warn
  | .calculated .. | .snapshotLoaded .. | .reportGenerated .. | .configRead => .info
  | .ruleSkipped .. | .noQuantity .. | .lineAdded .. | .catalogLoaded ..
  | .configAbsent | .catalogPathOverridden | .taxRateOverridden .. => .debug

def message : Event → String
  | .formulaAsZero .. => "Formula evaluation failed, using 0"
  | .formulaFailed .. => "Formula evaluation failed, rule resolves to 0"
  | .strategyUnknown .. => "Unknown calculation type, rule skipped"
  | .ruleSkipped _ .inactive => "Skipping inactive rule"
  | .ruleSkipped _ .optional => "Skipping optional rule"
  | .ruleSkipped _ (.otherCategory _) => "Skipping rule outside category filter"
  | .ruleSkipped _ .noBattery => "Skipping battery rule, job has no battery"
  | .noQuantity .. => "Rule resolved to no quantity"
  | .unitCostIgnored .. => "Ignoring invalid unit cost"
  | .lineAdded .. => "Accessory line"
  | .calculated .. => "Accessory calculation complete"
  | .ruleInvalid .. => "Catalog rule failed validation"
  | .catalogLoaded .. | .snapshotLoaded .. => "Catalog snapshot loaded"
  | .reportGenerated .. => "Accessory report generated"
  | .configRead => "Loading engine config from file"
  | .configAbsent => "Config file not found, using defaults"
  | .catalogPathOverridden => "Overriding catalog path from environment"
  | .includeOptionalUnknown .. => "Unknown HELIOS_INCLUDE_OPTIONAL value"
  | .taxRateOverridden .. => "Overriding tax rate from environment"
  | .taxRateInvalid .. => "Invalid HELIOS_TAX_RATE_BPS value"
  | .configReplaced reason =>
    "Failed to load engine config: " ++ reason ++ ". Using defaults."

def fields : Event → List (String × String)
  | .formulaAsZero formula error => [("formula", formula), ("error", error.message)]
  | .formulaFailed ruleId formula error =>
    [("rule_id", ruleId), ("formula", formula), ("error", error.message)]
  | .strategyUnknown ruleId tag => [("rule_id", ruleId), ("calculation_type", tag)]
  | .ruleSkipped ruleId (.otherCategory category) =>
    [("rule_id", ruleId), ("category", category)]
  | .ruleSkipped ruleId _ => [("rule_id", ruleId)]
  | .noQuantity ruleId quantity details =>
    [("rule_id", ruleId), ("quantity", quantity.text), ("details", details)]
  | .unitCostIgnored ruleId unitCost =>
    [("rule_id", ruleId), ("unit_cost", unitCost.text)]
  | .lineAdded ruleId quantity total =>
    [("rule_id", ruleId), ("quantity", quantity.text), ("total", total.text)]
  | .calculated rules lines panelCount hasBattery =>
    [("rules", toString rules), ("lines", toString lines),
      ("panel_count", toString panelCount.toNat), ("has_battery", toString hasBattery)]
  | .ruleInvalid error => [("error", error.message)]
  | .catalogLoaded rules => [("rules", toString rules)]
  | .snapshotLoaded rules => [("rules", toString rules)]
  | .reportGenerated lines total => [("lines", toString lines), ("total", total.text)]
  | .includeOptionalUnknown value => [("value", value)]
  | .taxRateOverridden rate => [("bps", toString rate.bps.toNat)]
  | .taxRateInvalid value => [("value", value)]
  | .configRead | .configAbsent | .catalogPathOverridden | .configReplaced _ => []

end Event

/-- A result together with what was reported on the way to it. -/
structure Traced (α : Type) where
  value : α
  events : List Event := []

end SolarTakeoff
