import SolarTakeoff.Event
import SolarTakeoff.Formula.Evaluation
import SolarTakeoff.Job
import SolarTakeoff.Rule

/-!
# Quantities

The strategy of a rule derives a raw quantity, or stops with none.  A raw
quantity is rounded to a whole number, raised to the minimum of the rule and
cut at its maximum, in this order; what stops is zero and passes none of these
steps.  Each step that changes the quantity says so in the details.
-/

namespace SolarTakeoff

/-- A number for the details: whole numbers below `10 ^ 15` as integers, all
others by their shortest text. -/
def Binary64.brief (x : Binary64) : String :=
  if x.isWhole && x.abs.lt (.ofNat 1000000000000000) then
    toString x.toInt64.toInt
  else
    x.text

/-- What a strategy comes to before rounding. -/
inductive Derivation where
  | raw (value : Binary64) (details : String)
  | stopped (details : String) (warning : Option Event)

/-- The quantity of a rule for a job, with the account of how it came about
and a warning if the rule is broken for the job. -/
structure Resolution where
  quantity : Binary64
  details : String
  warning : Option Event := none

/-- Amount times multiplier plus base. -/
def Derivation.linear (amountText : String) (amount multiplier base : Binary64) :
    Derivation :=
  let value := amount * multiplier + base
  .raw value (amountText ++ " × " ++ multiplier.brief ++ " + " ++ base.brief ++
    " = " ++ value.brief)

/-- The inputs a formula mentions, with their values. -/
def bindingsText (inputs : Inputs) (mentioned : List Input) : String :=
  if mentioned.isEmpty then ""
  else
    " (" ++ ", ".intercalate
      (mentioned.map fun input => input.name ++ "=" ++ (inputs input).brief) ++ ")"

def Derivation.ofFormula (ruleId expression : String) (inputs : Inputs) : Derivation :=
  if isBlankText expression then
    .stopped "Formula missing, quantity 0" none
  else
    let evaluated := do
      let expr ← Expr.ofText expression
      return (← expr.evaluate inputs, expr.inputs)
    match evaluated with
    | .ok (value, mentioned) =>
      .raw value ("Formula: " ++ expression ++ " = " ++ value.brief ++
        bindingsText inputs mentioned)
    | .error error =>
      .stopped ("Formula error in '" ++ expression ++ "': " ++ error.message ++
          ", quantity 0")
        (some (.formulaFailed ruleId expression error))

def Rule.derive (rule : Rule) (job : Job) : Derivation :=
  match rule.strategy with
  | .fixed => .raw rule.base ("Fixed quantity: " ++ rule.base.brief)
  | .perPanel multiplier =>
    .linear s!"{job.panelCount.toNat} panels" (.ofNat job.panelCount.toNat)
      multiplier rule.base
  | .perKilowatt multiplier =>
    .linear (job.systemSize.brief ++ "kW") job.systemSize multiplier rule.base
  | .perBattery multiplier =>
    match job.usableBattery? with
    | some capacity =>
      .linear (capacity.brief ++ "kWh") capacity multiplier rule.base
    | none => .stopped "No battery in system" none
  | .formula expression => .ofFormula rule.id expression job.inputs
  | .unrecognized tag =>
    .stopped ("Unknown calculation type: " ++ tag) (some (.strategyUnknown rule.id tag))

namespace Resolution

/-- Rounds up what is positive if asked to, and otherwise half up. -/
def round (roundUp : Bool) (resolution : Resolution) : Resolution :=
  let raw := resolution.quantity
  let up := roundUp && Binary64.zero.lt raw
  let rounded := if up then raw.ceil else raw.roundHalfUp
  let note :=
    if rounded.eq raw then ""
    else (if up then ", rounded up to " else ", rounded to ") ++ rounded.brief
  { resolution with quantity := rounded, details := resolution.details ++ note }

def raise (minimum : Binary64) (resolution : Resolution) : Resolution :=
  if resolution.quantity.lt minimum then
    { resolution with
      quantity := minimum
      details := resolution.details ++ " (min " ++ minimum.brief ++ " applied, was " ++
        resolution.quantity.brief ++ ")" }
  else
    resolution

def cut (maximum : Option Binary64) (resolution : Resolution) : Resolution :=
  match maximum with
  | none => resolution
  | some maximum =>
    if maximum.lt resolution.quantity then
      { resolution with
        quantity := maximum
        details := resolution.details ++ " (max " ++ maximum.brief ++ " applied, was " ++
          resolution.quantity.brief ++ ")" }
    else
      resolution

end Resolution

/-- The quantity of a rule for a job. -/
def Rule.resolve (rule : Rule) (job : Job) : Resolution :=
  match rule.derive job with
  | .stopped details warning => { quantity := .zero, details, warning }
  | .raw value details =>
    (({ quantity := value, details : Resolution }.round rule.roundUp).raise rule.minimum).cut
      rule.maximum

/-- The value of a formula for a job, zero where it has none. -/
def evaluateOrZero (job : Job) (formula : String) : Traced Binary64 :=
  match evaluateText job.inputs formula with
  | .ok value => { value }
  | .error error => { value := .zero, events := [.formulaAsZero formula error] }

end SolarTakeoff
