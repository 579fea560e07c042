import SolarTakeoff.Validation.Error
import SolarTakeoff.Formula.Parser
import SolarTakeoff.Job
import SolarTakeoff.Rule

/-!
# Validation of jobs, rules and catalogs

A job or a rule is checked field by field up to the first problem.  A catalog
is checked to its end: for each rule its own problem, if any, and then one
more when its id has been seen before.
-/

namespace SolarTakeoff

namespace Validation

def present (field value : String) : Except ValidationError Unit :=
  if isBlankText value then .error (.missing field) else .ok ()

def finite (field : String) (value : Binary64) : Except ValidationError Unit :=
  if value.isFinite then .ok () else .error (.notFinite field)

def nonNegative (field : String) (value : Binary64) : Except ValidationError Unit := do
  finite field value
  if value.lt .zero then
    throw (.negative field)

end Validation

open Validation

/-- The capacity on record agrees with whether there is a battery. -/
def Job.validateBattery (job : Job) : Except ValidationError Unit :=
  match job.batteryCapacity with
  | none => .ok ()
  | some capacity => do
    nonNegative "battery_capacity_kwh" capacity
    if !job.hasBattery && Binary64.zero.lt capacity then
      throw (.conflict "battery_capacity_kwh" "has_battery"
        "capacity recorded for a job without a battery")

def Job.validate (job : Job) : Except ValidationError Unit := do
  nonNegative "system_size_kw" job.systemSize
  job.validateBattery
  if job.stories = some 0 then
    throw (.tooSmall "stories" 1)

def Strategy.validate : Strategy → Except ValidationError Unit
  | .fixed => .ok ()
  | .perPanel multiplier | .perKilowatt multiplier | .perBattery multiplier =>
    finite "multiplier" multiplier
  | .formula expression =>
    match Expr.ofText expression with
    | .ok _ => .ok ()
    | .error error => .error (.formula error)
  | .unrecognized tag => .error (.unknownStrategy tag)

/-- An upper bound is finite and not below the lower one. -/
def Rule.validateMaximum (rule : Rule) : Except ValidationError Unit :=
  match rule.maximum with
  | none => .ok ()
  | some maximum => do
    finite "max_quantity" maximum
    if maximum.lt rule.minimum then
      throw (.conflict "max_quantity" "min_quantity"
        ("max " ++ maximum.text ++ " is below min " ++ rule.minimum.text))

def Rule.validate (rule : Rule) : Except ValidationError Unit := do
  present "id" rule.id
  present "name" rule.name
  present "category" rule.category
  rule.strategy.validate
  finite "base_quantity" rule.base
  nonNegative "min_quantity" rule.minimum
  rule.validateMaximum

/-- The problems of a rule that comes after rules with the ids `seen`. -/
def Rule.problems (seen : List String) (rule : Rule) : List ValidationError :=
  (match rule.validate with
    | .ok () => []
    | .error error => [.inRule rule.id error]) ++
  (if seen.contains rule.id then [.duplicate "rule id" rule.id] else [])

def problemsAfter (seen : List String) : List Rule → List ValidationError
  | [] => []
  | rule :: rules => rule.problems seen ++ problemsAfter (rule.id :: seen) rules

/-- Every problem of a catalog, in catalog order. -/
def catalogProblems (rules : List Rule) : List ValidationError :=
  problemsAfter [] rules

def TaxRate.validate (rate : TaxRate) : Except ValidationError Unit :=
  if limit.bps < rate.bps then
    .error (.outOfRange "tax_rate" 0 limit.bps.toNat)
  else
    .ok ()

end SolarTakeoff
