import SolarTakeoff.Formula.Parser

/-!
# The value of a formula

Evaluation goes from left to right and from the operands to the operation, and
stops at the first node without a finite value.  Every node is checked, so an
infinity or a not-a-number never disappears inside a later minimum, maximum or
difference.
-/

namespace SolarTakeoff

/-- A number, as long as it is finite. -/
def requireFinite (value : Binary64) : Except FormulaError Binary64 :=
  if value.isFinite then .ok value else .error .notFinite

def Sign.apply : Sign → Binary64 → Binary64
  | .plus, value => value
  | .minus, value => -value

/-- Division by either zero has no value; all other operations are those of
the numbers. -/
def Operator.apply (operator : Operator) (a b : Binary64) :
    Except FormulaError Binary64 :=
  match operator with
  | .add => .ok (a + b)
  | .subtract => .ok (a - b)
  | .multiply => .ok (a * b)
  | .divide => if b.eq .zero then .error .divisionByZero else .ok (a / b)

/-- The value of a function, if it takes that many arguments. -/
def Function.value? : Function → List Binary64 → Option Binary64
  | .ceil, [value] => some value.ceil
  | .floor, [value] => some value.floor
  | .round, [value] => some value.roundHalfUp
  | .max, value :: values => some ((value :: values).foldl .max (.infinite true))
  | .min, value :: values => some ((value :: values).foldl .min (.infinite false))
  | _, _ => none

theorem Function.isSome_value?
    (function : Function) (values : List Binary64) :
    (function.value? values).isSome = function.accepts values.length := by
  match function, values with
  | .ceil, [] | .floor, [] | .round, [] | .max, [] | .min, [] => rfl
  | .ceil, [_] | .floor, [_] | .round, [_] => rfl
  | .ceil, _ :: _ :: _ | .floor, _ :: _ :: _ | .round, _ :: _ :: _ =>
    simp [value?, accepts]
  | .max, _ :: _ | .min, _ :: _ => simp [value?, accepts]

def Function.apply (function : Function) (values : List Binary64) :
    Except FormulaError Binary64 :=
  match function.value? values with
  | some value => .ok value
  | none => .error (.wrongArity function values.length)

mutual

def Expr.evaluate (inputs : Inputs) : Expr → Except FormulaError Binary64
  | .number value => requireFinite value
  | .input input => requireFinite (inputs input)
  | .signed sign operand => do
    let value ← operand.evaluate inputs
    requireFinite (sign.apply value)
  | .binary operator left right => do
    let a ← left.evaluate inputs
    let b ← right.evaluate inputs
    requireFinite (← operator.apply a b)
  | .call function arguments => do
    let values ← evaluateAll inputs arguments
    requireFinite (← function.apply values)

def evaluateAll (inputs : Inputs) :
    List Expr → Except FormulaError (List Binary64)
  | [] => .ok []
  | expr :: rest => do
    let value ← expr.evaluate inputs
    let values ← evaluateAll inputs rest
    return value :: values

end

/-- The value of a formula as text. -/
def evaluateText (inputs : Inputs) (text : String) : Except FormulaError Binary64 := do
  (← Expr.ofText text).evaluate inputs

end SolarTakeoff
