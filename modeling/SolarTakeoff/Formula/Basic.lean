import SolarTakeoff.Binary64.Integral

/-!
# Formulas

A formula is an arithmetic expression over the four inputs of a job, with
signs, the four operations and five functions.  Parentheses leave no trace in
the tree.

`Expr.inputs` lists the inputs an expression mentions, each once, in the order
of their first mention.
-/

namespace SolarTakeoff

/-- What a formula can know of a job. -/
inductive Input where
  | panelCount
  | systemSize
  | batteryCapacity
  | hasBattery
deriving DecidableEq, Repr

/-- A value for every input. -/
abbrev Inputs := Input → Binary64

inductive Sign where
  | plus
  | minus
deriving DecidableEq, Repr

inductive Operator where
  | add
  | subtract
  | multiply
  | divide
deriving DecidableEq, Repr

inductive Function where
  | ceil
  | floor
  | round
  | max
  | min
deriving DecidableEq, Repr

inductive Expr where
  | number (value : Binary64)
  | input (input : Input)
  | signed (sign : Sign) (operand : Expr)
  | binary (operator : Operator) (left right : Expr)
  | call (function : Function) (arguments : List Expr)

namespace Input

def all : List Input :=
  [.panelCount, .systemSize, .batteryCapacity, .hasBattery]

def name : Input → String
  | .panelCount => "panelCount"
  | .systemSize => "systemSize"
  | .batteryCapacity => "batteryCapacity"
  | .hasBattery => "hasBattery"

def named? (name : String) : Option Input :=
  all.find? (·.name == name)

theorem named?_eq_some_iff {name : String} {input : Input} :
    named? name = some input ↔ input.name = name := by
  constructor
  · intro h
    simpa using List.find?_some h
  · rintro rfl
    cases input <;> decide

end Input

namespace Function

def all : List Function :=
  [.ceil, .floor, .round, .max, .min]

def name : Function → String
  | .ceil => "CEIL"
  | .floor => "FLOOR"
  | .round => "ROUND"
  | .max => "MAX"
  | .min => "MIN"

def named? (name : String) : Option Function :=
  all.find? (·.name == name)

theorem named?_eq_some_iff {name : String} {function : Function} :
    named? name = some function ↔ function.name = name := by
  constructor
  · intro h
    simpa using List.find?_some h
  · rintro rfl
    cases function <;> decide

/-- Whether the function takes this many arguments. -/
def accepts (function : Function) (count : Nat) : Bool :=
  match function with
  | .ceil | .floor | .round => count == 1
  | .max | .min => 1 ≤ count

end Function

mutual

/-- Every mention of an input, from left to right. -/
def Expr.mentions : Expr → List Input
  | .number _ => []
  | .input input => [input]
  | .signed _ operand => operand.mentions
  | .binary _ left right => left.mentions ++ right.mentions
  | .call _ arguments => mentionsAll arguments

def mentionsAll : List Expr → List Input
  | [] => []
  | expr :: rest => expr.mentions ++ mentionsAll rest

end

/-- The inputs mentioned, each once, in the order of first mention. -/
def Expr.inputs (expr : Expr) : List Input :=
  expr.mentions.eraseDups

mutual

/-- The number of nodes of the tree. -/
def Expr.size : Expr → Nat
  | .number _ => 1
  | .input _ => 1
  | .signed _ operand => operand.size + 1
  | .binary _ left right => left.size + right.size + 1
  | .call _ arguments => sizeAll arguments + 1

def sizeAll : List Expr → Nat
  | [] => 0
  | expr :: rest => expr.size + sizeAll rest

end

end SolarTakeoff
