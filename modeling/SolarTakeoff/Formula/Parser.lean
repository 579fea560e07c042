import SolarTakeoff.Formula.Lexeme
import SolarTakeoff.Reading

/-!
# From tokens to a formula

The grammar has two levels of binary operators, both associating to the left;
signs bind tighter, and a primary is a number, an input, a call or an
expression in parentheses.  A word followed by a parenthesis is a function and
any other word an input.

Each rule returns what it read together with the tokens left over and the fact
that these are fewer than it was given, and so the recursion ends.
-/

namespace SolarTakeoff

/-- The longest formula that is read, in characters. -/
def formulaLimit : Nat :=
  1024

/-- The levels of binary operators. -/
inductive Level where
  | sum
  | product
deriving DecidableEq

def Level.operator? : Level → Token → Option Operator
  | .sum, .plus => some .add
  | .sum, .minus => some .subtract
  | .product, .star => some .multiply
  | .product, .slash => some .divide
  | _, _ => none

/-- The operands of sums are products and those of products are signed, so
sums come first in the recursion. -/
@[simp] def Level.rank : Level → Nat
  | .sum => 4
  | .product => 3

namespace Formula

mutual

def chain (level : Level) (tokens : List Token) :
    Except FormulaError (Reading Token Expr tokens.length) := do
  let ⟨left, rest, h⟩ ← operand level tokens
  let reading ← chainTail level left rest
  return reading.widen h
termination_by (tokens.length, level.rank, 1)

def operand (level : Level) (tokens : List Token) :
    Except FormulaError (Reading Token Expr tokens.length) :=
  match level with
  | .sum => chain .product tokens
  | .product => signed tokens
termination_by (tokens.length, level.rank, 0)

/-- Continues a chain whose left side has been read. -/
def chainTail (level : Level) (left : Expr) (tokens : List Token) :
    Except FormulaError (Reading Token Expr (tokens.length + 1)) :=
  match tokens with
  | [] => return .of left []
  | token :: rest =>
    match level.operator? token with
    | none => return .of left (token :: rest)
    | some operator => do
      let ⟨right, further, h⟩ ← operand level rest
      let reading ← chainTail level (.binary operator left right) further
      return (reading.widen h).after 2
termination_by (tokens.length, level.rank, 0)

def signed (tokens : List Token) :
    Except FormulaError (Reading Token Expr tokens.length) :=
  match tokens with
  | .plus :: rest => return ((← signed rest).map (.signed .plus)).after 1
  | .minus :: rest => return ((← signed rest).map (.signed .minus)).after 1
  | tokens => primary tokens
termination_by (tokens.length, 2, 0)

def primary (tokens : List Token) :
    Except FormulaError (Reading Token Expr tokens.length) :=
  match tokens with
  | [] => throw .unexpectedEnd
  | .number value :: rest => return .of (.number value) rest
  | .opening :: rest => do
    match ← chain .sum rest with
    | ⟨expr, .closing :: further, h⟩ => return ((Reading.of expr further).within h).after 1
    | ⟨_, token :: _, _⟩ => throw (.unexpectedToken token)
    | ⟨_, [], _⟩ => throw .unexpectedEnd
  | .word name :: .opening :: rest =>
    match Function.named? name with
    | none => throw (.unknownFunction name)
    | some function => do
      let exprs ← arguments rest
      if function.accepts exprs.value.length then
        return (exprs.map (.call function)).after 2
      else
        throw (.wrongArity function exprs.value.length)
  | .word name :: rest =>
    match Input.named? name with
    | none => throw (.unknownInput name)
    | some input => return .of (.input input) rest
  | token :: _ => throw (.unexpectedToken token)
termination_by (tokens.length, 1, 0)

/-- The arguments of a call up to the closing parenthesis; there may be none. -/
def arguments (tokens : List Token) :
    Except FormulaError (Reading Token (List Expr) tokens.length) :=
  match tokens with
  | .closing :: rest => return .of [] rest
  | tokens => argumentList tokens
termination_by (tokens.length, 6, 0)

def argumentList (tokens : List Token) :
    Except FormulaError (Reading Token (List Expr) tokens.length) := do
  match ← chain .sum tokens with
  | ⟨expr, .closing :: rest, h⟩ => return (Reading.of [expr] rest).within h
  | ⟨expr, .comma :: rest, h⟩ =>
    return (((← argumentList rest).map (expr :: ·)).after 1).within h
  | ⟨_, token :: _, _⟩ => throw (.unexpectedToken token)
  | ⟨_, [], _⟩ => throw .unexpectedEnd
termination_by (tokens.length, 5, 0)
decreasing_by all_goals grind [Level.rank]

end

/-- Reads a whole list of tokens as one expression. -/
def ofTokens (tokens : List Token) : Except FormulaError Expr := do
  match ← chain .sum tokens with
  | ⟨expr, [], _⟩ => return expr
  | ⟨_, token :: _, _⟩ => throw (.unexpectedToken token)

end Formula

/-- Reads a formula, blanks at its ends aside. -/
def Expr.ofText (text : String) : Except FormulaError Expr := do
  let chars := trimBlanks text.toList
  if chars.isEmpty then
    throw .blank
  if formulaLimit < chars.length then
    throw (.tooLong formulaLimit)
  Formula.ofTokens (← tokenize chars)

end SolarTakeoff
