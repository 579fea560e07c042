import SolarTakeoff.Proofs.Formula.Evaluation
import Mathlib.Tactic

/-!
# How deep the rules of a formula go

The rules once more, with the rules that they call left open.  Rules that may
nest one call more than others are made by calling these, and rules that may
nest none have no answer; a limit that is too low for some tokens shows as a
missing answer there.

A rule calls others with fewer tokens or, with as many, one that stands below
it, and no rule stands higher than eight.  So with eight for each token no
answer is missing, whether the tokens are accepted or not, and the answers are
those of the rules without a limit.
-/

namespace SolarTakeoff

namespace Formula

/-- The answer of a rule, or none where it would have to go too deep. -/
abbrev Limited (α : Type) :=
  ExceptT FormulaError Option α

def answered {α : Type} (result : Except FormulaError α) : Limited α :=
  ExceptT.mk (some result)

structure Rules where
  chain : Level → (tokens : List Token) → Limited (Reading Token Expr tokens.length)
  operand : Level → (tokens : List Token) → Limited (Reading Token Expr tokens.length)
  chainTail : Level → Expr → (tokens : List Token) →
    Limited (Reading Token Expr (tokens.length + 1))
  signed : (tokens : List Token) → Limited (Reading Token Expr tokens.length)
  primary : (tokens : List Token) → Limited (Reading Token Expr tokens.length)
  arguments : (tokens : List Token) → Limited (Reading Token (List Expr) tokens.length)
  argumentList : (tokens : List Token) → Limited (Reading Token (List Expr) tokens.length)

namespace Rules

def silent : Rules where
  chain _ _ := ExceptT.mk none
  operand _ _ := ExceptT.mk none
  chainTail _ _ _ := ExceptT.mk none
  signed _ := ExceptT.mk none
  primary _ := ExceptT.mk none
  arguments _ := ExceptT.mk none
  argumentList _ := ExceptT.mk none

/-- Each rule with calls of these rules for its own. -/
def deeper (rules : Rules) : Rules where
  chain level tokens := do
    let ⟨left, rest, h⟩ ← rules.operand level tokens
    let reading ← rules.chainTail level left rest
    return reading.widen h
  operand level tokens :=
    match level with
    | .sum => rules.chain .product tokens
    | .product => rules.signed tokens
  chainTail level left tokens :=
    match tokens with
    | [] => return .of left []
    | token :: rest =>
      match level.operator? token with
      | none => return .of left (token :: rest)
      | some operator => do
        let ⟨right, further, h⟩ ← rules.operand level rest
        let reading ← rules.chainTail level (.binary operator left right) further
        return (reading.widen h).after 2
  signed tokens :=
    match tokens with
    | .plus :: rest => return ((← rules.signed rest).map (.signed .plus)).after 1
    | .minus :: rest => return ((← rules.signed rest).map (.signed .minus)).after 1
    | tokens => rules.primary tokens
  primary tokens :=
    match tokens with
    | [] => throw .unexpectedEnd
    | .number value :: rest => return .of (.number value) rest
    | .opening :: rest => do
      match ← rules.chain .sum rest with
      | ⟨expr, .closing :: further, h⟩ => return ((Reading.of expr further).within h).after 1
      | ⟨_, token :: _, _⟩ => throw (.unexpectedToken token)
      | ⟨_, [], _⟩ => throw .unexpectedEnd
    | .word name :: .opening :: rest =>
      match Function.named? name with
      | none => throw (.unknownFunction name)
      | some function => do
        let exprs ← rules.arguments rest
        if function.accepts exprs.value.length then
          return (exprs.map (.call function)).after 2
        else
          throw (.wrongArity function exprs.value.length)
    | .word name :: rest =>
      match Input.named? name with
      | none => throw (.unknownInput name)
      | some input => return .of (.input input) rest
    | token :: _ => throw (.unexpectedToken token)
  arguments tokens :=
    match tokens with
    | .closing :: rest => return .of [] rest
    | tokens => rules.argumentList tokens
  argumentList tokens := do
    match ← rules.chain .sum tokens with
    | ⟨expr, .closing :: rest, h⟩ => return (Reading.of [expr] rest).within h
    | ⟨expr, .comma :: rest, h⟩ =>
      return (((← rules.argumentList rest).map (expr :: ·)).after 1).within h
    | ⟨_, token :: _, _⟩ => throw (.unexpectedToken token)
    | ⟨_, [], _⟩ => throw .unexpectedEnd

/-- The rules where calls are nested no deeper than this. -/
def within : ℕ → Rules
  | 0 => silent
  | limit + 1 => (within limit).deeper

end Rules

def ofTokensWithin (limit : ℕ) (tokens : List Token) : Limited Expr := do
  match ← (Rules.within limit).chain .sum tokens with
  | ⟨expr, [], _⟩ => return expr
  | ⟨_, token :: _, _⟩ => throw (.unexpectedToken token)

/-! ## Answers -/

section Answers

variable {α β : Type}

theorem bind_eq_answered {answer : Limited α} {result : Except FormulaError α}
    {next : α → Limited β} {other : α → Except FormulaError β} (h : answer = answered result)
    (hnext : ∀ value, next value = answered (other value)) :
    (answer >>= next) = answered (result >>= other) := by
  subst h
  cases result with
  | error error => rfl
  | ok value => exact hnext value

end Answers

/-- Where the operands of a level stand.  Primaries stand at one, signs at two, a
chain one above its operands, and arguments at the top. -/
def height : Level → ℕ
  | .sum => 5
  | .product => 3

theorem height_pos (level : Level) : 0 < height level := by
  cases level <;> decide

theorem height_le (level : Level) : height level ≤ 5 := by
  cases level <;> decide

/-- These rules have the answers of the formula's rules wherever those go no
deeper than the limit. -/
structure Rules.Agree (rules : Rules) (limit : ℕ) : Prop where
  chain : ∀ level tokens, 8 * tokens.length + height level + 1 ≤ limit →
    rules.chain level tokens = answered (Formula.chain level tokens)
  operand : ∀ level tokens, 8 * tokens.length + height level ≤ limit →
    rules.operand level tokens = answered (Formula.operand level tokens)
  chainTail : ∀ level left tokens, 8 * tokens.length + 1 ≤ limit →
    rules.chainTail level left tokens = answered (Formula.chainTail level left tokens)
  signed : ∀ tokens, 8 * tokens.length + 2 ≤ limit →
    rules.signed tokens = answered (Formula.signed tokens)
  primary : ∀ tokens, 8 * tokens.length + 1 ≤ limit →
    rules.primary tokens = answered (Formula.primary tokens)
  arguments : ∀ tokens, 8 * tokens.length + 8 ≤ limit →
    rules.arguments tokens = answered (Formula.arguments tokens)
  argumentList : ∀ tokens, 8 * tokens.length + 7 ≤ limit →
    rules.argumentList tokens = answered (Formula.argumentList tokens)

namespace Rules.Agree

variable {rules : Rules} {limit : ℕ}

theorem chain_deeper (h : rules.Agree limit) (level : Level) (tokens : List Token)
    (hlimit : 8 * tokens.length + height level + 1 ≤ limit + 1) :
    rules.deeper.chain level tokens = answered (Formula.chain level tokens) := by
  rw [Formula.chain]
  apply bind_eq_answered (h.operand level tokens (by omega))
  intro left
  have hshorter := left.shorter
  apply bind_eq_answered (h.chainTail level left.value left.rest (by omega))
  intro reading
  rfl

theorem operand_deeper (h : rules.Agree limit) (level : Level) (tokens : List Token)
    (hlimit : 8 * tokens.length + height level ≤ limit + 1) :
    rules.deeper.operand level tokens = answered (Formula.operand level tokens) := by
  cases level with
  | sum =>
      rw [Formula.operand]
      exact h.chain .product tokens (Nat.le_of_succ_le_succ hlimit)
  | product =>
      rw [Formula.operand]
      exact h.signed tokens (Nat.le_of_succ_le_succ hlimit)

theorem chainTail_deeper (h : rules.Agree limit) (level : Level) (left : Expr)
    (tokens : List Token) (hlimit : 8 * tokens.length + 1 ≤ limit + 1) :
    rules.deeper.chainTail level left tokens = answered (Formula.chainTail level left tokens) := by
  rw [Formula.chainTail.eq_def]
  cases tokens with
  | nil => rfl
  | cons token tokens =>
      rw [List.length_cons] at hlimit
      have hheight := height_le level
      cases hoperator : level.operator? token with
      | none =>
          simp only [Rules.deeper, hoperator]
          rfl
      | some operator =>
          simp only [Rules.deeper, hoperator]
          apply bind_eq_answered (h.operand level tokens (by omega))
          intro right
          have hshorter := right.shorter
          apply bind_eq_answered (h.chainTail level _ right.rest (by omega))
          intro reading
          rfl

theorem signed_deeper (h : rules.Agree limit) (tokens : List Token)
    (hlimit : 8 * tokens.length + 2 ≤ limit + 1) :
    rules.deeper.signed tokens = answered (Formula.signed tokens) := by
  have hprimary := h.primary tokens (by omega)
  rw [Formula.signed.eq_def]
  cases tokens with
  | nil => exact hprimary
  | cons token tokens =>
      rw [List.length_cons] at hlimit
      have hsigned := h.signed tokens (by omega)
      cases token with
      | plus | minus => exact bind_eq_answered hsigned fun _ => rfl
      | _ => exact hprimary

theorem primary_opening_deeper (h : rules.Agree limit) (tokens : List Token)
    (hlimit : 8 * tokens.length + 8 ≤ limit) :
    rules.deeper.primary (.opening :: tokens) =
      answered (Formula.primary (.opening :: tokens)) := by
  rw [Formula.primary]
  apply bind_eq_answered (h.chain .sum tokens (by simp only [height]; omega))
  rintro ⟨expr, _ | ⟨token, others⟩, hshorter⟩
  · rfl
  · cases token <;> rfl

theorem primary_call_deeper (h : rules.Agree limit) (name : String) (tokens : List Token)
    (hlimit : 8 * tokens.length + 8 ≤ limit) :
    rules.deeper.primary (.word name :: .opening :: tokens) =
      answered (Formula.primary (.word name :: .opening :: tokens)) := by
  rw [Formula.primary]
  simp only [Rules.deeper]
  cases hname : Function.named? name with
  | none => rfl
  | some function =>
      apply bind_eq_answered (h.arguments tokens hlimit)
      intro exprs
      split <;> rfl

theorem primary_input_deeper (rules : Rules) (name : String) {tokens : List Token}
    (hopening : tokens.head? ≠ some .opening) :
    rules.deeper.primary (.word name :: tokens) =
      answered (Formula.primary (.word name :: tokens)) := by
  rw [Formula.primary.eq_def]
  cases tokens with
  | nil =>
      dsimp only [Rules.deeper]
      cases Input.named? name <;> rfl
  | cons token tokens =>
      cases token with
      | opening => exact (hopening rfl).elim
      | _ =>
          dsimp only [Rules.deeper]
          cases Input.named? name <;> rfl

theorem primary_deeper (h : rules.Agree limit) (tokens : List Token)
    (hlimit : 8 * tokens.length + 1 ≤ limit + 1) :
    rules.deeper.primary tokens = answered (Formula.primary tokens) := by
  cases tokens with
  | nil =>
      rw [Formula.primary]
      rfl
  | cons token tokens =>
      rw [List.length_cons] at hlimit
      cases token with
      | opening => exact h.primary_opening_deeper tokens (by omega)
      | word name =>
          by_cases hopening : tokens.head? = some .opening
          · obtain ⟨rest, rfl⟩ := List.head?_eq_some_iff.mp hopening
            rw [List.length_cons] at hlimit
            exact h.primary_call_deeper name rest (by omega)
          · exact primary_input_deeper rules name hopening
      | _ =>
          rw [Formula.primary.eq_def]
          rfl

theorem arguments_deeper (h : rules.Agree limit) (tokens : List Token)
    (hlimit : 8 * tokens.length + 8 ≤ limit + 1) :
    rules.deeper.arguments tokens = answered (Formula.arguments tokens) := by
  have hlist := h.argumentList tokens (by omega)
  rw [Formula.arguments.eq_def]
  cases tokens with
  | nil => exact hlist
  | cons token tokens =>
      cases token with
      | closing => rfl
      | _ => exact hlist

theorem argumentList_deeper (h : rules.Agree limit) (tokens : List Token)
    (hlimit : 8 * tokens.length + 7 ≤ limit + 1) :
    rules.deeper.argumentList tokens = answered (Formula.argumentList tokens) := by
  rw [Formula.argumentList]
  apply bind_eq_answered (h.chain .sum tokens (by simp only [height]; omega))
  rintro ⟨expr, _ | ⟨token, others⟩, hshorter⟩
  · rfl
  · cases token with
    | comma =>
        rw [List.length_cons] at hshorter
        exact bind_eq_answered (h.argumentList others (by omega)) fun _ => rfl
    | _ => rfl

theorem deeper (h : rules.Agree limit) : rules.deeper.Agree (limit + 1) where
  chain := h.chain_deeper
  operand := h.operand_deeper
  chainTail := h.chainTail_deeper
  signed := h.signed_deeper
  primary := h.primary_deeper
  arguments := h.arguments_deeper
  argumentList := h.argumentList_deeper

end Rules.Agree

theorem agree_within (limit : ℕ) : (Rules.within limit).Agree limit := by
  induction limit with
  | zero =>
      constructor <;> intros
      case operand level tokens hlimit =>
        have hpos := height_pos level
        omega
      all_goals omega
  | succ limit ih => exact ih.deeper

/-! ## The phrases of the grammar -/

/-- The rule that reads a phrase. -/
def readPhrase : Phrase → (tokens : List Token) →
    Except FormulaError (Reading Token Expr tokens.length)
  | .expression => chain .sum
  | .term => chain .product
  | .unary => signed
  | .primary => primary

def readPhraseWithin (limit : ℕ) : Phrase → (tokens : List Token) →
    Limited (Reading Token Expr tokens.length)
  | .expression => (Rules.within limit).chain .sum
  | .term => (Rules.within limit).chain .product
  | .unary => (Rules.within limit).signed
  | .primary => (Rules.within limit).primary

theorem readPhraseWithin_eq {limit : ℕ} (phrase : Phrase) (tokens : List Token)
    (hlimit : 8 * (tokens.length + 1) ≤ limit) :
    readPhraseWithin limit phrase tokens = answered (readPhrase phrase tokens) := by
  have hagree := agree_within limit
  cases phrase with
  | expression => exact hagree.chain .sum tokens (by simp only [height]; omega)
  | term => exact hagree.chain .product tokens (by simp only [height]; omega)
  | unary => exact hagree.signed tokens (by omega)
  | primary => exact hagree.primary tokens (by omega)

theorem ofTokensWithin_eq {limit : ℕ} {tokens : List Token}
    (hlimit : 8 * (tokens.length + 1) ≤ limit) :
    ofTokensWithin limit tokens = answered (ofTokens tokens) := by
  apply bind_eq_answered (readPhraseWithin_eq .expression tokens hlimit)
  rintro ⟨expr, _ | ⟨token, others⟩, hshorter⟩ <;> rfl

end Formula

/-! ## Evaluation -/

mutual

/-- The number of nodes on the longest way from the root down to a leaf. -/
def Expr.depth : Expr → ℕ
  | .number _ => 1
  | .input _ => 1
  | .signed _ operand => operand.depth + 1
  | .binary _ left right => max left.depth right.depth + 1
  | .call _ arguments => depthAll arguments + 1

def depthAll : List Expr → ℕ
  | [] => 0
  | expr :: rest => max expr.depth (depthAll rest)

end

namespace Expr

open Formula (Limited answered bind_eq_answered)

/-- Evaluation where calls for operands are nested no deeper than this. -/
def evaluateWithin (inputs : Inputs) : ℕ → Expr → Limited Binary64
  | 0, _ => ExceptT.mk none
  | limit + 1, expr =>
    match expr with
    | .number value => answered (requireFinite value)
    | .input name => answered (requireFinite (inputs name))
    | .signed sign operand => do
      let value ← evaluateWithin inputs limit operand
      answered (requireFinite (sign.apply value))
    | .binary operator left right => do
      let a ← evaluateWithin inputs limit left
      let b ← evaluateWithin inputs limit right
      answered (operator.apply a b >>= requireFinite)
    | .call function arguments => do
      let values ← arguments.mapM (evaluateWithin inputs limit)
      answered (function.apply values >>= requireFinite)

variable {inputs : Inputs} {limit : ℕ} {expr : Expr}

theorem depth_pos (expr : Expr) : 0 < expr.depth := by
  cases expr <;> simp [depth]

theorem depth_le_depthAll {exprs : List Expr} (hexpr : expr ∈ exprs) :
    expr.depth ≤ depthAll exprs := by
  induction exprs with
  | nil => cases hexpr
  | cons first exprs ih =>
      rw [depthAll]
      rcases List.mem_cons.mp hexpr with rfl | hexpr
      · exact Nat.le_max_left _ _
      · exact (ih hexpr).trans (Nat.le_max_right _ _)

theorem depth_lt_of_mem_children {child : Expr} (hchild : child ∈ expr.children) :
    child.depth < expr.depth := by
  cases expr with
  | number | input => cases hchild
  | signed sign operand =>
      obtain rfl := List.mem_singleton.mp hchild
      exact Nat.lt_succ_self _
  | binary operator left right =>
      rw [depth]
      rcases List.mem_pair.mp hchild with rfl | rfl <;> omega
  | call function arguments =>
      rw [depth]
      exact Nat.lt_succ_of_le (depth_le_depthAll hchild)

theorem mapM_evaluateWithin {exprs : List Expr}
    (h : ∀ expr ∈ exprs, evaluateWithin inputs limit expr = answered (expr.evaluate inputs)) :
    exprs.mapM (evaluateWithin inputs limit) = answered (evaluateAll inputs exprs) := by
  induction exprs with
  | nil =>
      rw [evaluateAll]
      rfl
  | cons expr exprs ih =>
      obtain ⟨hexpr, hexprs⟩ := List.forall_mem_cons.mp h
      rw [evaluateAll, List.mapM_cons]
      apply bind_eq_answered hexpr
      intro value
      apply bind_eq_answered (ih hexprs)
      intro values
      rfl

theorem evaluateWithin_succ (hchildren : ∀ child ∈ expr.children,
      evaluateWithin inputs limit child = answered (child.evaluate inputs)) :
    evaluateWithin inputs (limit + 1) expr = answered (expr.evaluate inputs) := by
  cases expr with
  | number | input =>
      rw [evaluate]
      rfl
  | signed sign operand =>
      rw [evaluate]
      apply bind_eq_answered (hchildren operand (by simp [children]))
      intro value
      rfl
  | binary operator left right =>
      rw [evaluate]
      apply bind_eq_answered (hchildren left (by simp [children]))
      intro a
      apply bind_eq_answered (hchildren right (by simp [children]))
      intro b
      rfl
  | call function arguments =>
      rw [evaluate]
      apply bind_eq_answered (mapM_evaluateWithin hchildren)
      intro values
      rfl

theorem evaluateWithin_eq (hdepth : expr.depth ≤ limit) :
    evaluateWithin inputs limit expr = answered (expr.evaluate inputs) := by
  induction limit generalizing expr with
  | zero => exact absurd expr.depth_pos (Nat.not_lt.mpr hdepth)
  | succ limit ih =>
      apply evaluateWithin_succ
      intro child hchild
      have hlt := depth_lt_of_mem_children hchild
      exact ih (by omega)

end Expr

end SolarTakeoff
