import SolarTakeoff.Formula.Parser
import Mathlib.Tactic

/-!
# The grammar of formulas

The documented grammar as an inductive relation between a phrase, the tokens it
covers and the tree they stand for.  Sums and products are left recursive, so
the relation fixes how operators of one level associate; parentheses have a
rule but no node.

The relation knows nothing of a parser: it has no tokens left over and no
lookahead.  That a variable is never followed by a parenthesis is not one of
its rules but a consequence of them, `Derives.namesKnown`.
-/

namespace SolarTakeoff

inductive Phrase where
  | expression
  | term
  | unary
  | primary
deriving DecidableEq

def Sign.token : Sign → Token
  | .plus => .plus
  | .minus => .minus

namespace Operator

def token : Operator → Token
  | .add => .plus
  | .subtract => .minus
  | .multiply => .star
  | .divide => .slash

def level : Operator → Level
  | .add | .subtract => .sum
  | .multiply | .divide => .product

end Operator

/-- The documented numbers of arguments: one to round, one or more to compare. -/
def Function.Takes : Function → ℕ → Prop
  | .ceil, count | .floor, count | .round, count => count = 1
  | .max, count | .min, count => 1 ≤ count

/-- Arguments are separated by commas; each stands with the tokens it covers. -/
def joinArguments (parts : List (List Token × Expr)) : List Token :=
  [.comma].intercalate (parts.map Prod.fst)

/-- `Derives phrase tokens expr` says that exactly these tokens, from the first
to the last, form the phrase and stand for the tree. -/
inductive Derives : Phrase → List Token → Expr → Prop where
  | term {tokens : List Token} {expr : Expr} :
      Derives .term tokens expr → Derives .expression tokens expr
  | sum {operator : Operator} {before after : List Token} {left right : Expr} :
      operator.level = .sum →
      Derives .expression before left →
      Derives .term after right →
      Derives .expression (before ++ operator.token :: after)
        (.binary operator left right)
  | unary {tokens : List Token} {expr : Expr} :
      Derives .unary tokens expr → Derives .term tokens expr
  | product {operator : Operator} {before after : List Token} {left right : Expr} :
      operator.level = .product →
      Derives .term before left →
      Derives .unary after right →
      Derives .term (before ++ operator.token :: after)
        (.binary operator left right)
  | signed {sign : Sign} {tokens : List Token} {operand : Expr} :
      Derives .unary tokens operand →
      Derives .unary (sign.token :: tokens) (.signed sign operand)
  | primary {tokens : List Token} {expr : Expr} :
      Derives .primary tokens expr → Derives .unary tokens expr
  | number (value : Binary64) :
      Derives .primary [.number value] (.number value)
  | input (input : Input) :
      Derives .primary [.word input.name] (.input input)
  | call {function : Function} {parts : List (List Token × Expr)} :
      function.Takes parts.length →
      (∀ part ∈ parts, Derives .expression part.1 part.2) →
      Derives .primary
        (.word function.name :: .opening :: (joinArguments parts ++ [.closing]))
        (.call function (parts.map Prod.snd))
  | parentheses {tokens : List Token} {expr : Expr} :
      Derives .expression tokens expr →
      Derives .primary (.opening :: (tokens ++ [.closing])) expr

/-! ## Tokens of the grammar and tokens of the rules -/

theorem Level.operator?_eq_some_iff
    {level : Level} {token : Token} {operator : Operator} :
    level.operator? token = some operator ↔
      operator.level = level ∧ operator.token = token := by
  constructor
  · intro h
    cases level <;> cases token <;> simp [Level.operator?] at h <;> subst h <;>
      exact ⟨rfl, rfl⟩
  · rintro ⟨rfl, rfl⟩
    cases operator <;> rfl

theorem Function.accepts_eq_true_iff {function : Function} {count : ℕ} :
    function.accepts count = true ↔ function.Takes count := by
  cases function <;> simp [Function.accepts, Function.Takes]

theorem Function.Takes.pos {function : Function} {count : ℕ}
    (htakes : function.Takes count) : 0 < count := by
  cases function <;> simp only [Function.Takes] at htakes <;> omega

@[simp] theorem joinArguments_singleton (part : List Token × Expr) :
    joinArguments [part] = part.1 := by
  simp [joinArguments]

theorem joinArguments_cons
    (part : List Token × Expr) {parts : List (List Token × Expr)}
    (hparts : parts ≠ []) :
    joinArguments (part :: parts) = part.1 ++ .comma :: joinArguments parts := by
  have hmap : parts.map Prod.fst ≠ [] := by simpa using hparts
  simp [joinArguments, List.intercalate_cons_of_ne_nil hmap]

/-- What holds of all arguments and goes through a comma holds of them together. -/
theorem joinArguments_induction
    {property : List Token → Prop} {parts : List (List Token × Expr)} (nil : property [])
    (comma : ∀ before after, property before → property after →
      property (before ++ .comma :: after))
    (hparts : ∀ part ∈ parts, property part.1) : property (joinArguments parts) := by
  induction parts with
  | nil => exact nil
  | cons part parts ih =>
      obtain ⟨hpart, hparts⟩ := List.forall_mem_cons.mp hparts
      by_cases hnil : parts = []
      · rwa [hnil, joinArguments_singleton]
      · rw [joinArguments_cons part hnil]
        exact comma _ _ hpart (ih hparts)

/-! ## Both levels of operators at once -/

def Level.phrase : Level → Phrase
  | .sum => .expression
  | .product => .term

def Level.operandPhrase : Level → Phrase
  | .sum => .term
  | .product => .unary

theorem Derives.ofOperand
    {level : Level} {tokens : List Token} {expr : Expr}
    (h : Derives level.operandPhrase tokens expr) :
    Derives level.phrase tokens expr := by
  cases level with
  | sum => exact .term h
  | product => exact .unary h

theorem Derives.operation
    {operator : Operator} {before after : List Token} {left right : Expr}
    (hleft : Derives operator.level.phrase before left)
    (hright : Derives operator.level.operandPhrase after right) :
    Derives operator.level.phrase (before ++ operator.token :: after)
      (.binary operator left right) := by
  cases hlevel : operator.level with
  | sum =>
      rw [hlevel] at hleft hright
      exact .sum hlevel hleft hright
  | product =>
      rw [hlevel] at hleft hright
      exact .product hlevel hleft hright

/-! ## First tokens -/

theorem Derives.exists_cons
    {phrase : Phrase} {tokens : List Token} {expr : Expr}
    (h : Derives phrase tokens expr) :
    ∃ token others, tokens = token :: others ∧ token ≠ .closing := by
  induction h with
  | term _ ih | unary _ ih | primary _ ih => exact ih
  | sum _ _ _ ih _ | product _ _ _ ih _ =>
      obtain ⟨token, others, rfl, hclosing⟩ := ih
      exact ⟨token, _, rfl, hclosing⟩
  | @signed sign =>
      exact ⟨_, _, rfl, by cases sign <;> simp [Sign.token]⟩
  | number | input | call | parentheses => exact ⟨_, _, rfl, by simp⟩

theorem Derives.ne_nil
    {phrase : Phrase} {tokens : List Token} {expr : Expr}
    (h : Derives phrase tokens expr) : tokens ≠ [] := by
  obtain ⟨token, others, rfl, -⟩ := h.exists_cons
  exact List.cons_ne_nil token others

theorem Derives.head_ne_sign
    {tokens : List Token} {expr : Expr}
    (h : Derives .primary tokens expr) (sign : Sign) (others : List Token) :
    tokens ≠ sign.token :: others := by
  cases h <;> cases sign <;> simp [Sign.token]

/-! ## Names -/

/-- Every word names a function where a parenthesis follows it, and an input
everywhere else. -/
def NamesKnown (tokens : List Token) : Prop :=
  ∀ index name, tokens[index]? = some (.word name) →
    if tokens[index + 1]? = some .opening then ∃ function : Function, function.name = name
    else ∃ input : Input, input.name = name

theorem namesKnown_nil : NamesKnown [] := by
  intro index name hword
  simp at hword

/-- A parenthesis that opens the second part could turn the last word of the
first part into a function; nothing else in it could. -/
theorem NamesKnown.append
    {before after : List Token}
    (hbefore : NamesKnown before) (hafter : NamesKnown after)
    (hopening : after.head? ≠ some .opening) :
    NamesKnown (before ++ after) := by
  intro index name hword
  by_cases hindex : index < before.length
  · rw [List.getElem?_append_left hindex] at hword
    have hname := hbefore index name hword
    by_cases hnext : index + 1 < before.length
    · rwa [List.getElem?_append_left hnext]
    · have hlast : before[index + 1]? = none := by
        simpa using Nat.le_of_not_lt hnext
      have hfirst : (before ++ after)[index + 1]? ≠ some .opening := by
        rw [List.getElem?_append_right (by omega), show index + 1 - before.length = 0 by omega]
        simpa [List.head?_eq_getElem?] using hopening
      rw [if_neg hfirst]
      simpa [hlast] using hname
  · have hle : before.length ≤ index := by omega
    rw [List.getElem?_append_right hle] at hword
    rw [List.getElem?_append_right (by omega),
      show index + 1 - before.length = index - before.length + 1 by omega]
    exact hafter _ name hword

theorem NamesKnown.cons
    {token : Token} {tokens : List Token}
    (htokens : NamesKnown tokens) (htoken : ∀ name, token ≠ .word name) :
    NamesKnown (token :: tokens) := by
  intro index name hword
  cases index with
  | zero => simp [htoken name] at hword
  | succ index => simpa using htokens index name (by simpa using hword)

theorem NamesKnown.ofFunction
    {function : Function} {tokens : List Token} (htokens : NamesKnown tokens) :
    NamesKnown (.word function.name :: .opening :: tokens) := by
  intro index name hword
  cases index with
  | zero =>
      have hname : function.name = name := by simpa using hword
      simp [← hname]
  | succ index =>
      have hopening : NamesKnown (.opening :: tokens) := htokens.cons (by simp)
      simpa using hopening index name (by simpa using hword)

theorem NamesKnown.closed
    {tokens : List Token} (htokens : NamesKnown tokens) :
    NamesKnown (tokens ++ [.closing]) :=
  htokens.append (namesKnown_nil.cons (by simp)) (by simp)

theorem namesKnown_joinArguments
    {parts : List (List Token × Expr)} (hparts : ∀ part ∈ parts, NamesKnown part.1) :
    NamesKnown (joinArguments parts) := by
  refine joinArguments_induction namesKnown_nil ?_ hparts
  intro before after hbefore hafter
  exact hbefore.append (hafter.cons (by simp)) (by simp)

theorem NamesKnown.operation
    {operator : Operator} {before after : List Token}
    (hbefore : NamesKnown before) (hafter : NamesKnown after) :
    NamesKnown (before ++ operator.token :: after) := by
  refine hbefore.append (hafter.cons ?_) ?_ <;> cases operator <;> simp [Operator.token]

/-- What derives mentions no name but those of the four inputs and the five
functions, and a name's kind shows in the token after it. -/
theorem Derives.namesKnown
    {phrase : Phrase} {tokens : List Token} {expr : Expr}
    (h : Derives phrase tokens expr) : NamesKnown tokens := by
  induction h with
  | term _ ih | unary _ ih | primary _ ih => exact ih
  | sum _ _ _ ihLeft ihRight | product _ _ _ ihLeft ihRight => exact ihLeft.operation ihRight
  | @signed sign _ _ _ ih => exact ih.cons (by cases sign <;> simp [Sign.token])
  | number value => exact namesKnown_nil.cons (by simp)
  | input input =>
      intro index name hword
      cases index with
      | zero => simpa using ⟨input, by simpa using hword⟩
      | succ index => simp at hword
  | call _ _ ih => exact (namesKnown_joinArguments ih).closed.ofFunction
  | parentheses _ ih => exact ih.closed.cons (by simp)

end SolarTakeoff
