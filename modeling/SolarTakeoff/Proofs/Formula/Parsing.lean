import SolarTakeoff.Proofs.Formula.Grammar
import SolarTakeoff.Proofs.Sequences
import Mathlib.Tactic

/-!
# The parser reads exactly the grammar

Each rule of the parser gets one lemma that says when it reads a value and what
it leaves.  Soundness follows from these along the recursion of the rules,
completeness along derivations.

The rules look one token ahead, so a phrase is read completely only where the
token after it cannot continue it.  A chain of operators reads its left side
before it knows where it ends; the statement about chains therefore speaks of
the tail that is still to come.
-/

namespace SolarTakeoff

/-! ## Results that are readings -/

section Readings

variable {ε σ α β : Type} {inner bound : ℕ} {value : α} {rest : List σ}

/-- The result is a reading of the value that leaves the rest. -/
def Reads (result : Except ε (Reading σ α bound)) (value : α) (rest : List σ) : Prop :=
  ∃ reading, result = .ok reading ∧ reading.value = value ∧ reading.rest = rest

theorem Reads.length_lt {result : Except ε (Reading σ α bound)}
    (h : Reads result value rest) : rest.length < bound := by
  obtain ⟨reading, -, -, rfl⟩ := h
  exact reading.shorter

theorem reads_pure_iff {reading : Reading σ α bound} :
    Reads (pure reading : Except ε (Reading σ α bound)) value rest ↔
      reading.value = value ∧ reading.rest = rest := by
  simp [Reads, pure, Except.pure]

@[simp] theorem not_reads_throw {error : ε} :
    ¬ Reads (throw error : Except ε (Reading σ α bound)) value rest := by
  simp [Reads, throw, throwThe, MonadExceptOf.throw]

theorem reads_bind_iff {result : Except ε (Reading σ β inner)}
    {next : Reading σ β inner → Except ε (Reading σ α bound)} :
    Reads (result >>= next) value rest ↔
      ∃ reading, result = .ok reading ∧ Reads (next reading) value rest := by
  cases result <;> simp [Reads, bind, Except.bind]

end Readings

theorem head?_ne_of_forall_ne_cons {α : Type} {first : α} {list : List α}
    (h : ∀ others, list ≠ first :: others) : list.head? ≠ some first := by
  cases list with
  | nil => simp
  | cons other others =>
      rw [List.head?_cons, ne_eq, Option.some.injEq]
      rintro rfl
      exact h others rfl

/-! ## What each rule reads -/

namespace Formula

variable {level : Level} {tokens rest : List Token} {expr : Expr}

theorem reads_chain_iff :
    Reads (chain level tokens) expr rest ↔
      ∃ left between, Reads (operand level tokens) left between ∧
        Reads (chainTail level left between) expr rest := by
  rw [chain]
  simp only [reads_bind_iff, reads_pure_iff]
  simp [Reads]

theorem reads_operand_sum_iff :
    Reads (operand .sum tokens) expr rest ↔ Reads (chain .product tokens) expr rest := by
  rw [operand]

theorem reads_operand_product_iff :
    Reads (operand .product tokens) expr rest ↔ Reads (signed tokens) expr rest := by
  rw [operand]

theorem reads_chainTail_nil_iff {left : Expr} :
    Reads (chainTail level left []) expr rest ↔ left = expr ∧ [] = rest := by
  rw [chainTail]
  exact reads_pure_iff

theorem reads_chainTail_cons_iff {token : Token} {left : Expr} :
    Reads (chainTail level left (token :: tokens)) expr rest ↔
      level.operator? token = none ∧ left = expr ∧ token :: tokens = rest ∨
      ∃ operator right between, level.operator? token = some operator ∧
        Reads (operand level tokens) right between ∧
        Reads (chainTail level (.binary operator left right) between) expr rest := by
  rw [chainTail]
  cases hoperator : level.operator? token with
  | none => simp [reads_pure_iff]
  | some operator =>
      simp only [reads_bind_iff, reads_pure_iff]
      simp [Reads]

theorem reads_signed_token_iff {sign : Sign} :
    Reads (signed (sign.token :: tokens)) expr rest ↔
      ∃ operand, Reads (signed tokens) operand rest ∧ .signed sign operand = expr := by
  cases sign <;> simp only [Sign.token] <;> rw [signed] <;>
    simp only [reads_bind_iff, reads_pure_iff] <;> simp [Reads] <;> grind

theorem reads_signed_iff (hsign : ∀ sign others, tokens ≠ Sign.token sign :: others) :
    Reads (signed tokens) expr rest ↔ Reads (primary tokens) expr rest := by
  rw [signed]
  · exact fun others => hsign .plus others
  · exact fun others => hsign .minus others

theorem reads_primary_number_iff {value : Binary64} :
    Reads (primary (.number value :: tokens)) expr rest ↔
      .number value = expr ∧ tokens = rest := by
  rw [primary]
  exact reads_pure_iff

theorem reads_primary_opening_iff :
    Reads (primary (.opening :: tokens)) expr rest ↔
      Reads (chain .sum tokens) expr (.closing :: rest) := by
  rw [primary]
  simp only [reads_bind_iff]
  constructor
  · rintro ⟨reading, hreading, h⟩
    split at h
    · obtain ⟨rfl, rfl⟩ := reads_pure_iff.mp h
      exact ⟨_, hreading, rfl, rfl⟩
    · exact (not_reads_throw h).elim
    · exact (not_reads_throw h).elim
  · rintro ⟨⟨value, others, hshorter⟩, hreading, rfl, rfl⟩
    exact ⟨_, hreading, reads_pure_iff.mpr ⟨rfl, rfl⟩⟩

theorem reads_primary_call_iff {name : String} :
    Reads (primary (.word name :: .opening :: tokens)) expr rest ↔
      ∃ function exprs, Function.named? name = some function ∧
        Reads (arguments tokens) exprs rest ∧ function.accepts exprs.length = true ∧
        .call function exprs = expr := by
  rw [primary]
  cases hname : Function.named? name with
  | none => simp
  | some function =>
      simp only [reads_bind_iff]
      constructor
      · rintro ⟨reading, hreading, h⟩
        split at h
        next haccepts =>
          obtain ⟨rfl, rfl⟩ := reads_pure_iff.mp h
          exact ⟨function, reading.value, rfl, ⟨_, hreading, rfl, rfl⟩, haccepts, rfl⟩
        next => exact (not_reads_throw h).elim
      · rintro ⟨_, exprs, hsome, ⟨reading, hreading, rfl, rfl⟩, haccepts, rfl⟩
        cases hsome
        exact ⟨_, hreading, by simp [reads_pure_iff, haccepts]⟩

theorem reads_primary_input_iff {name : String}
    (hopening : tokens.head? ≠ some .opening) :
    Reads (primary (.word name :: tokens)) expr rest ↔
      ∃ input, Input.named? name = some input ∧ .input input = expr ∧ tokens = rest := by
  rw [primary]
  · cases hname : Input.named? name with
    | none => simp
    | some input => simp [reads_pure_iff]
  · rintro others rfl
    simp at hopening

theorem not_reads_primary_nil : ¬ Reads (primary []) expr rest := by
  rw [primary]
  exact not_reads_throw

theorem not_reads_primary_cons {token : Token} (hnumber : ∀ value, token ≠ .number value)
    (hword : ∀ name, token ≠ .word name) (hopening : token ≠ .opening) :
    ¬ Reads (primary (token :: tokens)) expr rest := by
  rw [primary]
  · exact not_reads_throw
  · exact hnumber
  · exact hopening
  · exact fun name _ h _ => hword name h
  · exact hword

theorem reads_arguments_iff (hclosing : ∀ others, tokens ≠ .closing :: others)
    {exprs : List Expr} :
    Reads (arguments tokens) exprs rest ↔ Reads (argumentList tokens) exprs rest := by
  rw [arguments]
  exact hclosing

theorem reads_arguments_closing_iff {exprs : List Expr} :
    Reads (arguments (.closing :: tokens)) exprs rest ↔ [] = exprs ∧ tokens = rest := by
  rw [arguments]
  exact reads_pure_iff

theorem reads_argumentList_iff {exprs : List Expr} :
    Reads (argumentList tokens) exprs rest ↔
      (∃ expr, Reads (chain .sum tokens) expr (.closing :: rest) ∧ [expr] = exprs) ∨
      ∃ expr others between, Reads (chain .sum tokens) expr (.comma :: between) ∧
        Reads (argumentList between) others rest ∧ expr :: others = exprs := by
  rw [argumentList]
  simp only [reads_bind_iff]
  constructor
  · rintro ⟨reading, hreading, h⟩
    split at h
    · obtain ⟨rfl, rfl⟩ := reads_pure_iff.mp h
      exact .inl ⟨_, ⟨_, hreading, rfl, rfl⟩, rfl⟩
    · simp only [reads_bind_iff, reads_pure_iff] at h
      obtain ⟨others, hothers, rfl, rfl⟩ := h
      exact .inr ⟨_, _, _, ⟨_, hreading, rfl, rfl⟩, ⟨_, hothers, rfl, rfl⟩, rfl⟩
    · exact (not_reads_throw h).elim
    · exact (not_reads_throw h).elim
  · rintro (⟨expr, ⟨⟨value, others, hshorter⟩, hreading, rfl, rfl⟩, rfl⟩ |
      ⟨expr, others, between, ⟨⟨value, _, hshorter⟩, hreading, rfl, rfl⟩,
        ⟨further, hfurther, rfl, rfl⟩, rfl⟩)
    · exact ⟨_, hreading, reads_pure_iff.mpr ⟨rfl, rfl⟩⟩
    · refine ⟨_, hreading, ?_⟩
      simp only [reads_bind_iff, reads_pure_iff]
      exact ⟨further, hfurther, rfl, rfl⟩

theorem ofTokens_eq_ok_iff_reads :
    ofTokens tokens = .ok expr ↔ Reads (chain .sum tokens) expr [] := by
  unfold ofTokens
  cases hchain : chain .sum tokens with
  | error error => simp [Reads, bind, Except.bind]
  | ok reading =>
      obtain ⟨value, rest, hshorter⟩ := reading
      cases rest <;> simp [Reads, bind, Except.bind, pure, Except.pure, throw, throwThe,
        MonadExceptOf.throw]

/-! ## What is read derives -/

/-- The tokens begin with a phrase for the tree, and the rest follows it. -/
def Covers (phrase : Phrase) (tokens : List Token) (expr : Expr) (rest : List Token) :
    Prop :=
  ∃ read, tokens = read ++ rest ∧ Derives phrase read expr

/-- The same for arguments with commas between them and a parenthesis after them. -/
def CoversArguments (tokens : List Token) (exprs : List Expr) (rest : List Token) : Prop :=
  ∃ parts, parts ≠ [] ∧ tokens = joinArguments parts ++ .closing :: rest ∧
    parts.map Prod.snd = exprs ∧ ∀ part ∈ parts, Derives .expression part.1 part.2

def ChainSound (level : Level) (tokens : List Token) : Prop :=
  ∀ expr rest, Reads (chain level tokens) expr rest → Covers level.phrase tokens expr rest

/-- What a tail reads turns every phrase for its left side into one for the result. -/
def TailSound (level : Level) (left : Expr) (tokens : List Token) : Prop :=
  ∀ expr rest, Reads (chainTail level left tokens) expr rest →
    ∃ read, tokens = read ++ rest ∧
      ∀ before, Derives level.phrase before left → Derives level.phrase (before ++ read) expr

def OperandSound (level : Level) (tokens : List Token) : Prop :=
  ∀ expr rest, Reads (operand level tokens) expr rest →
    Covers level.operandPhrase tokens expr rest

def SignedSound (tokens : List Token) : Prop :=
  ∀ expr rest, Reads (signed tokens) expr rest → Covers .unary tokens expr rest

def PrimarySound (tokens : List Token) : Prop :=
  ∀ expr rest, Reads (primary tokens) expr rest → Covers .primary tokens expr rest

def ArgumentListSound (tokens : List Token) : Prop :=
  ∀ exprs rest, Reads (argumentList tokens) exprs rest → CoversArguments tokens exprs rest

/-- The parser reads an empty list of arguments before it refuses it. -/
def ArgumentsSound (tokens : List Token) : Prop :=
  ∀ exprs rest, Reads (arguments tokens) exprs rest → exprs ≠ [] →
    CoversArguments tokens exprs rest

theorem chainSound_of_tail
    (hoperand : OperandSound level tokens)
    (htail : ∀ left between, between.length < tokens.length → TailSound level left between) :
    ChainSound level tokens := by
  intro expr rest h
  obtain ⟨left, between, hleft, hrest⟩ := reads_chain_iff.mp h
  obtain ⟨first, rfl, hfirst⟩ := hoperand left between hleft
  obtain ⟨read, rfl, hread⟩ := htail left between hleft.length_lt expr rest hrest
  exact ⟨first ++ read, by simp, hread first hfirst.ofOperand⟩

theorem tailSound_nil (level : Level) (left : Expr) : TailSound level left [] := by
  intro expr rest h
  obtain ⟨rfl, rfl⟩ := reads_chainTail_nil_iff.mp h
  exact ⟨[], rfl, by simp⟩

theorem tailSound_of_operator?_eq_none {token : Token} (left : Expr)
    (hnone : level.operator? token = none) :
    TailSound level left (token :: tokens) := by
  intro expr rest h
  rcases reads_chainTail_cons_iff.mp h with ⟨-, rfl, rfl⟩ | ⟨operator, _, _, hsome, -⟩
  · exact ⟨[], rfl, by simp⟩
  · simp [hnone] at hsome

theorem tailSound_of_operator?_eq_some {token : Token} {left : Expr} {operator : Operator}
    (hsome : level.operator? token = some operator)
    (hoperand : OperandSound level tokens)
    (htail : ∀ right between, between.length < tokens.length →
      TailSound level (.binary operator left right) between) :
    TailSound level left (token :: tokens) := by
  intro expr rest h
  rcases reads_chainTail_cons_iff.mp h with
    ⟨hnone, -, -⟩ | ⟨other, right, between, hother, hright, hrest⟩
  · simp [hnone] at hsome
  · obtain rfl : operator = other := by simpa [hsome] using hother
    obtain ⟨rfl, rfl⟩ := Level.operator?_eq_some_iff.mp hsome
    obtain ⟨second, rfl, hsecond⟩ := hoperand right between hright
    obtain ⟨read, rfl, hread⟩ := htail right between hright.length_lt expr rest hrest
    refine ⟨operator.token :: (second ++ read), by simp, ?_⟩
    intro before hbefore
    simpa using hread _ (hbefore.operation hsecond)

theorem signedSound_cons (sign : Sign) (h : SignedSound tokens) :
    SignedSound (sign.token :: tokens) := by
  intro expr rest hread
  obtain ⟨operand, hoperand, rfl⟩ := reads_signed_token_iff.mp hread
  obtain ⟨read, rfl, hderives⟩ := h operand rest hoperand
  exact ⟨sign.token :: read, rfl, .signed hderives⟩

theorem signedSound_of_primary
    (hplus : ∀ others, tokens ≠ .plus :: others)
    (hminus : ∀ others, tokens ≠ .minus :: others)
    (h : PrimarySound tokens) : SignedSound tokens := by
  intro expr rest hread
  have hsign : ∀ sign others, tokens ≠ Sign.token sign :: others := by
    rintro (_ | _)
    exacts [hplus, hminus]
  obtain ⟨read, rfl, hderives⟩ := h expr rest ((reads_signed_iff hsign).mp hread)
  exact ⟨read, rfl, .primary hderives⟩

theorem primarySound_number (value : Binary64) (tokens : List Token) :
    PrimarySound (.number value :: tokens) := by
  intro expr rest h
  obtain ⟨rfl, rfl⟩ := reads_primary_number_iff.mp h
  exact ⟨[.number value], rfl, .number value⟩

theorem primarySound_opening (hchain : ChainSound .sum tokens) :
    PrimarySound (.opening :: tokens) := by
  intro expr rest h
  obtain ⟨read, rfl, hderives⟩ := hchain expr _ (reads_primary_opening_iff.mp h)
  exact ⟨.opening :: (read ++ [.closing]), by simp, .parentheses hderives⟩

theorem primarySound_input (name : String) (hopening : tokens.head? ≠ some .opening) :
    PrimarySound (.word name :: tokens) := by
  intro expr rest h
  obtain ⟨input, hname, rfl, rfl⟩ := (reads_primary_input_iff hopening).mp h
  rw [Input.named?_eq_some_iff] at hname
  exact ⟨[.word name], rfl, hname ▸ .input input⟩

theorem primarySound_call {name : String}
    (harguments : ∀ function, Function.named? name = some function →
      ArgumentsSound tokens) :
    PrimarySound (.word name :: .opening :: tokens) := by
  intro expr rest h
  obtain ⟨function, exprs, hname, hexprs, haccepts, rfl⟩ := reads_primary_call_iff.mp h
  have htakes := Function.accepts_eq_true_iff.mp haccepts
  obtain ⟨parts, -, rfl, rfl, hparts⟩ :=
    harguments function hname exprs rest hexprs (List.length_pos_iff.mp htakes.pos)
  rw [Function.named?_eq_some_iff] at hname
  refine ⟨.word name :: .opening :: (joinArguments parts ++ [.closing]), by simp, ?_⟩
  exact hname ▸ .call (by simpa using htakes) hparts

theorem argumentsSound_closing (tokens : List Token) :
    ArgumentsSound (.closing :: tokens) := by
  intro exprs rest h hexprs
  exact (hexprs (reads_arguments_closing_iff.mp h).1.symm).elim

theorem argumentsSound_of_list
    (hclosing : ∀ others, tokens ≠ .closing :: others)
    (h : ArgumentListSound tokens) : ArgumentsSound tokens := by
  intro exprs rest hread _
  exact h exprs rest ((reads_arguments_iff hclosing).mp hread)

theorem argumentListSound_of_chain
    (hchain : ChainSound .sum tokens)
    (hlist : ∀ between, (Token.comma :: between).length < tokens.length →
      ArgumentListSound between) :
    ArgumentListSound tokens := by
  intro exprs rest h
  rcases reads_argumentList_iff.mp h with
    ⟨expr, hexpr, rfl⟩ | ⟨expr, others, between, hexpr, hothers, rfl⟩
  · obtain ⟨read, rfl, hderives⟩ := hchain expr _ hexpr
    refine ⟨[(read, expr)], by simp, by simp, rfl, ?_⟩
    exact List.forall_mem_singleton.mpr hderives
  · obtain ⟨read, rfl, hderives⟩ := hchain expr _ hexpr
    obtain ⟨parts, hne, rfl, rfl, hparts⟩ :=
      hlist between hexpr.length_lt others rest hothers
    refine ⟨(read, expr) :: parts, by simp, ?_, rfl, ?_⟩
    · simp [joinArguments_cons _ hne]
    · exact List.forall_mem_cons.mpr ⟨hderives, hparts⟩

theorem rulesSound :
    (∀ level tokens, ChainSound level tokens) ∧
      (∀ level left tokens, TailSound level left tokens) ∧
      (∀ level tokens, OperandSound level tokens) ∧
      (∀ tokens, SignedSound tokens) ∧
      (∀ tokens, PrimarySound tokens) ∧
      (∀ tokens, ArgumentsSound tokens) ∧
      ∀ tokens, ArgumentListSound tokens := by
  refine chain.mutual_induct ChainSound TailSound OperandSound SignedSound PrimarySound
    ArgumentsSound ArgumentListSound ?_ ?_ ?_ ?_ ?_ ?_ ?_ ?_ ?_ ?_ ?_ ?_ ?_ ?_ ?_ ?_ ?_ ?_ ?_ ?_
  case refine_1 => exact fun _ _ => chainSound_of_tail
  case refine_2 => exact tailSound_nil
  case refine_3 => exact fun _ left _ _ => tailSound_of_operator?_eq_none left
  case refine_4 => exact fun _ _ _ _ _ => tailSound_of_operator?_eq_some
  case refine_5 =>
    exact fun _ h expr rest hread => h expr rest (reads_operand_sum_iff.mp hread)
  case refine_6 =>
    exact fun _ h expr rest hread => h expr rest (reads_operand_product_iff.mp hread)
  case refine_7 => exact fun _ => signedSound_cons .plus
  case refine_8 => exact fun _ => signedSound_cons .minus
  case refine_9 => exact fun _ => signedSound_of_primary
  case refine_10 => exact fun _ _ h => (not_reads_primary_nil h).elim
  case refine_11 => exact primarySound_number
  case refine_12 => exact fun _ => primarySound_opening
  case refine_13 =>
    exact fun _ _ hnone => primarySound_call fun function hsome => by simp [hnone] at hsome
  case refine_14 => exact fun _ _ _ _ h => primarySound_call fun _ _ => h
  case refine_15 =>
    intro name tokens hopening _
    exact primarySound_input name (head?_ne_of_forall_ne_cons hopening)
  case refine_16 =>
    intro name tokens hopening _ _
    exact primarySound_input name (head?_ne_of_forall_ne_cons hopening)
  case refine_17 =>
    exact fun _ _ hnumber hopening _ hword _ _ h =>
      (not_reads_primary_cons hnumber hword hopening h).elim
  case refine_18 => exact argumentsSound_closing
  case refine_19 => exact fun _ => argumentsSound_of_list
  case refine_20 => exact fun _ => argumentListSound_of_chain

theorem chainSound (level : Level) (tokens : List Token) : ChainSound level tokens :=
  rulesSound.1 level tokens

theorem signedSound (tokens : List Token) : SignedSound tokens :=
  rulesSound.2.2.2.1 tokens

theorem primarySound (tokens : List Token) : PrimarySound tokens :=
  rulesSound.2.2.2.2.1 tokens

/-! ## What derives is read -/

/-- The rest cannot continue an operand of the level: it does not start with a
parenthesis, which would make the last word a function, nor with an operator
that binds tighter. -/
def Stops (level : Level) (rest : List Token) : Prop :=
  rest.head? ≠ some .opening ∧
    ∀ operator : Operator, operator.level = .product → level = .sum →
      rest.head? ≠ some operator.token

def OperandComplete (level : Level) (tokens : List Token) (expr : Expr) : Prop :=
  ∀ rest, Stops level rest → Reads (operand level (tokens ++ rest)) expr rest

/-- A chain reads on after its tokens just as the tail does that starts from its tree. -/
def ChainComplete (level : Level) (tokens : List Token) (expr : Expr) : Prop :=
  ∀ rest value further, Stops level rest → Reads (chainTail level expr rest) value further →
    Reads (chain level (tokens ++ rest)) value further

def SignedComplete (tokens : List Token) (expr : Expr) : Prop :=
  ∀ rest, rest.head? ≠ some .opening → Reads (signed (tokens ++ rest)) expr rest

def PrimaryComplete (tokens : List Token) (expr : Expr) : Prop :=
  ∀ rest, rest.head? ≠ some .opening → Reads (primary (tokens ++ rest)) expr rest

def PhraseComplete : Phrase → List Token → Expr → Prop
  | .expression => ChainComplete .sum
  | .term => ChainComplete .product
  | .unary => SignedComplete
  | .primary => PrimaryComplete

theorem stops_nil (level : Level) : Stops level [] := by
  simp [Stops]

theorem stops_operation (operator : Operator) (rest : List Token) :
    Stops operator.level (operator.token :: rest) := by
  constructor
  · cases operator <;> simp [Operator.token]
  · intro other hother hlevel
    cases operator <;> cases other <;> simp_all [Operator.token, Operator.level]

theorem stops_separator {token : Token} (htoken : token = .comma ∨ token = .closing)
    (level : Level) (rest : List Token) : Stops level (token :: rest) := by
  rcases htoken with rfl | rfl <;> refine ⟨by simp, ?_⟩ <;> intro operator <;>
    cases operator <;> simp [Operator.token]

theorem reads_chainTail_self {expr : Expr}
    (hrest : ∀ operator : Operator, operator.level = level →
      rest.head? ≠ some operator.token) :
    Reads (chainTail level expr rest) expr rest := by
  cases rest with
  | nil => exact reads_chainTail_nil_iff.mpr ⟨rfl, rfl⟩
  | cons token rest =>
      refine reads_chainTail_cons_iff.mpr (.inl ⟨?_, rfl, rfl⟩)
      rw [Option.eq_none_iff_forall_ne_some]
      intro operator hsome
      obtain ⟨hlevel, rfl⟩ := Level.operator?_eq_some_iff.mp hsome
      exact hrest operator hlevel rfl

theorem chainComplete_of_operand (h : OperandComplete level tokens expr) :
    ChainComplete level tokens expr := by
  intro rest value further hstops htail
  exact reads_chain_iff.mpr ⟨expr, rest, h rest hstops, htail⟩

theorem operandComplete_of_term (h : ChainComplete .product tokens expr) :
    OperandComplete .sum tokens expr := by
  intro rest ⟨hopening, hproduct⟩
  refine reads_operand_sum_iff.mpr (h rest expr rest ⟨hopening, by simp⟩ ?_)
  exact reads_chainTail_self fun operator hlevel => hproduct operator hlevel rfl

theorem operandComplete_of_unary (h : SignedComplete tokens expr) :
    OperandComplete .product tokens expr := by
  intro rest hstops
  exact reads_operand_product_iff.mpr (h rest hstops.1)

theorem chainComplete_operation {operator : Operator} {before after : List Token}
    {left right : Expr} (hlevel : operator.level = level)
    (hleft : ChainComplete level before left)
    (hright : OperandComplete level after right) :
    ChainComplete level (before ++ operator.token :: after)
      (.binary operator left right) := by
  subst hlevel
  intro rest value further hstops htail
  have htoken : operator.level.operator? operator.token = some operator :=
    Level.operator?_eq_some_iff.mpr ⟨rfl, rfl⟩
  have hafter : Reads (chainTail operator.level left (operator.token :: (after ++ rest)))
      value further :=
    reads_chainTail_cons_iff.mpr
      (.inr ⟨operator, right, rest, htoken, hright rest hstops, htail⟩)
  rw [List.append_assoc, List.cons_append]
  exact hleft _ value further (stops_operation operator _) hafter

theorem signedComplete_cons (sign : Sign) (h : SignedComplete tokens expr) :
    SignedComplete (sign.token :: tokens) (.signed sign expr) := by
  intro rest hopening
  exact reads_signed_token_iff.mpr ⟨expr, h rest hopening, rfl⟩

theorem signedComplete_of_primary (hderives : Derives .primary tokens expr)
    (h : PrimaryComplete tokens expr) : SignedComplete tokens expr := by
  intro rest hopening
  refine (reads_signed_iff ?_).mpr (h rest hopening)
  intro sign others htokens
  obtain ⟨token, tokens, rfl, -⟩ := hderives.exists_cons
  exact hderives.head_ne_sign sign tokens (by simp_all)

theorem primaryComplete_parentheses (h : ChainComplete .sum tokens expr) :
    PrimaryComplete (.opening :: (tokens ++ [.closing])) expr := by
  intro rest _
  have hchain : Reads (chain .sum (tokens ++ .closing :: rest)) expr (.closing :: rest) := by
    refine h _ _ _ (stops_separator (.inr rfl) _ _) (reads_chainTail_self ?_)
    intro operator _
    cases operator <;> simp [Operator.token]
  rw [List.cons_append, List.append_assoc]
  exact reads_primary_opening_iff.mpr hchain

theorem reads_argumentList_joinArguments
    {parts : List (List Token × Expr)} (hne : parts ≠ [])
    (hparts : ∀ part ∈ parts, ChainComplete .sum part.1 part.2) :
    Reads (argumentList (joinArguments parts ++ .closing :: rest))
      (parts.map Prod.snd) rest := by
  have hpart : ∀ part ∈ parts, ∀ token, token = .comma ∨ token = .closing →
      ∀ others, Reads (chain .sum (part.1 ++ token :: others)) part.2 (token :: others) := by
    intro part hmem token htoken others
    refine hparts part hmem _ _ _ (stops_separator htoken _ _) (reads_chainTail_self ?_)
    intro operator _
    rcases htoken with rfl | rfl <;> cases operator <;> simp [Operator.token]
  induction parts with
  | nil => exact (hne rfl).elim
  | cons part parts ih =>
      refine reads_argumentList_iff.mpr ?_
      by_cases hnil : parts = []
      · subst hnil
        rw [joinArguments_singleton]
        exact .inl ⟨part.2, hpart part (by simp) .closing (.inr rfl) rest, rfl⟩
      · have hlist := ih hnil (fun other hother => hparts other (by simp [hother]))
          (fun other hother => hpart other (by simp [hother]))
        rw [joinArguments_cons part hnil, List.append_assoc, List.cons_append]
        exact .inr ⟨part.2, _, _, hpart part (by simp) .comma (.inl rfl) _, hlist, rfl⟩

theorem joinArguments_ne_closing
    {parts : List (List Token × Expr)} (hne : parts ≠ [])
    (hparts : ∀ part ∈ parts, Derives .expression part.1 part.2) (others : List Token) :
    joinArguments parts ++ rest ≠ .closing :: others := by
  obtain ⟨part, parts, rfl⟩ := List.exists_cons_of_ne_nil hne
  obtain ⟨token, tokens, htokens, hclosing⟩ := (hparts part (by simp)).exists_cons
  by_cases hnil : parts = []
  · simp [hnil, htokens, hclosing]
  · simp [joinArguments_cons part hnil, htokens, hclosing]

theorem primaryComplete_call {function : Function} {parts : List (List Token × Expr)}
    (htakes : function.Takes parts.length)
    (hderives : ∀ part ∈ parts, Derives .expression part.1 part.2)
    (hparts : ∀ part ∈ parts, ChainComplete .sum part.1 part.2) :
    PrimaryComplete (.word function.name :: .opening :: (joinArguments parts ++ [.closing]))
      (.call function (parts.map Prod.snd)) := by
  intro rest _
  have hne : parts ≠ [] := List.length_pos_iff.mp htakes.pos
  have hlist : Reads (arguments (joinArguments parts ++ .closing :: rest))
      (parts.map Prod.snd) rest :=
    (reads_arguments_iff (joinArguments_ne_closing hne hderives)).mpr
      (reads_argumentList_joinArguments hne hparts)
  have haccepts : function.accepts (parts.map Prod.snd).length = true := by
    simpa [Function.accepts_eq_true_iff] using htakes
  rw [List.cons_append, List.cons_append, List.append_assoc]
  exact reads_primary_call_iff.mpr
    ⟨function, _, Function.named?_eq_some_iff.mpr rfl, hlist, haccepts, rfl⟩

theorem phraseComplete {phrase : Phrase} (h : Derives phrase tokens expr) :
    PhraseComplete phrase tokens expr := by
  induction h with
  | term _ ih => exact chainComplete_of_operand (operandComplete_of_term ih)
  | sum hlevel _ _ ihLeft ihRight =>
      exact chainComplete_operation hlevel ihLeft (operandComplete_of_term ihRight)
  | unary _ ih => exact chainComplete_of_operand (operandComplete_of_unary ih)
  | product hlevel _ _ ihLeft ihRight =>
      exact chainComplete_operation hlevel ihLeft (operandComplete_of_unary ihRight)
  | @signed sign _ _ _ ih => exact signedComplete_cons sign ih
  | primary hderives ih => exact signedComplete_of_primary hderives ih
  | number value => exact fun rest _ => reads_primary_number_iff.mpr ⟨rfl, rfl⟩
  | input input =>
      intro rest hopening
      exact (reads_primary_input_iff hopening).mpr
        ⟨input, Input.named?_eq_some_iff.mpr rfl, rfl, rfl⟩
  | call htakes hderives ih => exact primaryComplete_call htakes hderives ih
  | parentheses _ ih => exact primaryComplete_parentheses ih

theorem ofTokens_eq_ok_iff_derives :
    ofTokens tokens = .ok expr ↔ Derives .expression tokens expr := by
  rw [ofTokens_eq_ok_iff_reads]
  constructor
  · intro h
    obtain ⟨read, rfl, hderives⟩ := chainSound .sum tokens expr [] h
    rwa [List.append_nil]
  · intro h
    have hchain := phraseComplete h [] expr [] (stops_nil .sum)
      (reads_chainTail_nil_iff.mpr ⟨rfl, rfl⟩)
    rwa [List.append_nil] at hchain

end Formula

/-! ## Texts -/

section Texts

variable {text : String}

theorem Expr.ofText_of_blank (h : trimBlanks text.toList = []) :
    Expr.ofText text = .error .blank := by
  simp [Expr.ofText, h, bind, Except.bind, throw, throwThe, MonadExceptOf.throw]

theorem Expr.ofText_of_formulaLimit_lt (h : formulaLimit < (trimBlanks text.toList).length) :
    Expr.ofText text = .error (.tooLong formulaLimit) := by
  have hne : trimBlanks text.toList ≠ [] := List.ne_nil_of_length_pos (Nat.zero_lt_of_lt h)
  simp [Expr.ofText, hne, h, bind, Except.bind, throw, throwThe, MonadExceptOf.throw]

theorem Expr.ofText_of_length_le (hne : trimBlanks text.toList ≠ [])
    (hle : (trimBlanks text.toList).length ≤ formulaLimit) :
    Expr.ofText text = tokenize (trimBlanks text.toList) >>= Formula.ofTokens := by
  simp [Expr.ofText, hne, Nat.not_lt.mpr hle, bind, Except.bind]

theorem Expr.ofText_eq_ok_iff {expr : Expr} :
    Expr.ofText text = .ok expr ↔
      trimBlanks text.toList ≠ [] ∧ (trimBlanks text.toList).length ≤ formulaLimit ∧
        ∃ tokens, tokenize (trimBlanks text.toList) = .ok tokens ∧
          Formula.ofTokens tokens = .ok expr := by
  by_cases hblank : trimBlanks text.toList = []
  · simp [ofText_of_blank hblank, hblank]
  by_cases hle : (trimBlanks text.toList).length ≤ formulaLimit
  · rw [ofText_of_length_le hblank hle, bind_eq_ok_iff]
    simp [hblank, hle]
  · simp [ofText_of_formulaLimit_lt (Nat.not_le.mp hle), hle]

end Texts

/-- The parser accepts a list of tokens, and a text that is neither blank nor
too long, exactly when the grammar derives it, and returns the derived tree;
and nothing that derives mentions an unknown name. -/
theorem ofTokens_ofText_eq_ok_iff_derives
    (tokens : List Token) (text : String) (expr : Expr) :
    (Formula.ofTokens tokens = .ok expr ↔ Derives .expression tokens expr) ∧
      (Expr.ofText text = .ok expr ↔
        trimBlanks text.toList ≠ [] ∧ (trimBlanks text.toList).length ≤ 1024 ∧
          ∃ lexed, tokenize (trimBlanks text.toList) = .ok lexed ∧
            Derives .expression lexed expr) ∧
      (Derives .expression tokens expr → NamesKnown tokens) := by
  refine ⟨Formula.ofTokens_eq_ok_iff_derives, ?_, Derives.namesKnown⟩
  rw [Expr.ofText_eq_ok_iff]
  simp only [Formula.ofTokens_eq_ok_iff_derives, formulaLimit]

theorem ofText_max_eq_ok :
    Derives .expression
        [.word "MAX", .opening, .word "panelCount", .comma, .minus, .word "systemSize",
          .closing]
        (.call .max [.input .panelCount, .signed .minus (.input .systemSize)]) ∧
      Expr.ofText " MAX(panelCount, -systemSize)" =
        .ok (.call .max [.input .panelCount, .signed .minus (.input .systemSize)]) := by
  have hcount : Derives .expression [.word "panelCount"] (.input .panelCount) :=
    .term (.unary (.primary (.input .panelCount)))
  have hsize : Derives .expression [.minus, .word "systemSize"]
      (.signed .minus (.input .systemSize)) :=
    .term (.unary (@Derives.signed .minus _ _ (.primary (.input .systemSize))))
  have hcall := @Derives.call .max
    [([.word "panelCount"], .input .panelCount),
      ([.minus, .word "systemSize"], .signed .minus (.input .systemSize))]
    (by simp [Function.Takes]) (by simpa using ⟨hcount, hsize⟩)
  have hderives := Derives.term (.unary (.primary hcall))
  refine ⟨hderives, (ofTokens_ofText_eq_ok_iff_derives [] _ _).2.1.mpr ?_⟩
  exact ⟨by decide, by decide, _, by decide +kernel, hderives⟩

end SolarTakeoff
