import SolarTakeoff.Proofs.Formula.Parsing
import SolarTakeoff.Proofs.Formula.Scanning
import SolarTakeoff.Proofs.Formula.Tokens
import Mathlib.Tactic

/-!
# Where an unexpected character stands

Only the scanner tells of characters; what the parser refuses it tells of in
tokens.  A text that is refused for a character is therefore one whose lexemes
end at this character, and all characters before it belong to formulas.

The scanner counts from the first character that is not blank, and blanks at the
start of a text count for nothing.  So the position points at the character
exactly if the text starts without a blank.
-/

namespace SolarTakeoff

/-! ## What the parser refuses -/

/-- An error that tells of tokens and what they name. -/
def FormulaError.IsOfTokens : FormulaError → Prop
  | .unknownInput _ | .unknownFunction _ | .wrongArity .. | .unexpectedToken _
  | .unexpectedEnd => True
  | _ => False

/-- If the result is an error, it tells of tokens. -/
def RefusesTokens {α : Type} (result : Except FormulaError α) : Prop :=
  ∀ error, result = .error error → error.IsOfTokens

section Results

variable {α β : Type} {error : FormulaError}

theorem refusesTokens_pure (value : α) :
    RefusesTokens (pure value : Except FormulaError α) := by
  intro error h
  exact (pure_ne_error h).elim

theorem refusesTokens_throw (h : error.IsOfTokens) :
    RefusesTokens (throw error : Except FormulaError α) := by
  intro other hother
  exact Except.error.inj hother ▸ h

theorem RefusesTokens.bind {result : Except FormulaError α} {next : α → Except FormulaError β}
    (h : RefusesTokens result) (hnext : ∀ value, RefusesTokens (next value)) :
    RefusesTokens (result >>= next) := by
  intro error herror
  rcases bind_eq_error_iff.mp herror with hresult | ⟨value, -, hvalue⟩
  · exact h error hresult
  · exact hnext value error hvalue

end Results

namespace Formula

variable {level : Level} {tokens : List Token} {left : Expr} {token : Token}

theorem refusesTokens_chain (hoperand : RefusesTokens (operand level tokens))
    (htail : ∀ left between, between.length < tokens.length →
      RefusesTokens (chainTail level left between)) : RefusesTokens (chain level tokens) := by
  rw [chain]
  apply hoperand.bind
  rintro ⟨left, between, hshorter⟩
  exact (htail left between hshorter).bind fun _ => refusesTokens_pure _

theorem refusesTokens_chainTail_of_some {operator : Operator}
    (hsome : level.operator? token = some operator)
    (hoperand : RefusesTokens (operand level tokens))
    (htail : ∀ right between, between.length < tokens.length →
      RefusesTokens (chainTail level (.binary operator left right) between)) :
    RefusesTokens (chainTail level left (token :: tokens)) := by
  rw [chainTail, hsome]
  apply hoperand.bind
  rintro ⟨right, between, hshorter⟩
  exact (htail right between hshorter).bind fun _ => refusesTokens_pure _

theorem refusesTokens_primary_opening (hchain : RefusesTokens (chain .sum tokens)) :
    RefusesTokens (primary (.opening :: tokens)) := by
  rw [primary]
  apply hchain.bind
  rintro ⟨expr, _ | ⟨next, others⟩, hshorter⟩
  · exact refusesTokens_throw trivial
  · cases next with
    | closing => exact refusesTokens_pure _
    | _ => exact refusesTokens_throw trivial

theorem refusesTokens_primary_call {name : String}
    (harguments : ∀ function, Function.named? name = some function →
      RefusesTokens (arguments tokens)) :
    RefusesTokens (primary (.word name :: .opening :: tokens)) := by
  rw [primary]
  cases hname : Function.named? name with
  | none => exact refusesTokens_throw trivial
  | some function =>
      apply (harguments function hname).bind
      intro exprs
      split
      · exact refusesTokens_pure _
      · exact refusesTokens_throw trivial

theorem refusesTokens_primary_input {name : String} (hopening : tokens.head? ≠ some .opening) :
    RefusesTokens (primary (.word name :: tokens)) := by
  rw [primary]
  · cases Input.named? name with
    | none => exact refusesTokens_throw trivial
    | some input => exact refusesTokens_pure _
  · rintro others rfl
    simp at hopening

theorem refusesTokens_argumentList (hchain : RefusesTokens (chain .sum tokens))
    (hlist : ∀ between, (Token.comma :: between).length < tokens.length →
      RefusesTokens (argumentList between)) : RefusesTokens (argumentList tokens) := by
  rw [argumentList]
  apply hchain.bind
  rintro ⟨expr, _ | ⟨next, others⟩, hshorter⟩
  · exact refusesTokens_throw trivial
  · cases next with
    | closing => exact refusesTokens_pure _
    | comma => exact (hlist others hshorter).bind fun _ => refusesTokens_pure _
    | _ => exact refusesTokens_throw trivial

theorem refusesTokens_rules :
    (∀ level tokens, RefusesTokens (chain level tokens)) ∧
      (∀ level left tokens, RefusesTokens (chainTail level left tokens)) ∧
      (∀ level tokens, RefusesTokens (operand level tokens)) ∧
      (∀ tokens, RefusesTokens (signed tokens)) ∧
      (∀ tokens, RefusesTokens (primary tokens)) ∧
      (∀ tokens, RefusesTokens (arguments tokens)) ∧
      ∀ tokens, RefusesTokens (argumentList tokens) := by
  apply chain.mutual_induct
  case case1 => exact fun _ _ => refusesTokens_chain
  case case2 =>
    intro level left
    rw [chainTail]
    exact refusesTokens_pure _
  case case3 =>
    intro level left token tokens hnone
    rw [chainTail, hnone]
    exact refusesTokens_pure _
  case case4 => exact fun _ _ _ _ _ => refusesTokens_chainTail_of_some
  case case5 =>
    intro tokens h
    rwa [operand]
  case case6 =>
    intro tokens h
    rwa [operand]
  case case7 =>
    intro tokens h
    rw [signed]
    exact h.bind fun _ => refusesTokens_pure _
  case case8 =>
    intro tokens h
    rw [signed]
    exact h.bind fun _ => refusesTokens_pure _
  case case9 =>
    intro tokens hplus hminus h
    rwa [signed]
    · exact hplus
    · exact hminus
  case case10 =>
    rw [primary]
    exact refusesTokens_throw trivial
  case case11 =>
    intro value tokens
    rw [primary]
    exact refusesTokens_pure _
  case case12 => exact fun _ => refusesTokens_primary_opening
  case case13 =>
    exact fun _ _ hnone => refusesTokens_primary_call fun function hsome => by
      simp [hnone] at hsome
  case case14 => exact fun _ _ _ _ h => refusesTokens_primary_call fun _ _ => h
  case case15 =>
    intro name tokens hopening _
    exact refusesTokens_primary_input (head?_ne_of_forall_ne_cons hopening)
  case case16 =>
    intro name tokens hopening _ _
    exact refusesTokens_primary_input (head?_ne_of_forall_ne_cons hopening)
  case case17 =>
    intro token tokens hnumber hopening _ hword
    rw [primary]
    · exact refusesTokens_throw trivial
    · exact hnumber
    · exact hopening
    · exact fun name _ h _ => hword name h
    · exact hword
  case case18 =>
    intro tokens
    rw [arguments]
    exact refusesTokens_pure _
  case case19 =>
    intro tokens hclosing h
    rwa [arguments]
    exact hclosing
  case case20 => exact fun _ => refusesTokens_argumentList

theorem refusesTokens_ofTokens (tokens : List Token) : RefusesTokens (ofTokens tokens) := by
  apply (refusesTokens_rules.1 .sum tokens).bind
  rintro ⟨expr, _ | ⟨token, others⟩, hshorter⟩
  · exact refusesTokens_pure _
  · exact refusesTokens_throw trivial

end Formula

/-- The parser never tells of a character, so the scanner does. -/
theorem Expr.ofText_eq_unexpectedChar_iff {text : String} {char : Char} {position : ℕ} :
    Expr.ofText text = .error (.unexpectedChar char position) ↔
      (trimBlanks text.toList).length ≤ formulaLimit ∧
        tokenize (trimBlanks text.toList) = .error (.unexpectedChar char position) := by
  by_cases hblank : trimBlanks text.toList = []
  · have hnone : tokenize [] = .ok [] := by decide +kernel
    simp [ofText_of_blank hblank, hblank, hnone]
  by_cases hle : (trimBlanks text.toList).length ≤ formulaLimit
  · rw [ofText_of_length_le hblank hle, bind_eq_error_iff, and_iff_right hle, or_iff_left]
    rintro ⟨tokens, -, hparser⟩
    exact (Formula.refusesTokens_ofTokens tokens _ hparser).elim
  · simp [ofText_of_formulaLimit_lt (Nat.not_le.mp hle), hle]

/-! ## The alphabet of formulas -/

/-- The characters that a formula can be made of. -/
def isFormulaChar (char : Char) : Bool :=
  isBlank char || isNumeral char || isWordPart char || (Token.ofChar? char).isSome

theorem isFormulaChar_iff {char : Char} :
    isFormulaChar char = true ↔
      isBlank char = true ∨ IsFigure char ∨ IsLetter char ∨ ∃ token, IsSymbol char token := by
  have hsymbol : (Token.ofChar? char).isSome = true ↔ ∃ token, IsSymbol char token := by
    simp only [Option.isSome_iff_exists, Token.ofChar?_eq_some_iff]
  simp only [isFormulaChar, Bool.or_eq_true, isNumeral_iff, isWordPart_iff, hsymbol, or_assoc]
  have hfigure : IsDigit char → IsFigure char := Or.inl
  tauto

theorem IsLexeme.isFormulaChar_of_mem {run : List Char} {token : Token} {char : Char}
    (h : IsLexeme run token) (hmem : char ∈ run) : isFormulaChar char = true := by
  rw [isFormulaChar_iff]
  cases h with
  | symbol h =>
      obtain rfl := List.mem_singleton.mp hmem
      exact .inr (.inr (.inr ⟨token, h⟩))
  | word hfirst hothers =>
      rcases List.mem_cons.mp hmem with rfl | hmem
      · exact .inr (.inr (.inl hfirst))
      · rcases hothers char hmem with hletter | hdigit
        · exact .inr (.inr (.inl hletter))
        · exact .inr (.inl (.inl hdigit))
  | number h => exact .inr (.inl (h.figures char hmem))

theorem Splits.isFormulaChar_of_mem {rest read : List Char} {split : List (List Char × Token)}
    {char : Char} (h : Splits rest read split) (hmem : char ∈ read) :
    isFormulaChar char = true := by
  induction h with
  | start => cases hmem
  | blank hblank _ ih =>
      rcases List.mem_cons.mp hmem with rfl | hmem
      · exact isFormulaChar_iff.mpr (.inl hblank)
      · exact ih hmem
  | lexeme hlexeme _ _ ih =>
      rcases List.mem_append.mp hmem with hmem | hmem
      · exact hlexeme.isFormulaChar_of_mem hmem
      · exact ih hmem

/-! ## Where a character stands -/

/-- The character starts at this byte of the text. -/
def StandsAt (text : String) (char : Char) (position : ℕ) : Prop :=
  ∃ before after, text.toList = before ++ char :: after ∧
    (String.ofList before).utf8ByteSize = position

/-- The character starts at this byte of the text and is the first one of the
text that belongs to no formula. -/
def FirstForeignAt (text : String) (char : Char) (position : ℕ) : Prop :=
  isFormulaChar char = false ∧
    ∃ before after, text.toList = before ++ char :: after ∧
      (String.ofList before).utf8ByteSize = position ∧
        ∀ other ∈ before, isFormulaChar other = true

/-- The bytes of the blanks that a text starts with. -/
def indent (text : String) : ℕ :=
  (String.ofList (text.toList.takeWhile isBlank)).utf8ByteSize

section Places

variable {text : String} {char : Char} {position place : ℕ}

theorem FirstForeignAt.standsAt (h : FirstForeignAt text char position) :
    StandsAt text char position := by
  obtain ⟨-, before, after, htext, hposition, -⟩ := h
  exact ⟨before, after, htext, hposition⟩

/-- Nowhere before its first place does the character stand. -/
theorem FirstForeignAt.le_of_standsAt (h : FirstForeignAt text char position)
    (hstands : StandsAt text char place) : position ≤ place := by
  obtain ⟨hforeign, before, after, htext, rfl, hbefore⟩ := h
  obtain ⟨earlier, later, hsplit, rfl⟩ := hstands
  rw [htext] at hsplit
  rcases List.append_eq_append_iff.mp hsplit with ⟨middle, rfl, -⟩ | ⟨middle, rfl, hmiddle⟩
  · simp [utf8ByteSize_ofList]
  · cases middle with
    | nil => simp
    | cons next middle =>
        obtain ⟨rfl, -⟩ := List.cons_eq_cons.mp hmiddle
        have hformula : isFormulaChar char = true := hbefore char (by simp)
        rw [hforeign] at hformula
        cases hformula

theorem firstForeignAt_of_tokenize
    (h : tokenize (trimBlanks text.toList) = .error (.unexpectedChar char position)) :
    FirstForeignAt text char (indent text + position) := by
  obtain ⟨read, rest, split, htrim, hsplits, hoffends⟩ := exists_offends_of_tokenize h
  obtain ⟨after, -, htext⟩ := exists_blanks_after text.toList
  cases hoffends with
  | @unexpectedChar _ rest hblank hfigure hletter hsymbol =>
      refine ⟨?_, text.toList.takeWhile isBlank ++ read, rest ++ after, ?_, ?_, ?_⟩
      · rw [Bool.eq_false_iff, ne_eq, isFormulaChar_iff]
        simp [hblank, hfigure, hletter, hsymbol]
      · rw [htrim] at htext
        simpa using htext
      · rw [String.ofList_append, String.utf8ByteSize_append, indent]
      · intro other hother
        rcases List.mem_append.mp hother with hother | hother
        · exact isFormulaChar_iff.mpr (.inl (List.mem_takeWhile_imp hother))
        · exact hsplits.isFormulaChar_of_mem hother

end Places

/-- A text that is refused for a character has this character, as its first one
that belongs to no formula, the told number of bytes after the blanks that it
starts with; so the character stands where it is told exactly if there are none. -/
theorem Expr.unexpectedChar_standsAt_iff {text : String} {char : Char} {position : ℕ}
    (h : Expr.ofText text = .error (.unexpectedChar char position)) :
    FirstForeignAt text char (indent text + position) ∧
      (StandsAt text char position ↔ indent text = 0) := by
  have hforeign := firstForeignAt_of_tokenize (ofText_eq_unexpectedChar_iff.mp h).2
  refine ⟨hforeign, ?_, ?_⟩
  · intro hstands
    have hle := hforeign.le_of_standsAt hstands
    omega
  · intro hindent
    rw [hindent, Nat.zero_add] at hforeign
    exact hforeign.standsAt

theorem Expr.unexpectedChar_standsAt_inner :
    Expr.ofText "2\u3000×#" = .error (.unexpectedChar '×' 4) ∧
      StandsAt "2\u3000×#" '×' 4 := by
  have herror : Expr.ofText "2\u3000×#" = .error (.unexpectedChar '×' 4) :=
    ofText_eq_unexpectedChar_iff.mpr (by decide +kernel)
  exact ⟨herror, (unexpectedChar_standsAt_iff herror).2.mpr (by decide +kernel)⟩

/-- After two blanks the character is told two bytes too early. -/
theorem Expr.not_standsAt_indented :
    Expr.ofText "  2 # 3" = .error (.unexpectedChar '#' 2) ∧ ¬ StandsAt "  2 # 3" '#' 2 := by
  have htokens : tokenize (trimBlanks "  2 # 3".toList) = .error (.unexpectedChar '#' 2) := by
    decide +kernel
  refine ⟨ofText_eq_unexpectedChar_iff.mpr ⟨by decide +kernel, htokens⟩, ?_⟩
  intro hstands
  have hle := (firstForeignAt_of_tokenize htokens).le_of_standsAt hstands
  exact absurd hle (by decide +kernel)

end SolarTakeoff
