import SolarTakeoff.Formula.Lexeme
import SolarTakeoff.Proofs.Decimal.Numeral
import SolarTakeoff.Proofs.Text.Runs
import Mathlib.Tactic

/-!
# How a text falls apart into lexemes

The lexical rules of formulas as a relation between a text and its lexemes,
which knows nothing of a scanner: a lexeme is a symbol, a word or a number, it
is as long as the text after it allows, and nothing but blanks stands between
lexemes.  What offends is the start of a rest that no lexeme can be taken from,
while all before it falls apart.

The scanner cuts a text into runs first and classifies them afterwards.  Runs of
one class are the lexemes of the relation, so tokens come from texts that fall
apart as a whole and errors from the first place that offends.
-/

namespace SolarTakeoff

/-! ## The lexical rules -/

/-- The letters of ASCII and the underscore. -/
def IsLetter (char : Char) : Prop :=
  'a' ≤ char ∧ char ≤ 'z' ∨ 'A' ≤ char ∧ char ≤ 'Z' ∨ char = '_'

inductive IsSymbol : Char → Token → Prop where
  | plus : IsSymbol '+' .plus
  | minus : IsSymbol '-' .minus
  | star : IsSymbol '*' .star
  | slash : IsSymbol '/' .slash
  | opening : IsSymbol '(' .opening
  | closing : IsSymbol ')' .closing
  | comma : IsSymbol ',' .comma

inductive IsLexeme : List Char → Token → Prop where
  | symbol {char : Char} {token : Token} (h : IsSymbol char token) : IsLexeme [char] token
  | word {first : Char} {others : List Char} (hfirst : IsLetter first)
    (hothers : ∀ char ∈ others, IsLetter char ∨ IsDigit char) :
    IsLexeme (first :: others) (.word (.ofList (first :: others)))
  | number {run : List Char} (h : IsDecimal run) (hfinite : (decimalValue run).isFinite = true) :
    IsLexeme run (.number (decimalValue run))

/-- The characters that would have made the lexeme of a token longer. -/
def Token.Extends : Token → Char → Prop
  | .number _, char => IsFigure char
  | .word _, char => IsLetter char ∨ IsDigit char
  | _, _ => False

/-- `Splits rest read split` says that, with the rest still to come, what has been
read falls apart into blanks and the lexemes of the split, each with its token. -/
inductive Splits (rest : List Char) : List Char → List (List Char × Token) → Prop where
  | start : Splits rest [] []
  | blank {char : Char} {read : List Char} {split : List (List Char × Token)}
    (hblank : isBlank char = true) (h : Splits rest read split) :
    Splits rest (char :: read) split
  | lexeme {run read : List Char} {token : Token} {split : List (List Char × Token)}
    (hlexeme : IsLexeme run token) (hends : ∀ next ∈ (read ++ rest).head?, ¬ token.Extends next)
    (h : Splits rest read split) :
    Splits rest (run ++ read) ((run, token) :: split)

/-- What is wrong with the start of a rest that begins at this position. -/
inductive Offends (position : ℕ) : List Char → FormulaError → Prop where
  | invalidNumber {run rest : List Char} (hne : run ≠ []) (hfigures : ∀ char ∈ run, IsFigure char)
    (hends : ∀ next ∈ rest.head?, ¬ IsFigure next) (h : ¬ IsDecimal run) :
    Offends position (run ++ rest) (.invalidNumber (.ofList run))
  | notFinite {run rest : List Char} (h : IsDecimal run)
    (hends : ∀ next ∈ rest.head?, ¬ IsFigure next)
    (hfinite : (decimalValue run).isFinite = false) :
    Offends position (run ++ rest) .notFinite
  | unexpectedChar {char : Char} {rest : List Char} (hblank : isBlank char = false)
    (hfigure : ¬ IsFigure char) (hletter : ¬ IsLetter char)
    (hsymbol : ∀ token, ¬ IsSymbol char token) :
    Offends position (char :: rest) (.unexpectedChar char position)

/-! ## Classes of characters -/

section Characters

variable {char : Char}

theorem isNumeral_iff : isNumeral char = true ↔ IsFigure char := by
  simp [isNumeral, IsFigure, isDigit_iff]

theorem isNumeral_eq_false_iff : isNumeral char = false ↔ ¬ IsFigure char := by
  rw [Bool.eq_false_iff, ne_eq, isNumeral_iff]

theorem isWordStart_iff : isWordStart char = true ↔ IsLetter char := by
  delta isWordStart IsLetter Char.isAlpha Char.isUpper Char.isLower
  simp [Char.le_def]
  tauto

theorem isWordPart_iff : isWordPart char = true ↔ IsLetter char ∨ IsDigit char := by
  simp [isWordPart, Char.isAlphanum, ← isWordStart_iff, isWordStart, isDigit_iff]
  tauto

theorem isWordPart_eq_false_iff :
    isWordPart char = false ↔ ¬ (IsLetter char ∨ IsDigit char) := by
  rw [Bool.eq_false_iff, ne_eq, isWordPart_iff]

theorem not_isFigure_of_isLetter (h : IsLetter char) : ¬ IsFigure char := by
  rintro (⟨-, hlast⟩ | rfl)
  · rcases h with h | h | rfl
    · exact absurd (Char.le_trans h.1 hlast) (by decide)
    · exact absurd (Char.le_trans h.1 hlast) (by decide)
    · exact absurd hlast (by decide)
  · exact absurd (isWordStart_iff.mpr h) (by decide)

theorem plain_of_isBlank (h : isBlank char = true) :
    isNumeral char = false ∧ isWordStart char = false ∧ isWordPart char = false := by
  simp only [isBlank, decide_eq_true_eq, List.mem_cons, List.not_mem_nil, or_false] at h
  rcases h with rfl | rfl | rfl | rfl | rfl | rfl | rfl | rfl | rfl | rfl | rfl | rfl | rfl | rfl |
    rfl | rfl | rfl | rfl | rfl | rfl | rfl | rfl | rfl | rfl | rfl <;> decide

theorem isBlank_of_isFigure (h : IsFigure char) : isBlank char = false := by
  rw [Bool.eq_false_iff]
  intro hblank
  exact isNumeral_eq_false_iff.mp (plain_of_isBlank hblank).1 h

theorem isBlank_of_isLetter (h : IsLetter char) : isBlank char = false := by
  rw [Bool.eq_false_iff]
  intro hblank
  exact isWordPart_eq_false_iff.mp (plain_of_isBlank hblank).2.2 (.inl h)

theorem IsSymbol.plain {token : Token} (h : IsSymbol char token) :
    isBlank char = false ∧ isNumeral char = false ∧ isWordStart char = false := by
  cases h <;> decide

theorem Token.ofChar?_eq_some_iff {token : Token} :
    ofChar? char = some token ↔ IsSymbol char token := by
  constructor
  · intro h
    unfold ofChar? at h
    split at h <;> cases h <;> constructor
  · rintro (_ | _) <;> rfl

theorem runClass_of_isFigure (h : IsFigure char) : runClass char = isNumeral :=
  if_pos (isNumeral_iff.mpr h)

theorem runClass_of_isLetter (h : IsLetter char) : runClass char = isWordPart := by
  have hnumeral := isNumeral_eq_false_iff.mpr (not_isFigure_of_isLetter h)
  rw [runClass, hnumeral, if_neg Bool.false_ne_true, if_pos (isWordStart_iff.mpr h)]

theorem runClass_of_plain (hnumeral : isNumeral char = false) (hword : isWordStart char = false) :
    runClass char = fun _ => false := by
  rw [runClass, hnumeral, hword]
  rfl

end Characters

/-! ## Lexemes as runs -/

/-- A lexeme is a run over the class of its first character. -/
theorem IsLexeme.exists_run {run : List Char} {token : Token} (h : IsLexeme run token) :
    ∃ first others, run = first :: others ∧
      (∀ char ∈ others, runClass first char = true) ∧
      ∀ next, ¬ token.Extends next → runClass first next = false := by
  cases h with
  | @symbol char _ h =>
      refine ⟨char, [], rfl, by simp, ?_⟩
      rw [runClass_of_plain h.plain.2.1 h.plain.2.2]
      exact fun _ _ => rfl
  | @word first others hfirst hothers =>
      refine ⟨first, others, rfl, ?_, ?_⟩ <;> rw [runClass_of_isLetter hfirst]
      · exact fun char hchar => isWordPart_iff.mpr (hothers char hchar)
      · exact fun next hnext => isWordPart_eq_false_iff.mpr hnext
  | number h hfinite =>
      obtain ⟨first, others, rfl⟩ := List.exists_cons_of_ne_nil h.ne_nil
      obtain ⟨hfirst, hothers⟩ := List.forall_mem_cons.mp h.figures
      refine ⟨first, others, rfl, ?_, ?_⟩ <;> rw [runClass_of_isFigure hfirst]
      · exact fun char hchar => isNumeral_iff.mpr (hothers char hchar)
      · exact fun next hnext => isNumeral_eq_false_iff.mpr hnext

theorem IsLexeme.ne_nil {run : List Char} {token : Token} (h : IsLexeme run token) : run ≠ [] := by
  obtain ⟨first, others, rfl, -⟩ := h.exists_run
  exact List.cons_ne_nil first others

section Runs

variable {first : Char} {run others rest : List Char} {token : Token}

theorem lexemes_run (hothers : ∀ char ∈ others, runClass first char = true)
    (hends : ∀ next ∈ rest.head?, runClass first next = false) :
    lexemes (first :: (others ++ rest)) = (first :: others) :: lexemes rest := by
  obtain ⟨htake, hdrop⟩ := @takeWhile_append_of_head _ others rest hends
  rw [lexemes, htake, hdrop, List.takeWhile_eq_self_iff.mpr hothers,
    List.dropWhile_eq_nil_iff.mpr hothers, List.nil_append]

theorem lexemes_blank (h : isBlank first = true) :
    lexemes (first :: rest) = [first] :: lexemes rest := by
  have hclass := runClass_of_plain (plain_of_isBlank h).1 (plain_of_isBlank h).2.1
  exact @lexemes_run first [] rest (by simp) (by simp [hclass])

theorem lexemes_figures (hne : run ≠ []) (hfigures : ∀ char ∈ run, IsFigure char)
    (hends : ∀ next ∈ rest.head?, ¬ IsFigure next) :
    lexemes (run ++ rest) = run :: lexemes rest := by
  obtain ⟨first, others, rfl⟩ := List.exists_cons_of_ne_nil hne
  obtain ⟨hfirst, hothers⟩ := List.forall_mem_cons.mp hfigures
  apply lexemes_run <;> rw [runClass_of_isFigure hfirst]
  · exact fun char hchar => isNumeral_iff.mpr (hothers char hchar)
  · exact fun next hnext => isNumeral_eq_false_iff.mpr (hends next hnext)

theorem IsLexeme.lexemes_append (h : IsLexeme run token)
    (hends : ∀ next ∈ rest.head?, ¬ token.Extends next) :
    lexemes (run ++ rest) = run :: lexemes rest := by
  obtain ⟨first, others, rfl, hothers, hnext⟩ := h.exists_run
  exact lexemes_run hothers fun next hmem => hnext next (hends next hmem)

end Runs

/-! ## Tokens of runs -/

namespace Token

variable {position : ℕ} {first : Char} {run : List Char} {token : Token}

theorem ofLexeme?_blank (h : isBlank first = true) :
    ofLexeme? position (first :: run) = .ok none := by
  simp [ofLexeme?, h]

theorem ofLexeme?_figures (hne : run ≠ []) (hfigures : ∀ char ∈ run, IsFigure char) :
    ofLexeme? position run = (ofNumeral run).map some := by
  obtain ⟨first, others, rfl⟩ := List.exists_cons_of_ne_nil hne
  have hfirst := hfigures first List.mem_cons_self
  simp [ofLexeme?, isBlank_of_isFigure hfirst, isNumeral_iff.mpr hfirst]

theorem ofLexeme?_of_isLexeme (h : IsLexeme run token) :
    ofLexeme? position run = .ok (some token) := by
  cases h with
  | symbol h => simp [ofLexeme?, h.plain, ofChar?_eq_some_iff.mpr h]
  | word hfirst hothers =>
      simp [ofLexeme?, isBlank_of_isLetter hfirst, isWordStart_iff.mpr hfirst,
        isNumeral_eq_false_iff.mpr (not_isFigure_of_isLetter hfirst)]
  | number h hfinite =>
      rw [ofLexeme?_figures h.ne_nil h.figures, ofNumeral_of_isDecimal h, if_pos hfinite]
      rfl

theorem ofLexemes_cons (others : List (List Char)) :
    ofLexemes position (run :: others) = ofLexeme? position run >>= fun token? =>
      ofLexemes (position + (run.map Char.utf8Size).sum) others >>= fun tokens =>
        pure (token?.toList ++ tokens) :=
  rfl

theorem ofLexemes_of_ok {token? : Option Token} (h : ofLexeme? position run = .ok token?)
    (others : List (List Char)) :
    ofLexemes position (run :: others) =
      (token?.toList ++ ·) <$> ofLexemes (position + (run.map Char.utf8Size).sum) others := by
  rw [ofLexemes_cons, h]
  rfl

theorem ofLexemes_of_error {error : FormulaError} (h : ofLexeme? position run = .error error)
    (others : List (List Char)) : ofLexemes position (run :: others) = .error error := by
  rw [ofLexemes_cons, h]
  rfl

end Token

/-! ## Texts that fall apart and texts that offend -/

section Scanning

variable {position : ℕ} {chars read rest : List Char} {split other : List (List Char × Token)}
  {error : FormulaError}

/-- The scanner finds the tokens of what has been read and goes on with the rest. -/
theorem Splits.ofLexemes (h : Splits rest read split) (position : ℕ) :
    Token.ofLexemes position (lexemes (read ++ rest)) =
      (split.map Prod.snd ++ ·) <$>
        Token.ofLexemes (position + (read.map Char.utf8Size).sum) (lexemes rest) := by
  induction h generalizing position with
  | start => simp
  | blank hblank _ ih =>
      rw [List.cons_append, lexemes_blank hblank,
        Token.ofLexemes_of_ok (Token.ofLexeme?_blank hblank), ih]
      simp [Nat.add_assoc]
  | lexeme hlexeme hends _ ih =>
      rw [List.append_assoc, hlexeme.lexemes_append hends,
        Token.ofLexemes_of_ok (Token.ofLexeme?_of_isLexeme hlexeme), ih]
      simp [Nat.add_assoc]

theorem Offends.ofLexemes (h : Offends position rest error) :
    Token.ofLexemes position (lexemes rest) = .error error := by
  cases h with
  | invalidNumber hne hfigures hends hdecimal =>
      rw [lexemes_figures hne hfigures hends]
      apply Token.ofLexemes_of_error
      rw [Token.ofLexeme?_figures hne hfigures, Token.ofNumeral_of_not_isDecimal hdecimal]
      rfl
  | notFinite hdecimal hends hfinite =>
      rw [lexemes_figures hdecimal.ne_nil hdecimal.figures hends]
      apply Token.ofLexemes_of_error
      rw [Token.ofLexeme?_figures hdecimal.ne_nil hdecimal.figures,
        Token.ofNumeral_of_isDecimal hdecimal, hfinite]
      rfl
  | @unexpectedChar char rest hblank hfigure hletter hsymbol =>
      have hword : isWordStart char = false := by
        rwa [Bool.eq_false_iff, ne_eq, isWordStart_iff]
      have hnone : Token.ofChar? char = none := by
        rw [Option.eq_none_iff_forall_ne_some]
        exact fun token htoken => hsymbol token (Token.ofChar?_eq_some_iff.mp htoken)
      rw [lexemes]
      apply Token.ofLexemes_of_error
      simp [Token.ofLexeme?, hblank, isNumeral_eq_false_iff.mpr hfigure, hword, hnone]

theorem tokenize_of_splits (h : Splits [] chars split) :
    tokenize chars = .ok (split.map Prod.snd) := by
  have hrun := h.ofLexemes 0
  rw [List.append_nil, lexemes] at hrun
  rw [tokenize, hrun]
  exact congrArg Except.ok (List.append_nil _)

theorem utf8ByteSize_ofList (chars : List Char) :
    (String.ofList chars).utf8ByteSize = (chars.map Char.utf8Size).sum := by
  induction chars with
  | nil => rfl
  | cons char chars ih =>
      rw [String.ofList_cons, String.utf8ByteSize_append, String.utf8ByteSize_singleton, ih,
        List.map_cons, List.sum_cons]

theorem tokenize_of_offends (h : Splits rest read split)
    (hoffends : Offends (String.ofList read).utf8ByteSize rest error) :
    tokenize (read ++ rest) = .error error := by
  rw [utf8ByteSize_ofList] at hoffends
  rw [tokenize, h.ofLexemes, Nat.zero_add, hoffends.ofLexemes]
  rfl

end Scanning

/-! ## One or the other -/

/-- A lexeme can be taken from the start of the text, or the start offends. -/
def StartIsSettled (chars : List Char) : Prop :=
  (∃ run token rest, chars = run ++ rest ∧ IsLexeme run token ∧
    ∀ next ∈ rest.head?, ¬ token.Extends next) ∨
  ∀ position, ∃ error, Offends position chars error

section Start

variable {char : Char} (chars : List Char)

theorem startIsSettled_of_isFigure (h : IsFigure char) : StartIsSettled (char :: chars) := by
  let run := char :: chars.takeWhile isNumeral
  let rest := chars.dropWhile isNumeral
  have hsplit : char :: chars = run ++ rest := by
    rw [List.cons_append, List.takeWhile_append_dropWhile]
  have hfigures : ∀ other ∈ run, IsFigure other := by
    rw [List.forall_mem_cons]
    exact ⟨h, fun other hother => isNumeral_iff.mp (List.mem_takeWhile_imp hother)⟩
  have hends : ∀ next ∈ rest.head?, ¬ IsFigure next := by
    intro next hnext
    exact isNumeral_eq_false_iff.mp (not_of_mem_head?_dropWhile hnext)
  rw [hsplit]
  by_cases hdecimal : IsDecimal run
  · by_cases hfinite : (decimalValue run).isFinite = true
    · exact .inl ⟨run, _, rest, rfl, .number hdecimal hfinite, hends⟩
    · exact .inr fun _ => ⟨_, .notFinite hdecimal hends (Bool.eq_false_iff.mpr hfinite)⟩
  · exact .inr fun _ => ⟨_, .invalidNumber (List.cons_ne_nil _ _) hfigures hends hdecimal⟩

theorem startIsSettled_of_isLetter (h : IsLetter char) : StartIsSettled (char :: chars) := by
  have hsplit : char :: chars =
      (char :: chars.takeWhile isWordPart) ++ chars.dropWhile isWordPart := by
    rw [List.cons_append, List.takeWhile_append_dropWhile]
  refine .inl ⟨_, _, _, hsplit, .word h ?_, ?_⟩
  · exact fun other hother => isWordPart_iff.mp (List.mem_takeWhile_imp hother)
  · exact fun next hnext => isWordPart_eq_false_iff.mp (not_of_mem_head?_dropWhile hnext)

theorem startIsSettled_of_isSymbol {token : Token} (h : IsSymbol char token) :
    StartIsSettled (char :: chars) := by
  refine .inl ⟨[char], token, chars, rfl, .symbol h, ?_⟩
  intro next _
  cases h <;> exact id

theorem startIsSettled (hblank : isBlank char = false) : StartIsSettled (char :: chars) := by
  by_cases hfigure : IsFigure char
  · exact startIsSettled_of_isFigure chars hfigure
  by_cases hletter : IsLetter char
  · exact startIsSettled_of_isLetter chars hletter
  by_cases hsymbol : ∃ token, IsSymbol char token
  · obtain ⟨token, hsymbol⟩ := hsymbol
    exact startIsSettled_of_isSymbol chars hsymbol
  · exact .inr fun _ => ⟨_, .unexpectedChar hblank hfigure hletter (not_exists.mp hsymbol)⟩

end Start

theorem exists_splits (chars : List Char) :
    ∃ read rest split, chars = read ++ rest ∧ Splits rest read split ∧
      (rest = [] ∨ ∀ position, ∃ error, Offends position rest error) := by
  induction hlength : chars.length using Nat.strong_induction_on generalizing chars with
  | _ length ih =>
      cases chars with
      | nil => exact ⟨[], [], [], rfl, .start, .inl rfl⟩
      | cons char chars =>
          cases hblank : isBlank char with
          | true =>
              have hshorter : chars.length < length := by simp [← hlength]
              obtain ⟨read, rest, split, rfl, hsplits, hend⟩ := ih _ hshorter chars rfl
              exact ⟨char :: read, rest, split, rfl, .blank hblank hsplits, hend⟩
          | false =>
              rcases startIsSettled chars hblank with
                ⟨run, token, after, heq, hlexeme, hends⟩ | hoffends
              · have hpos : 0 < run.length := List.length_pos_iff.mpr hlexeme.ne_nil
                have hshorter : after.length < length := by
                  rw [← hlength, heq, List.length_append]
                  omega
                obtain ⟨read, rest, split, rfl, hsplits, hend⟩ := ih _ hshorter after rfl
                exact ⟨run ++ read, rest, (run, token) :: split, by rw [heq, List.append_assoc],
                  .lexeme hlexeme hends hsplits, hend⟩
              · exact ⟨[], char :: chars, [], rfl, .start, .inr hoffends⟩

/-! ## The split is the only one -/

/-- The lexeme of a run, as the scanner classifies it. -/
def lexemeOf? (run : List Char) : Option (List Char × Token) :=
  (Token.ofLexeme? 0 run).toOption.join.map (Prod.mk run)

theorem Splits.filterMap_lexemes {rest read : List Char} {split : List (List Char × Token)}
    (h : Splits rest read split) :
    (lexemes (read ++ rest)).filterMap lexemeOf? =
      split ++ (lexemes rest).filterMap lexemeOf? := by
  induction h with
  | start => rfl
  | @blank char _ _ hblank _ ih =>
      have hnone : lexemeOf? [char] = none := by
        rw [lexemeOf?, Token.ofLexeme?_blank hblank]
        rfl
      rw [List.cons_append, lexemes_blank hblank, List.filterMap_cons_none hnone, ih]
  | @lexeme run _ token _ hlexeme hends _ ih =>
      have hsome : lexemeOf? run = some (run, token) := by
        rw [lexemeOf?, Token.ofLexeme?_of_isLexeme hlexeme]
        rfl
      rw [List.append_assoc, hlexeme.lexemes_append hends, List.filterMap_cons_some hsome, ih,
        List.cons_append]

theorem Splits.unique {chars : List Char} {split other : List (List Char × Token)}
    (h : Splits [] chars split) (hother : Splits [] chars other) : split = other := by
  have hsplit := h.filterMap_lexemes
  rw [hother.filterMap_lexemes] at hsplit
  simpa using hsplit.symm

/-! ## Tokens and errors of a text -/

theorem exists_splits_of_tokenize {chars : List Char} {tokens : List Token}
    (h : tokenize chars = .ok tokens) :
    ∃ split, Splits [] chars split ∧ split.map Prod.snd = tokens := by
  obtain ⟨read, rest, split, rfl, hsplits, rfl | hoffends⟩ := exists_splits chars
  · rw [List.append_nil] at h ⊢
    rw [tokenize_of_splits hsplits] at h
    exact ⟨split, hsplits, Except.ok.inj h⟩
  · obtain ⟨error, hoffends⟩ := hoffends (String.ofList read).utf8ByteSize
    rw [tokenize_of_offends hsplits hoffends] at h
    cases h

theorem splits_lexemes {chars : List Char} {tokens : List Token}
    (h : tokenize chars = .ok tokens) : Splits [] chars ((lexemes chars).filterMap lexemeOf?) := by
  obtain ⟨split, hsplits, -⟩ := exists_splits_of_tokenize h
  have hlexemes := hsplits.filterMap_lexemes
  rw [List.append_nil] at hlexemes
  rw [hlexemes]
  simpa [lexemes] using hsplits

theorem exists_offends_of_tokenize {chars : List Char} {error : FormulaError}
    (h : tokenize chars = .error error) :
    ∃ read rest split, chars = read ++ rest ∧ Splits rest read split ∧
      Offends (String.ofList read).utf8ByteSize rest error := by
  obtain ⟨read, rest, split, rfl, hsplits, rfl | hoffends⟩ := exists_splits chars
  · rw [List.append_nil, tokenize_of_splits hsplits] at h
    cases h
  · obtain ⟨other, hoffends⟩ := hoffends (String.ofList read).utf8ByteSize
    rw [tokenize_of_offends hsplits hoffends] at h
    obtain rfl := Except.error.inj h
    exact ⟨read, rest, split, rfl, hsplits, hoffends⟩

/-- A text has tokens exactly if it falls apart as a whole, which it can in one way
only, and these are the tokens of its lexemes in order.  Otherwise the error is what
offends at the first place where anything does, at its byte of the text. -/
theorem tokenize_eq_iff_splits (text : String) :
    (∀ tokens, tokenize text.toList = .ok tokens ↔
      ∃ split, Splits [] text.toList split ∧ split.map Prod.snd = tokens) ∧
    (∀ error, tokenize text.toList = .error error ↔
      ∃ read rest split, text.toList = read ++ rest ∧ Splits rest read split ∧
        Offends (String.ofList read).utf8ByteSize rest error) ∧
    ∀ split other, Splits [] text.toList split → Splits [] text.toList other → split = other := by
  refine ⟨?_, ?_, fun _ _ => Splits.unique⟩
  · intro tokens
    constructor
    · exact exists_splits_of_tokenize
    · rintro ⟨split, hsplits, rfl⟩
      exact tokenize_of_splits hsplits
  · intro error
    constructor
    · exact exists_offends_of_tokenize
    · rintro ⟨read, rest, split, htext, hsplits, hoffends⟩
      rw [htext]
      exact tokenize_of_offends hsplits hoffends

theorem tokenize_product_splits :
    (∃ split, Splits [] "2*a".toList split ∧
      split.map Prod.snd = [.number (.ofNat 2), .star, .word "a"] ∧
        split = (lexemes "2*a".toList).filterMap lexemeOf?) ∧
      ∃ read rest split, "2*1.2.3".toList = read ++ rest ∧ Splits rest read split ∧
        Offends (String.ofList read).utf8ByteSize rest (.invalidNumber "1.2.3") := by
  have htokens : tokenize "2*a".toList = .ok [.number (.ofNat 2), .star, .word "a"] := by
    decide +kernel
  obtain ⟨hok, -, hunique⟩ := tokenize_eq_iff_splits "2*a"
  obtain ⟨-, herror, -⟩ := tokenize_eq_iff_splits "2*1.2.3"
  obtain ⟨split, hsplits, hmap⟩ := (hok _).mp htokens
  refine ⟨⟨split, hsplits, hmap, hunique _ _ hsplits (splits_lexemes htokens)⟩, ?_⟩
  exact (herror _).mp (by decide +kernel)

end SolarTakeoff
