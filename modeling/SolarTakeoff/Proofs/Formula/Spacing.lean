import SolarTakeoff.Proofs.Binary64.Text
import SolarTakeoff.Proofs.Formula.Parsing
import SolarTakeoff.Proofs.Formula.Scanning
import Mathlib.Tactic

/-!
# Blanks between lexemes

A token is written by a text that is a lexeme for it again, a number by its
shortest one, and a blank makes no lexeme longer.  So the texts of tokens with
blanks between them fall apart into just these tokens, however many blanks there
are and wherever else more of them stand.

Formulas with the same lexemes have the same tokens, and a formula that is read
comes of its tokens alone.
-/

namespace SolarTakeoff

attribute [local irreducible] oneUnits unitsLimit

/-! ## Texts of tokens -/

theorem Token.not_extends_of_isBlank {token : Token} {char : Char} (h : isBlank char = true) :
    ¬ token.Extends char := by
  obtain ⟨hnumeral, -, hword⟩ := plain_of_isBlank h
  cases token with
  | number => exact isNumeral_eq_false_iff.mp hnumeral
  | word => exact isWordPart_eq_false_iff.mp hword
  | _ => exact id

theorem exists_magnitude_decimalValue {run : List Char}
    (h : (decimalValue run).isFinite = true) :
    ∃ magnitude, decimalValue run = .finite false magnitude := by
  unfold decimalValue Binary64.ofRatio at h ⊢
  split at h
  next hsmall =>
    rw [dif_pos hsmall]
    exact ⟨_, rfl⟩
  next => cases h

/-- The shortest text of a number is a lexeme for it. -/
theorem isLexeme_text_number (magnitude : Magnitude) :
    IsLexeme (Binary64.finite false magnitude).text.toList (.number (.finite false magnitude)) := by
  have htext : (Binary64.finite false magnitude).text.toList = magnitude.shortest.chars := by
    rw [Binary64.text, String.toList_ofList, Binary64.chars, if_neg Bool.false_ne_true,
      List.nil_append]
  obtain ⟨read, hread, hsame⟩ := Decimal.ofChars?_chars magnitude.shortest
  have hdecimal := isDecimal_of_ofChars? hread
  have hvalue : decimalValue magnitude.shortest.chars = .finite false magnitude := by
    obtain ⟨decimal, hsome, hvalue⟩ := hdecimal.ofChars?
    obtain rfl := Option.some.inj (hread.symm.trans hsome)
    rw [← hvalue, hsame, magnitude.toBinary64_shortest]
  have hlexeme := IsLexeme.number hdecimal (by rw [hvalue]; rfl)
  rwa [hvalue, ← htext] at hlexeme

theorem IsLexeme.text {run : List Char} {token : Token} (h : IsLexeme run token) :
    IsLexeme token.text.toList token := by
  cases h with
  | symbol h => cases h <;> exact .symbol (by constructor)
  | word hfirst hothers =>
      rw [Token.text, String.toList_ofList]
      exact .word hfirst hothers
  | number h hfinite =>
      obtain ⟨magnitude, hvalue⟩ := exists_magnitude_decimalValue hfinite
      rw [hvalue]
      exact isLexeme_text_number magnitude

/-! ## Texts of tokens with blanks between them -/

/-- Blanks, and then the texts of tokens with more blanks after each. -/
def spaced (lead : List Char) (pieces : List (Token × List Char)) : List Char :=
  lead ++ pieces.flatMap fun piece => piece.1.text.toList ++ piece.2

/-- Only after the last token may there be no blank. -/
structure IsSpacing (lead : List Char) (pieces : List (Token × List Char)) : Prop where
  lead : ∀ char ∈ lead, isBlank char = true
  gaps : ∀ piece ∈ pieces, ∀ char ∈ piece.2, isBlank char = true
  apart : ∀ piece ∈ pieces.dropLast, piece.2 ≠ []

theorem Splits.blanks {rest gap read : List Char} {split : List (List Char × Token)}
    (hgap : ∀ char ∈ gap, isBlank char = true) (h : Splits rest read split) :
    Splits rest (gap ++ read) split := by
  induction gap with
  | nil => exact h
  | cons char gap ih =>
      obtain ⟨hchar, hgap⟩ := List.forall_mem_cons.mp hgap
      exact .blank hchar (ih hgap)

theorem Splits.isLexeme_of_mem {rest read : List Char} {split : List (List Char × Token)}
    (h : Splits rest read split) : ∀ lexeme ∈ split, IsLexeme lexeme.1 lexeme.2 := by
  induction h with
  | start => simp
  | blank _ _ ih => exact ih
  | lexeme hlexeme _ _ ih => exact List.forall_mem_cons.mpr ⟨hlexeme, ih⟩

theorem splits_pieces {pieces : List (Token × List Char)} (h : IsSpacing [] pieces)
    (hlexemes : ∀ piece ∈ pieces, IsLexeme piece.1.text.toList piece.1) :
    Splits [] (spaced [] pieces) (pieces.map fun piece => (piece.1.text.toList, piece.1)) := by
  induction pieces with
  | nil => exact .start
  | cons piece pieces ih =>
      obtain ⟨hgap, hgaps⟩ := List.forall_mem_cons.mp h.gaps
      obtain ⟨hlexeme, hlexemes⟩ := List.forall_mem_cons.mp hlexemes
      have hlater : ∀ other ∈ pieces.dropLast, other ∈ (piece :: pieces).dropLast := by
        intro other hother
        rw [List.dropLast_cons_of_ne_nil (List.ne_nil_of_mem (List.mem_of_mem_dropLast hother))]
        exact List.mem_cons_of_mem _ hother
      have hrest := ih ⟨by simp, hgaps, fun other hother => h.apart other (hlater other hother)⟩
        hlexemes
      have hnext : ∀ next ∈ (piece.2 ++ spaced [] pieces ++ []).head?, isBlank next = true := by
        cases hpiece : piece.2 with
        | nil =>
            have hlast : pieces = [] := by
              by_contra hne
              refine h.apart piece ?_ hpiece
              rw [List.dropLast_cons_of_ne_nil hne]
              exact List.mem_cons_self
            simp [hlast, spaced]
        | cons char gap => simp [hgap char (by simp [hpiece])]
      have hsplits := Splits.lexeme hlexeme
        (fun next hmem => Token.not_extends_of_isBlank (hnext next hmem)) (hrest.blanks hgap)
      rwa [← List.append_assoc] at hsplits

theorem tokenize_spaced {chars lead : List Char} {tokens : List Token}
    {pieces : List (Token × List Char)} (h : tokenize chars = .ok tokens)
    (hspacing : IsSpacing lead pieces) (htokens : pieces.map Prod.fst = tokens) :
    tokenize (spaced lead pieces) = .ok tokens := by
  obtain ⟨split, hsplits, rfl⟩ := exists_splits_of_tokenize h
  have hlexemes : ∀ piece ∈ pieces, IsLexeme piece.1.text.toList piece.1 := by
    intro piece hpiece
    have hmem : piece.1 ∈ split.map Prod.snd := htokens ▸ List.mem_map_of_mem hpiece
    obtain ⟨lexeme, hlexeme, heq⟩ := List.mem_map.mp hmem
    exact heq ▸ (hsplits.isLexeme_of_mem lexeme hlexeme).text
  have hpieces := splits_pieces ⟨by simp, hspacing.gaps, hspacing.apart⟩ hlexemes
  have hspaced : Splits [] (spaced lead pieces) _ := hpieces.blanks hspacing.lead
  rw [tokenize_of_splits hspaced, List.map_map, ← htokens]
  rfl

/-! ## Blanks at the ends -/

section Trimming

variable {position : ℕ} {chars read rest after : List Char} {split : List (List Char × Token)}
  {error : FormulaError} {tokens : List Token}

theorem mem_head?_append {next : Char} (h : next ∈ (read ++ after).head?) :
    next ∈ read.head? ∨ next ∈ after := by
  cases read with
  | nil => exact .inr (List.mem_of_mem_head? h)
  | cons char read => exact .inl h

theorem Splits.append_blanks (hafter : ∀ char ∈ after, isBlank char = true)
    (h : Splits [] read split) : Splits [] (read ++ after) split := by
  induction h with
  | start =>
      have hblanks := Splits.blanks hafter (@Splits.start [])
      rwa [List.append_nil] at hblanks
  | blank hblank _ ih => exact .blank hblank ih
  | @lexeme run read token split hlexeme hends _ ih =>
      rw [List.append_assoc]
      refine .lexeme hlexeme ?_ ih
      intro next hnext
      rw [List.append_nil] at hends hnext
      rcases mem_head?_append hnext with hnext | hnext
      · exact hends next hnext
      · exact Token.not_extends_of_isBlank (hafter next hnext)

/-- Where the rest starts does not depend on what comes after it. -/
theorem Splits.append_rest (hrest : rest ≠ []) (h : Splits rest read split) :
    Splits (rest ++ after) read split := by
  induction h with
  | start => exact .start
  | blank hblank _ ih => exact .blank hblank ih
  | @lexeme run read token split hlexeme hends _ ih =>
      refine .lexeme hlexeme ?_ ih
      have hne : read ++ rest ≠ [] := List.append_ne_nil_of_right_ne_nil _ hrest
      rwa [← List.append_assoc, List.head?_append_of_ne_nil _ hne]

theorem Offends.append_blanks (hafter : ∀ char ∈ after, isBlank char = true)
    (h : Offends position rest error) : Offends position (rest ++ after) error := by
  have hfigure : ∀ {others : List Char}, (∀ next ∈ others.head?, ¬ IsFigure next) →
      ∀ next ∈ (others ++ after).head?, ¬ IsFigure next := by
    intro others hends next hnext
    rcases mem_head?_append hnext with hnext | hnext
    · exact hends next hnext
    · exact isNumeral_eq_false_iff.mp (plain_of_isBlank (hafter next hnext)).1
  cases h with
  | invalidNumber hne hfigures hends hdecimal =>
      rw [List.append_assoc]
      exact .invalidNumber hne hfigures (hfigure hends) hdecimal
  | notFinite hdecimal hends hfinite =>
      rw [List.append_assoc]
      exact .notFinite hdecimal (hfigure hends) hfinite
  | unexpectedChar hblank hplain hletter hsymbol =>
      exact .unexpectedChar hblank hplain hletter hsymbol

end Trimming

theorem splits_trimBlanks_iff {chars : List Char} {split : List (List Char × Token)} :
    Splits [] (trimBlanks chars) split ↔ Splits [] chars split := by
  obtain ⟨before, after, hbefore, hafter, hchars⟩ := exists_blanks_around chars
  rw [List.all_eq_true] at hbefore hafter
  have hwhole : ∀ {other}, Splits [] (trimBlanks chars) other → Splits [] chars other := by
    intro other hother
    rw [hchars, List.append_assoc]
    exact (hother.append_blanks hafter).blanks hbefore
  constructor
  · exact hwhole
  · intro h
    obtain ⟨read, rest, other, htrim, hsplits, hend⟩ := exists_splits (trimBlanks chars)
    by_cases hrest : rest = []
    · subst hrest
      rw [List.append_nil] at htrim
      subst htrim
      rwa [h.unique (hwhole hsplits)]
    · exfalso
      let position := (String.ofList (before ++ read)).utf8ByteSize
      obtain ⟨error, hoffends⟩ := hend.resolve_left hrest position
      have herror := tokenize_of_offends
        ((hsplits.append_rest hrest).blanks hbefore) (hoffends.append_blanks hafter)
      rw [← List.append_assoc, List.append_assoc before, ← htrim, ← hchars,
        tokenize_of_splits h] at herror
      cases herror

theorem ofText_eq_ok_iff_splits {text : String} {expr : Expr} :
    Expr.ofText text = .ok expr ↔
      (trimBlanks text.toList).length ≤ formulaLimit ∧
        ∃ split, Splits [] text.toList split ∧
          Formula.ofTokens (split.map Prod.snd) = .ok expr := by
  rw [Expr.ofText_eq_ok_iff]
  constructor
  · rintro ⟨-, hlength, tokens, htokens, hparse⟩
    obtain ⟨split, hsplits, rfl⟩ := exists_splits_of_tokenize htokens
    exact ⟨hlength, split, splits_trimBlanks_iff.mp hsplits, hparse⟩
  · rintro ⟨hlength, split, hsplits, hparse⟩
    have htrim := splits_trimBlanks_iff.mpr hsplits
    refine ⟨?_, hlength, _, tokenize_of_splits htrim, hparse⟩
    intro hnil
    rw [hnil] at htrim
    rw [htrim.unique .start] at hparse
    exact (Formula.ofTokens_eq_ok_iff_derives.mp hparse).ne_nil rfl

/-! ## Texts with the same lexemes -/

/-- The texts fall apart into the same lexemes, wherever the blanks are. -/
def SameLexemes (first second : String) : Prop :=
  ∃ split other, Splits [] first.toList split ∧ Splits [] second.toList other ∧
    split.map Prod.fst = other.map Prod.fst

theorem Splits.filterMap_map_fst {rest read : List Char} {split : List (List Char × Token)}
    (h : Splits rest read split) : (split.map Prod.fst).filterMap lexemeOf? = split := by
  induction h with
  | start => rfl
  | blank _ _ ih => exact ih
  | @lexeme run _ token _ hlexeme _ _ ih =>
      have hsome : lexemeOf? run = some (run, token) := by
        rw [lexemeOf?, Token.ofLexeme?_of_isLexeme hlexeme]
        rfl
      rw [List.map_cons, List.filterMap_cons_some hsome, ih]

theorem SameLexemes.ofText {first second : String} {expr : Expr} (h : SameLexemes first second)
    (hfirst : Expr.ofText first = .ok expr) :
    Expr.ofText second = .ok expr ∨ Expr.ofText second = .error (.tooLong formulaLimit) := by
  obtain ⟨split, other, hsplit, hother, hlexemes⟩ := h
  obtain ⟨-, own, hown, hparse⟩ := ofText_eq_ok_iff_splits.mp hfirst
  have hsame : other = own := by
    rw [← hother.filterMap_map_fst, ← hlexemes, hsplit.filterMap_map_fst, hsplit.unique hown]
  by_cases hlength : (trimBlanks second.toList).length ≤ formulaLimit
  · exact .inl (ofText_eq_ok_iff_splits.mpr ⟨hlength, other, hother, hsame ▸ hparse⟩)
  · exact .inr (Expr.ofText_of_formulaLimit_lt (Nat.lt_of_not_le hlength))

/-! ## Texts that are the same without blanks -/

/-- The tokens that a blank may have to stand between. -/
def Token.IsAtom : Token → Prop
  | .number _ | .word _ => True
  | _ => False

def NoAtomsMeet (tokens : List Token) : Prop :=
  tokens.IsChain fun first second => first.IsAtom → ¬ second.IsAtom

theorem NoAtomsMeet.append_cons {before after : List Token} {token : Token}
    (hbefore : NoAtomsMeet before) (htoken : ¬ token.IsAtom) (hafter : NoAtomsMeet after) :
    NoAtomsMeet (before ++ token :: after) := by
  refine List.isChain_append.mpr ⟨hbefore, List.isChain_cons.mpr ⟨?_, hafter⟩, ?_⟩
  · exact fun _ _ hatom => (htoken hatom).elim
  · intro _ _ next hnext _
    obtain rfl : token = next := by simpa using hnext
    exact htoken

theorem noAtomsMeet_singleton (token : Token) : NoAtomsMeet [token] :=
  List.isChain_singleton token

theorem NoAtomsMeet.closed {tokens : List Token} (h : NoAtomsMeet tokens) :
    NoAtomsMeet (tokens ++ [.closing]) :=
  h.append_cons id List.isChain_nil

theorem noAtomsMeet_joinArguments {parts : List (List Token × Expr)}
    (hparts : ∀ part ∈ parts, NoAtomsMeet part.1) : NoAtomsMeet (joinArguments parts) := by
  refine joinArguments_induction List.isChain_nil ?_ hparts
  intro before after hbefore hafter
  exact hbefore.append_cons id hafter

/-- Between two numbers or words of a phrase there is an operator, a parenthesis
or a comma. -/
theorem Derives.noAtomsMeet {phrase : Phrase} {tokens : List Token} {expr : Expr}
    (h : Derives phrase tokens expr) : NoAtomsMeet tokens := by
  induction h with
  | term _ ih | unary _ ih | primary _ ih => exact ih
  | @sum operator _ _ _ _ _ _ _ ihLeft ihRight | @product operator _ _ _ _ _ _ _ ihLeft ihRight =>
      exact ihLeft.append_cons (by cases operator <;> exact id) ihRight
  | @signed sign _ _ _ ih =>
      exact NoAtomsMeet.append_cons List.isChain_nil (by cases sign <;> exact id) ih
  | number value => exact noAtomsMeet_singleton _
  | input input => exact noAtomsMeet_singleton _
  | @call function _ _ _ ih =>
      have hname := noAtomsMeet_singleton (.word function.name)
      exact hname.append_cons id (noAtomsMeet_joinArguments ih).closed
  | parentheses _ ih => exact NoAtomsMeet.append_cons List.isChain_nil id ih.closed

theorem IsLexeme.isBlank_eq_false {run : List Char} {token : Token} (h : IsLexeme run token) :
    ∀ char ∈ run, isBlank char = false := by
  cases h with
  | symbol h => simpa using h.plain.1
  | word hfirst hothers =>
      refine List.forall_mem_cons.mpr ⟨isBlank_of_isLetter hfirst, ?_⟩
      intro char hchar
      rcases hothers char hchar with hletter | hdigit
      · exact isBlank_of_isLetter hletter
      · exact isBlank_of_isFigure (.inl hdigit)
  | number h _ => exact fun char hchar => isBlank_of_isFigure (h.figures char hchar)

theorem Token.extends_isAtom {token : Token} {char : Char} (h : token.Extends char) :
    token.IsAtom := by
  cases token with
  | number | word => trivial
  | _ => exact h

/-- No lexeme but an atom begins with a character that makes another one longer. -/
theorem IsLexeme.not_extends_head {run : List Char} {token other : Token} {next : Char}
    (h : IsLexeme run token) (hatom : ¬ token.IsAtom) (hnext : next ∈ run.head?) :
    ¬ other.Extends next := by
  cases h with
  | word | number => exact (hatom trivial).elim
  | @symbol char _ h =>
      obtain rfl : char = next := by simpa using hnext
      obtain ⟨hfigure, hpart⟩ : isNumeral char = false ∧ isWordPart char = false := by
        cases h <;> decide
      cases other with
      | number => exact isNumeral_eq_false_iff.mp hfigure
      | word => exact isWordPart_eq_false_iff.mp hpart
      | _ => exact id

/-- The text with no blanks at all. -/
def withoutBlanks (chars : List Char) : List Char :=
  chars.filter fun char => !isBlank char

theorem withoutBlanks_append (before after : List Char) :
    withoutBlanks (before ++ after) = withoutBlanks before ++ withoutBlanks after :=
  List.filter_append _ _

theorem IsLexeme.withoutBlanks_eq {run : List Char} {token : Token} (h : IsLexeme run token) :
    withoutBlanks run = run := by
  refine List.filter_eq_self.mpr fun char hchar => ?_
  rw [h.isBlank_eq_false char hchar, Bool.not_false]

section Joining

variable {read : List Char} {split : List (List Char × Token)}

theorem Splits.exists_head {next : Char} (h : Splits [] read split) (hnext : next ∈ read.head?)
    (hblank : isBlank next = false) :
    ∃ run token others, split = (run, token) :: others ∧ IsLexeme run token ∧
      next ∈ run.head? := by
  cases h with
  | start => cases hnext
  | blank hchar =>
      obtain rfl := Option.some.inj hnext
      rw [hchar] at hblank
      cases hblank
  | lexeme hlexeme =>
      rw [List.head?_append_of_ne_nil _ hlexeme.ne_nil] at hnext
      exact ⟨_, _, _, rfl, hlexeme, hnext⟩

/-- Dropping the blanks joins no lexemes where no atoms meet. -/
theorem Splits.dropBlanks (h : Splits [] read split) (hmeet : NoAtomsMeet (split.map Prod.snd)) :
    Splits [] (withoutBlanks read) split := by
  induction h with
  | start => exact .start
  | @blank char read _ hblank _ ih =>
      have hdrop : withoutBlanks (char :: read) = withoutBlanks read :=
        List.filter_cons_of_neg (by simp [hblank])
      exact hdrop ▸ ih hmeet
  | @lexeme run read token split hlexeme _ _ ih =>
      obtain ⟨hfirst, hmeet⟩ := List.isChain_cons.mp hmeet
      have hsplits := ih hmeet
      rw [withoutBlanks_append, hlexeme.withoutBlanks_eq]
      refine .lexeme hlexeme ?_ hsplits
      intro next hnext hextends
      rw [List.append_nil] at hnext
      have hblank : isBlank next = false := by
        simpa using (List.mem_filter.mp (List.mem_of_mem_head? hnext)).2
      obtain ⟨_, _, _, rfl, hother, hhead⟩ := hsplits.exists_head hnext hblank
      have hatom := hfirst _ rfl (Token.extends_isAtom hextends)
      exact hother.not_extends_head hatom hhead hextends

theorem ofText_unique_of_withoutBlanks {first second : String} {expr other : Expr}
    (hsame : withoutBlanks first.toList = withoutBlanks second.toList)
    (hfirst : Expr.ofText first = .ok expr) (hsecond : Expr.ofText second = .ok other) :
    expr = other := by
  obtain ⟨-, split, hsplit, hexpr⟩ := ofText_eq_ok_iff_splits.mp hfirst
  obtain ⟨-, split', hsplit', hother⟩ := ofText_eq_ok_iff_splits.mp hsecond
  have hdropped := hsplit.dropBlanks (Formula.ofTokens_eq_ok_iff_derives.mp hexpr).noAtomsMeet
  have hdropped' := hsplit'.dropBlanks (Formula.ofTokens_eq_ok_iff_derives.mp hother).noAtomsMeet
  rw [hsame] at hdropped
  rw [hdropped.unique hdropped', hother] at hexpr
  exact (Except.ok.inj hexpr).symm

end Joining

/-- Tokens written one after another, with blanks around them and at least one
between any two, are read as the same tokens.  A formula with the lexemes of one
that is accepted has its tree, unless the blanks make it too long, and two that
are accepted and differ in nothing but blanks have the same tree. -/
theorem tokenize_spaced_and_ofText_eq :
    (∀ chars tokens, tokenize chars = .ok tokens →
      ∀ lead pieces, IsSpacing lead pieces → pieces.map Prod.fst = tokens →
        tokenize (spaced lead pieces) = .ok tokens) ∧
    (∀ first second expr, SameLexemes first second → Expr.ofText first = .ok expr →
      Expr.ofText second = .ok expr ∨
        Expr.ofText second = .error (.tooLong formulaLimit)) ∧
    ∀ first second expr other,
      withoutBlanks first.toList = withoutBlanks second.toList →
        Expr.ofText first = .ok expr → Expr.ofText second = .ok other → expr = other := by
  refine ⟨?_, ?_, ?_⟩
  · intro chars tokens htokens lead pieces hspacing hpieces
    exact tokenize_spaced htokens hspacing hpieces
  · intro first second expr hsame hfirst
    exact hsame.ofText hfirst
  · intro first second expr other hsame hfirst hsecond
    exact ofText_unique_of_withoutBlanks hsame hfirst hsecond

theorem ofText_of_tokenize_panelCount_div_four {text : String}
    (hne : trimBlanks text.toList ≠ [])
    (hlength : (trimBlanks text.toList).length ≤ formulaLimit)
    (htokens : tokenize (trimBlanks text.toList) =
      .ok [.word "panelCount", .slash, .number (.ofNat 4)]) :
    Expr.ofText text = .ok (.binary .divide (.input .panelCount) (.number (.ofNat 4))) := by
  have hcount : Derives .unary [.word "panelCount"] (.input .panelCount) :=
    .primary (.input .panelCount)
  have hderives := Derives.term
    (@Derives.product .divide _ _ _ _ rfl (.unary hcount) (.primary (.number (.ofNat 4))))
  have hparse := Formula.ofTokens_eq_ok_iff_derives.mpr hderives
  exact Expr.ofText_eq_ok_iff.mpr ⟨hne, hlength, _, htokens, hparse⟩

theorem ofText_panelCount_div_four_spaced :
    tokenize " panelCount /\t4".toList = .ok [.word "panelCount", .slash, .number (.ofNat 4)] ∧
      SameLexemes "panelCount/4" " panelCount / 4" ∧
      (Expr.ofText " panelCount / 4" =
          .ok (.binary .divide (.input .panelCount) (.number (.ofNat 4))) ∨
        Expr.ofText " panelCount / 4" = .error (.tooLong formulaLimit)) ∧
      ∃ other, Expr.ofText "panelCount / 4" = .ok other ∧
        .binary .divide (.input .panelCount) (.number (.ofNat 4)) = other := by
  obtain ⟨hspaced, hlexemes, hblanks⟩ := tokenize_spaced_and_ofText_eq
  have htokens : tokenize "panelCount/4".toList =
      .ok [.word "panelCount", .slash, .number (.ofNat 4)] := by decide +kernel
  have hpadded : tokenize " panelCount / 4".toList =
      .ok [.word "panelCount", .slash, .number (.ofNat 4)] := by decide +kernel
  have hpieces : IsSpacing [' ']
      [(.word "panelCount", [' ']), (.slash, ['\t']), (.number (.ofNat 4), [])] := by
    constructor <;> simp [isBlank]
  have htext : spaced [' ']
      [(.word "panelCount", [' ']), (.slash, ['\t']), (.number (.ofNat 4), [])] =
        " panelCount /\t4".toList := by
    decide +kernel
  have hsame : SameLexemes "panelCount/4" " panelCount / 4" :=
    ⟨_, _, splits_lexemes htokens, splits_lexemes hpadded, by decide +kernel⟩
  have hfirst := @ofText_of_tokenize_panelCount_div_four "panelCount/4"
    (by decide) (by decide) (by decide +kernel)
  have hsecond := @ofText_of_tokenize_panelCount_div_four "panelCount / 4"
    (by decide) (by decide) (by decide +kernel)
  refine ⟨?_, hsame, hlexemes _ _ _ hsame hfirst, _, hsecond, ?_⟩
  · exact htext ▸ hspaced _ _ htokens _ _ hpieces rfl
  · exact hblanks _ _ _ _ (by decide) hfirst hsecond

end SolarTakeoff
