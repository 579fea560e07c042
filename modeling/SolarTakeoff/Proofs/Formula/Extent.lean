import SolarTakeoff.Proofs.Formula.Limits
import SolarTakeoff.Proofs.Formula.Parsing
import SolarTakeoff.Proofs.Formula.Scanning
import Mathlib.Tactic

/-!
# How much of a formula becomes its tree

Every node of a tree is paid for by a token of its own, and every token by a
character.  So a phrase advances by at least as many tokens as its tree has
nodes, and the limit on the length of a formula is one on its tree.
-/

namespace SolarTakeoff

/-! ## Nodes and tokens -/

theorem sizeAll_le_joinArguments {parts : List (List Token × Expr)}
    (h : ∀ part ∈ parts, part.2.size ≤ part.1.length) :
    sizeAll (parts.map Prod.snd) ≤ (joinArguments parts).length := by
  induction parts with
  | nil => exact Nat.zero_le _
  | cons part parts ih =>
      obtain ⟨hpart, hparts⟩ := List.forall_mem_cons.mp h
      rw [List.map_cons, sizeAll]
      by_cases hnil : parts = []
      · subst hnil
        rwa [joinArguments_singleton]
      · have hrest := ih hparts
        rw [joinArguments_cons part hnil, List.length_append, List.length_cons]
        omega

theorem Derives.size_le_length {phrase : Phrase} {tokens : List Token} {expr : Expr}
    (h : Derives phrase tokens expr) : expr.size ≤ tokens.length := by
  induction h with
  | term _ ih | unary _ ih | primary _ ih => exact ih
  | sum _ _ _ ihLeft ihRight | product _ _ _ ihLeft ihRight =>
      rw [Expr.size, List.length_append, List.length_cons]
      omega
  | signed _ ih => exact Nat.succ_le_succ ih
  | number | input => exact Nat.le_refl 1
  | call _ _ ih =>
      have harguments := sizeAll_le_joinArguments ih
      rw [Expr.size, List.length_cons, List.length_cons, List.length_append]
      omega
  | parentheses _ ih =>
      rw [List.length_cons, List.length_append]
      omega

namespace Formula

variable {phrase : Phrase} {tokens : List Token}

theorem covers_of_readPhrase {reading : Reading Token Expr tokens.length}
    (h : readPhrase phrase tokens = .ok reading) :
    Covers phrase tokens reading.value reading.rest := by
  have hreads : ∀ {result}, result = .ok reading →
      @Reads FormulaError _ _ _ result reading.value reading.rest :=
    fun hresult => ⟨reading, hresult, rfl, rfl⟩
  cases phrase with
  | expression => exact chainSound .sum tokens _ _ (hreads h)
  | term => exact chainSound .product tokens _ _ (hreads h)
  | unary => exact signedSound tokens _ _ (hreads h)
  | primary => exact primarySound tokens _ _ (hreads h)

/-- The end of what is covered, as an index of the whole list. -/
theorem Covers.exists_index {start : ℕ} {expr : Expr} {rest : List Token}
    (h : Covers phrase (tokens.drop start) expr rest) :
    ∃ stop, start < stop ∧ stop ≤ tokens.length ∧ rest = tokens.drop stop ∧
      expr.size ≤ stop - start := by
  obtain ⟨read, htokens, hderives⟩ := h
  have hsize := hderives.size_le_length
  have hpos : 0 < read.length := List.length_pos_iff.mpr hderives.ne_nil
  have hlength := congrArg List.length htokens
  rw [List.length_drop, List.length_append] at hlength
  refine ⟨start + read.length, by omega, by omega, ?_, by omega⟩
  rw [← List.drop_drop, htokens, List.drop_left]

end Formula

/-! ## Tokens and characters -/

theorem Splits.length_le {rest read : List Char} {split : List (List Char × Token)}
    (h : Splits rest read split) : split.length ≤ read.length := by
  induction h with
  | start => exact Nat.le_refl 0
  | blank _ _ ih => exact Nat.le_succ_of_le ih
  | lexeme hlexeme _ _ ih =>
      have hpos := List.length_pos_iff.mpr hlexeme.ne_nil
      rw [List.length_cons, List.length_append]
      omega

theorem size_le_length_of_ofText {text : String} {expr : Expr}
    (h : Expr.ofText text = .ok expr) : expr.size ≤ (trimBlanks text.toList).length := by
  obtain ⟨-, -, tokens, htokens, hparse⟩ := Expr.ofText_eq_ok_iff.mp h
  obtain ⟨split, hsplits, rfl⟩ := exists_splits_of_tokenize htokens
  have hderives := Formula.ofTokens_eq_ok_iff_derives.mp hparse
  have hsize := hderives.size_le_length
  rw [List.length_map] at hsize
  exact hsize.trans hsplits.length_le

/-! ## Depth -/

theorem Expr.depthAll_le_sizeAll {exprs : List Expr} (h : ∀ expr ∈ exprs, expr.depth ≤ expr.size) :
    depthAll exprs ≤ sizeAll exprs := by
  induction exprs with
  | nil => exact Nat.le_refl 0
  | cons expr exprs ih =>
      obtain ⟨hexpr, hexprs⟩ := List.forall_mem_cons.mp h
      have hrest := ih hexprs
      rw [depthAll, sizeAll]
      omega

theorem Expr.depth_le_size (expr : Expr) : expr.depth ≤ expr.size := by
  induction expr using induction_children with
  | step expr ih =>
      cases expr with
      | number | input => exact Nat.le_refl 1
      | signed sign operand => exact Nat.succ_le_succ (ih operand (by simp [children]))
      | binary operator left right =>
          have hleft := ih left (by simp [children])
          have hright := ih right (by simp [children])
          rw [depth, size]
          omega
      | call function arguments => exact Nat.succ_le_succ (depthAll_le_sizeAll ih)

/-- Every phrase has its answer, a tree or an error, after a number of nested calls
that is bounded by the tokens it is given.  A phrase that is read has advanced
by at least the nodes of its tree, and not past the last token.  So a formula that
is accepted has as many nodes as it may have characters at most, none of them
deeper than that, and its evaluation needs no more nested calls. -/
theorem readPhrase_answers_and_advances :
    (∀ phrase (tokens : List Token) limit, 8 * (tokens.length + 1) ≤ limit →
      Formula.readPhraseWithin limit phrase tokens =
          Formula.answered (Formula.readPhrase phrase tokens) ∧
        Formula.ofTokensWithin limit tokens = Formula.answered (Formula.ofTokens tokens)) ∧
    (∀ phrase (tokens : List Token) start reading,
      Formula.readPhrase phrase (tokens.drop start) = .ok reading →
        ∃ stop, start < stop ∧ stop ≤ tokens.length ∧ reading.rest = tokens.drop stop ∧
          reading.value.size ≤ stop - start) ∧
    ∀ text expr, Expr.ofText text = .ok expr →
      expr.size ≤ 1024 ∧ expr.depth ≤ 1024 ∧
        ∀ inputs, Expr.evaluateWithin inputs 1024 expr =
          Formula.answered (expr.evaluate inputs) := by
  refine ⟨?_, ?_, ?_⟩
  · intro phrase tokens limit hlimit
    exact ⟨Formula.readPhraseWithin_eq phrase tokens hlimit, Formula.ofTokensWithin_eq hlimit⟩
  · intro phrase tokens start reading h
    exact (Formula.covers_of_readPhrase h).exists_index
  · intro text expr h
    have hlength : (trimBlanks text.toList).length ≤ 1024 := (Expr.ofText_eq_ok_iff.mp h).2.1
    have hsize : expr.size ≤ 1024 := (size_le_length_of_ofText h).trans hlength
    have hdepth : expr.depth ≤ 1024 := expr.depth_le_size.trans hsize
    exact ⟨hsize, hdepth, fun inputs => Expr.evaluateWithin_eq hdepth⟩

theorem ofText_panelCount : Expr.ofText "panelCount" = .ok (.input .panelCount) := by
  have hderives : Derives .expression [.word "panelCount"] (.input .panelCount) :=
    .term (.unary (.primary (.input .panelCount)))
  have hparse := Formula.ofTokens_eq_ok_iff_derives.mpr hderives
  exact Expr.ofText_eq_ok_iff.mpr ⟨by decide, by decide, _, by decide +kernel, hparse⟩

theorem readPhrase_panelCount_advances :
    8 * ([Token.word "panelCount"].length + 1) ≤ 16 ∧
      Formula.ofTokensWithin 16 [.word "panelCount"] =
        Formula.answered (Formula.ofTokens [.word "panelCount"]) ∧
      (∃ stop, 1 < stop ∧ stop ≤ 3 ∧
        [Token.closing] = [.opening, .word "panelCount", .closing].drop stop ∧
          (Expr.input .panelCount).size ≤ stop - 1) ∧
      Expr.ofText "panelCount" = .ok (.input .panelCount) ∧
      (Expr.input .panelCount).depth ≤ 1024 := by
  obtain ⟨hanswers, hadvances, hbounded⟩ := readPhrase_answers_and_advances
  have hlimit : 8 * ([Token.word "panelCount"].length + 1) ≤ 16 := by decide
  have hread : Formula.readPhrase .primary
      ([.opening, .word "panelCount", .closing].drop 1) =
        .ok (.of (.input .panelCount) [.closing]) := by
    rw [Formula.readPhrase, Formula.primary.eq_def]
    rfl
  exact ⟨hlimit, (hanswers .primary _ _ hlimit).2, hadvances _ _ _ _ hread, ofText_panelCount,
    (hbounded _ _ ofText_panelCount).2.1⟩

end SolarTakeoff
