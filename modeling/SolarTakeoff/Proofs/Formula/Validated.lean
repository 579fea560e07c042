import SolarTakeoff.Proofs.Formula.Accepted
import SolarTakeoff.Proofs.Formula.Tokens
import SolarTakeoff.Proofs.Quantity.Stops
import SolarTakeoff.Proofs.Validation.Accepted
import Mathlib.Tactic

/-!
# What validation of a formula is worth

The numbers of a tree are numbers of its text, and these are finite and have no
sign.  With calls that fit, nothing is left that a job could bring to light but
a division by zero and a value that is not finite.
-/

namespace SolarTakeoff

/-! ## Numbers of a tree -/

theorem mem_joinArguments {parts : List (List Token × Expr)} {part : List Token × Expr}
    {token : Token} (hpart : part ∈ parts) (htoken : token ∈ part.1) :
    token ∈ joinArguments parts := by
  induction parts with
  | nil => cases hpart
  | cons first others ih =>
      by_cases hothers : others = []
      · subst hothers
        obtain rfl : part = first := by simpa using hpart
        simpa using htoken
      · rw [joinArguments_cons first hothers, List.mem_append, List.mem_cons]
        rcases List.mem_cons.mp hpart with rfl | hpart
        · exact .inl htoken
        · exact .inr (.inr (ih hpart))

namespace Expr

variable {expr node : Expr} {value : Binary64}

theorem mem_postorder_iff :
    node ∈ expr.postorder ↔ node = expr ∨ ∃ child ∈ expr.children, node ∈ child.postorder := by
  rw [postorder_eq, List.mem_append, List.mem_flatMap, List.mem_singleton, or_comm]

end Expr

/-- Every number of a derived tree stands among the tokens it is derived from. -/
theorem Derives.number_mem {phrase : Phrase} {tokens : List Token} {expr : Expr}
    {value : Binary64} (h : Derives phrase tokens expr)
    (hvalue : .number value ∈ expr.postorder) : .number value ∈ tokens := by
  induction h with
  | term _ ih | unary _ ih | primary _ ih => exact ih hvalue
  | sum _ _ _ ihLeft ihRight | product _ _ _ ihLeft ihRight =>
      rw [List.mem_append, List.mem_cons]
      rcases Expr.mem_postorder_iff.mp hvalue with hroot | ⟨child, hchild, hmem⟩
      · cases hroot
      · rcases List.mem_pair.mp hchild with rfl | rfl
        · exact .inl (ihLeft hmem)
        · exact .inr (.inr (ihRight hmem))
  | signed _ ih =>
      rcases Expr.mem_postorder_iff.mp hvalue with hroot | ⟨child, hchild, hmem⟩
      · cases hroot
      · obtain rfl := List.mem_singleton.mp hchild
        exact List.mem_cons_of_mem _ (ih hmem)
  | number value => simpa [Expr.postorder] using hvalue
  | input input => simp [Expr.postorder] at hvalue
  | @call function parts _ _ ih =>
      rcases Expr.mem_postorder_iff.mp hvalue with hroot | ⟨child, hchild, hmem⟩
      · cases hroot
      · obtain ⟨part, hpart, rfl⟩ := List.mem_map.mp hchild
        have htoken := mem_joinArguments hpart (ih part hpart hmem)
        simp [htoken]
  | parentheses _ ih => simp [ih hvalue]

theorem zero_le_of_number_mem {text : String} {expr : Expr} {value : Binary64}
    (h : Expr.ofText text = .ok expr) (hvalue : .number value ∈ expr.postorder) :
    value.isFinite = true ∧ Binary64.zero.le value = true := by
  obtain ⟨-, -, tokens, htokens, hexpr⟩ := Expr.ofText_eq_ok_iff.mp h
  have hderives := Formula.ofTokens_eq_ok_iff_derives.mp hexpr
  exact zero_le_of_mem_tokenize htokens (hderives.number_mem hvalue)

/-! ## Values for a job -/

theorem evaluateText_of_ofText {text : String} {expr : Expr} (inputs : Inputs)
    (h : Expr.ofText text = .ok expr) :
    (∃ value, evaluateText inputs text = .ok value ∧ value.isFinite = true) ∨
      evaluateText inputs text = .error .divisionByZero ∨
      evaluateText inputs text = .error .notFinite := by
  have hevaluate : evaluateText inputs text = expr.evaluate inputs := by
    rw [evaluateText, h]
    rfl
  rw [hevaluate]
  cases hresult : expr.evaluate inputs with
  | ok value => exact .inl ⟨value, rfl, Expr.isFinite_of_evaluate_eq_ok hresult⟩
  | error error =>
      rcases (callsFit_of_ofText h).error_of_evaluate hresult with rfl | rfl
      · exact .inr (.inl rfl)
      · exact .inr (.inr rfl)

theorem isFinite_evaluateOrZero (job : Job) (text : String) :
    (evaluateOrZero job text).value.isFinite = true := by
  unfold evaluateOrZero
  cases hresult : evaluateText job.inputs text with
  | error error => exact Binary64.isFinite_zero
  | ok value =>
      obtain ⟨expr, -, hvalue⟩ := evaluateText_eq_ok_iff.mp hresult
      exact Expr.isFinite_of_evaluate_eq_ok hvalue

/-- The tree of a formula that passes validation has only finite numbers without
a sign and only calls that fit, at any depth; for every job it then has a finite
value, divides by zero or is not finite.  Where zero takes the place of an
error, every text has a finite value for every job. -/
theorem evaluateText_of_validate (text : String) :
    ((Strategy.formula text).validate = .ok () →
      ∃ expr, Expr.ofText text = .ok expr ∧
        (∀ value, .number value ∈ expr.postorder →
          value.isFinite = true ∧ Binary64.zero.le value = true) ∧
        (∀ function arguments, .call function arguments ∈ expr.postorder →
          function.Takes arguments.length) ∧
        ∀ job : Job,
          (∃ value, evaluateText job.inputs text = .ok value ∧ value.isFinite = true) ∨
            evaluateText job.inputs text = .error .divisionByZero ∨
            evaluateText job.inputs text = .error .notFinite) ∧
      ∀ job, (evaluateOrZero job text).value.isFinite = true := by
  refine ⟨?_, fun job => isFinite_evaluateOrZero job text⟩
  intro hvalid
  obtain ⟨expr, hparse⟩ := Strategy.validate_eq_ok_iff.mp hvalid
  refine ⟨expr, hparse, ?_, callsFit_of_ofText hparse, ?_⟩
  · exact fun value hvalue => zero_le_of_number_mem hparse hvalue
  · exact fun job => evaluateText_of_ofText job.inputs hparse

theorem ofText_ceil_panelCount_div_four :
    Expr.ofText "CEIL(panelCount / 4)" =
      .ok (.call .ceil [.binary .divide (.input .panelCount) (.number (.ofNat 4))]) := by
  have hcount : Derives .unary [.word "panelCount"] (.input .panelCount) :=
    .primary (.input .panelCount)
  have hfour : Derives .unary [.number (.ofNat 4)] (.number (.ofNat 4)) :=
    .primary (.number (.ofNat 4))
  have hquotient : Derives .term [.word "panelCount", .slash, .number (.ofNat 4)]
      (.binary .divide (.input .panelCount) (.number (.ofNat 4))) :=
    @Derives.product .divide _ _ _ _ rfl (.unary hcount) hfour
  have hcall := @Derives.call .ceil
    [([.word "panelCount", .slash, .number (.ofNat 4)],
      .binary .divide (.input .panelCount) (.number (.ofNat 4)))]
    rfl (by simpa using .term hquotient)
  have hparse := Formula.ofTokens_eq_ok_iff_derives.mpr (.term (.unary (.primary hcall)))
  exact Expr.ofText_eq_ok_iff.mpr ⟨by decide, by decide, _, by decide +kernel, hparse⟩

theorem evaluateText_ceil_panelCount_div_four :
    (Strategy.formula "CEIL(panelCount / 4)").validate = .ok () ∧
      (Binary64.ofNat 4).isFinite = true ∧ Function.ceil.Takes 1 ∧
      ((∃ value, evaluateText bareJob.inputs "CEIL(panelCount / 4)" = .ok value ∧
          value.isFinite = true) ∨
        evaluateText bareJob.inputs "CEIL(panelCount / 4)" = .error .divisionByZero ∨
        evaluateText bareJob.inputs "CEIL(panelCount / 4)" = .error .notFinite) := by
  have hvalid : (Strategy.formula "CEIL(panelCount / 4)").validate = .ok () :=
    Strategy.validate_eq_ok_iff.mpr ⟨_, ofText_ceil_panelCount_div_four⟩
  obtain ⟨expr, hparse, hnumbers, hcalls, hjobs⟩ :=
    (evaluateText_of_validate "CEIL(panelCount / 4)").1 hvalid
  obtain rfl := Except.ok.inj (ofText_ceil_panelCount_div_four.symm.trans hparse)
  have hfour := hnumbers (.ofNat 4) (by simp [Expr.postorder, postorderAll])
  have hceil := hcalls .ceil [.binary .divide (.input .panelCount) (.number (.ofNat 4))]
    (by simp [Expr.postorder, postorderAll])
  exact ⟨hvalid, hfour.1, hceil, hjobs bareJob⟩

end SolarTakeoff
