import SolarTakeoff.Proofs.Formula.Evaluation
import SolarTakeoff.Proofs.Formula.Parsing
import Mathlib.Tactic

/-!
# Formulas that have been accepted

The reader counts the arguments of a call before it accepts it, so in a formula
that has been read no call is to blame for a failure.  What is left to go wrong
is a division by zero and a value that is not finite.
-/

namespace SolarTakeoff

namespace Expr

variable {inputs : Inputs} {expr : Expr} {error : FormulaError}

/-- Every call of the tree has a number of arguments that its function takes. -/
def CallsFit (expr : Expr) : Prop :=
  ∀ function arguments, .call function arguments ∈ expr.postorder →
    function.Takes arguments.length

theorem callsFit_of_children (hchildren : ∀ child ∈ expr.children, child.CallsFit)
    (hroot : ∀ function arguments, expr = .call function arguments →
      function.Takes arguments.length) : expr.CallsFit := by
  intro function arguments hmem
  rw [postorder_eq, List.mem_append, List.mem_flatMap, List.mem_singleton] at hmem
  rcases hmem with ⟨child, hchild, hmem⟩ | hroot'
  · exact hchildren child hchild function arguments hmem
  · exact hroot function arguments hroot'.symm

theorem FirstFailure.exists_fails {nodes : List Expr} (h : FirstFailure inputs nodes error) :
    ∃ node ∈ nodes, ∃ values, evaluateAll inputs node.children = .ok values ∧
      node.Fails inputs values error := by
  induction h with
  | here hvalues hfails => exact ⟨_, List.mem_cons_self, _, hvalues, hfails⟩
  | later _ _ ih =>
      obtain ⟨node, hnode, hfails⟩ := ih
      exact ⟨node, List.mem_cons_of_mem _ hnode, hfails⟩

theorem CallsFit.error_of_evaluate (hfit : expr.CallsFit)
    (h : expr.evaluate inputs = .error error) :
    error = .divisionByZero ∨ error = .notFinite := by
  have hfirst := ((runsOver_postorder inputs expr).error_iff error).mp h
  obtain ⟨node, hnode, values, hvalues, hfails⟩ := hfirst.exists_fails
  cases hfails with
  | zeroDivisor _ => exact .inl rfl
  | notFinite _ _ => exact .inr rfl
  | arity htakes =>
      rw [length_evaluateAll hvalues] at htakes
      exact (htakes (hfit _ _ hnode)).elim

end Expr

theorem Derives.callsFit {phrase : Phrase} {tokens : List Token} {expr : Expr}
    (h : Derives phrase tokens expr) : expr.CallsFit := by
  induction h with
  | term _ ih | unary _ ih | primary _ ih | parentheses _ ih => exact ih
  | sum _ _ _ ihLeft ihRight | product _ _ _ ihLeft ihRight =>
      exact Expr.callsFit_of_children (by simpa [Expr.children] using ⟨ihLeft, ihRight⟩) (by simp)
  | signed _ ih =>
      exact Expr.callsFit_of_children (by simpa [Expr.children] using ih) (by simp)
  | number _ | input _ => exact Expr.callsFit_of_children (by simp [Expr.children]) (by simp)
  | call htakes _ ih =>
      apply Expr.callsFit_of_children
      · rintro child hchild
        obtain ⟨part, hpart, rfl⟩ := List.mem_map.mp hchild
        exact ih part hpart
      · rintro function arguments hcall
        cases hcall
        simpa using htakes

theorem callsFit_of_ofText {text : String} {expr : Expr} (h : Expr.ofText text = .ok expr) :
    expr.CallsFit := by
  obtain ⟨-, -, tokens, -, htokens⟩ := Expr.ofText_eq_ok_iff.mp h
  exact (Formula.ofTokens_eq_ok_iff_derives.mp htokens).callsFit

end SolarTakeoff
