import SolarTakeoff.Proofs.FirstOccurrences
import SolarTakeoff.Proofs.Formula.Evaluation
import Mathlib.Tactic

/-!
# The inputs that a formula depends on

The inputs of a tree are those of its leaves, each once and in the order in
which the leaves come.  They are all that evaluation asks for: two sets of
inputs that agree on them give the same value or the same error.
-/

namespace SolarTakeoff

namespace Expr

variable {expr : Expr} {first second : Inputs} {input : Input}

/-! ## Leaves -/

/-- The input that a leaf stands for. -/
def leaf? : Expr → Option Input
  | .input input => some input
  | _ => none

theorem leaf?_eq_some_iff (expr : Expr) (input : Input) :
    expr.leaf? = some input ↔ expr = .input input := by
  cases expr <;> simp [leaf?]

theorem mentionsAll_eq_flatMap (exprs : List Expr) :
    mentionsAll exprs = exprs.flatMap mentions := by
  induction exprs with
  | nil => rfl
  | cons expr rest ih => simp [mentionsAll, ih]

theorem mentions_eq (expr : Expr) :
    expr.mentions = expr.children.flatMap mentions ++ expr.leaf?.toList := by
  cases expr <;> simp [mentions, children, leaf?, mentionsAll_eq_flatMap]

theorem mentions_eq_filterMap (expr : Expr) :
    expr.mentions = expr.postorder.filterMap leaf? := by
  induction expr using induction_children with
  | step expr ih =>
      have hchildren : expr.children.flatMap mentions =
          (expr.children.flatMap postorder).filterMap leaf? := by
        rw [List.filterMap_flatMap]
        exact List.flatMap_congr fun child hchild => ih child hchild
      have hroot : [expr].filterMap leaf? = expr.leaf?.toList := by
        cases h : expr.leaf? <;> simp [h]
      rw [mentions_eq, postorder_eq, List.filterMap_append, hchildren, hroot]

/-- Of all nodes from left to right, one is the first input and none before it
is the second. -/
def UsesBefore (expr : Expr) (first second : Input) : Prop :=
  MetBefore expr.postorder (.input first) (.input second)

theorem nodup_inputs (expr : Expr) : expr.inputs.Nodup :=
  nodup_eraseDups expr.mentions

theorem mem_inputs_iff : input ∈ expr.inputs ↔ .input input ∈ expr.postorder := by
  rw [inputs, List.mem_eraseDups, mentions_eq_filterMap, List.mem_filterMap]
  simp only [leaf?_eq_some_iff]
  simp

theorem pairwise_usesBefore_inputs (expr : Expr) : expr.inputs.Pairwise expr.UsesBefore := by
  have hmentions := pairwise_metBefore_eraseDups expr.mentions
  refine hmentions.imp fun {first second} h => ?_
  rw [mentions_eq_filterMap] at h
  exact h.of_filterMap leaf?_eq_some_iff

/-! ## Evaluation -/

theorem evaluateAll_congr {exprs : List Expr}
    (h : ∀ expr ∈ exprs, expr.evaluate first = expr.evaluate second) :
    evaluateAll first exprs = evaluateAll second exprs := by
  induction exprs with
  | nil => simp
  | cons expr rest ih =>
      obtain ⟨hexpr, hrest⟩ := List.forall_mem_cons.mp h
      rw [evaluateAll, evaluateAll, hexpr, ih hrest]

theorem evaluate_congr_of_children
    (hchildren : ∀ child ∈ expr.children, child.evaluate first = child.evaluate second)
    (hleaf : ∀ input, expr = .input input → first input = second input) :
    expr.evaluate first = expr.evaluate second := by
  cases expr with
  | number value => rw [evaluate, evaluate]
  | input input => rw [evaluate, evaluate, hleaf input rfl]
  | signed sign operand =>
      have hoperand := hchildren operand (by simp [children])
      rw [evaluate, evaluate, hoperand]
  | binary operator left right =>
      have hleft := hchildren left (by simp [children])
      have hright := hchildren right (by simp [children])
      rw [evaluate, evaluate, hleft, hright]
  | call function arguments =>
      have harguments : evaluateAll first arguments = evaluateAll second arguments :=
        evaluateAll_congr hchildren
      rw [evaluate, evaluate, harguments]

theorem evaluate_congr_of_postorder
    (h : ∀ input, .input input ∈ expr.postorder → first input = second input) :
    expr.evaluate first = expr.evaluate second := by
  induction expr using induction_children with
  | step expr ih =>
      apply evaluate_congr_of_children
      · intro child hchild
        apply ih child hchild
        intro input hinput
        apply h
        rw [postorder_eq]
        exact List.mem_append_left _ (List.mem_flatMap.mpr ⟨child, hchild, hinput⟩)
      · rintro input rfl
        exact h input (by simp [postorder])

theorem evaluate_congr (h : ∀ input ∈ expr.inputs, first input = second input) :
    expr.evaluate first = expr.evaluate second :=
  evaluate_congr_of_postorder fun input hinput => h input (mem_inputs_iff.mpr hinput)

end Expr

end SolarTakeoff
