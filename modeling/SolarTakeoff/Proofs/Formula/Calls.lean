import SolarTakeoff.Proofs.Binary64.Ends
import SolarTakeoff.Proofs.Binary64.Extremes
import SolarTakeoff.Proofs.Formula.Evaluation
import Mathlib.Tactic

/-!
# Calls of functions on finite numbers

The largest of some finite numbers is one of them and none is above it; neither their
order nor how often each stands there matters, and a maximum of maxima is a maximum of
all.  The smallest is the same among opposites.

Every function takes finite numbers to finite numbers, the largest of them included.
The operands of a node that is evaluated are finite, so where a formula leaves the
finite numbers it does so at a number, at an input or at an operation, never at a call.
-/

namespace SolarTakeoff

open Binary64 (Tops)

namespace Function

variable {function : Function} {values others : List Binary64}

theorem apply_max (hne : values ≠ []) : apply .max values = .ok (Binary64.largest values) := by
  obtain ⟨first, rest, rfl⟩ := List.exists_cons_of_ne_nil hne
  rfl

theorem apply_min (hne : values ≠ []) : apply .min values = .ok (Binary64.least values) := by
  obtain ⟨first, rest, rfl⟩ := List.exists_cons_of_ne_nil hne
  rfl

theorem exists_tops_apply_max (hne : values ≠ [])
    (hvalues : ∀ value ∈ values, value.isNaN = false) :
    ∃ top, apply .max values = .ok top ∧ Tops values top :=
  ⟨_, apply_max hne, Binary64.tops_largest hne hvalues⟩

theorem apply_max_append (hne : values ≠ []) (hothersNe : others ≠ [])
    (hvalues : ∀ value ∈ values, value.isNaN = false)
    (hothers : ∀ value ∈ others, value.isNaN = false) :
    (do apply .max [← apply .max values, ← apply .max others]) =
      apply .max (values ++ others) := by
  have htop := hvalues _ (Binary64.tops_largest hne hvalues).mem
  rw [apply_max hne, apply_max hothersNe, apply_max (List.append_ne_nil_of_left_ne_nil hne others),
    Binary64.largest_append hne hvalues hothers, ← Binary64.largest_pair htop]
  exact apply_max (List.cons_ne_nil _ _)

theorem apply_min_eq (hne : values ≠ []) :
    apply .min values = (apply .max (values.map (-·))).map (-·) := by
  have hmap : values.map (-·) ≠ [] := by simpa using hne
  rw [apply_min hne, apply_max hmap, Binary64.least_eq]
  rfl

theorem isFinite_value (htakes : function.Takes values.length)
    (hvalues : ∀ value ∈ values, value.isFinite = true) :
    (function.value values htakes.pos).isFinite = true := by
  have hfirst := hvalues _ (List.getElem_mem htakes.pos)
  have hne : values ≠ [] := List.ne_nil_of_length_pos htakes.pos
  cases function with
  | ceil => exact Binary64.isFinite_ceil hfirst
  | floor => exact Binary64.isFinite_floor hfirst
  | round => exact Binary64.isFinite_roundHalfUp hfirst
  | max => exact Binary64.isFinite_largest hne hvalues
  | min => exact Binary64.isFinite_least hne hvalues

end Function

namespace Expr

variable {inputs : Inputs} {expr node : Expr} {error : FormulaError}

/-! ## Where the finite numbers are left -/

/-- A number or an input that is not finite, or an operation on finite numbers whose
result is not. -/
inductive LeavesFinite (inputs : Inputs) : Expr → Prop where
  | number {value : Binary64} : value.isFinite = false → LeavesFinite inputs (.number value)
  | input {input : Input} : (inputs input).isFinite = false → LeavesFinite inputs (.input input)
  | binary {operator : Operator} {left right : Expr} {a b : Binary64} :
      left.evaluate inputs = .ok a → right.evaluate inputs = .ok b →
      ¬ operator.DividesByZero b → (operator.value a b).isFinite = false →
      LeavesFinite inputs (.binary operator left right)

theorem isFinite_of_mem_evaluateAll {exprs : List Expr} {values : List Binary64}
    (h : evaluateAll inputs exprs = .ok values) : ∀ value ∈ values, value.isFinite = true := by
  induction exprs generalizing values with
  | nil =>
      obtain rfl : [] = values := by simpa using h
      simp
  | cons expr exprs ih =>
      obtain ⟨value, hvalue, others, hothers, rfl⟩ := evaluateAll_cons_eq_ok_iff.mp h
      exact List.forall_mem_cons.mpr ⟨isFinite_of_evaluate_eq_ok hvalue, ih hothers⟩

/-- Neither a sign nor a function leaves the finite numbers by itself. -/
theorem fails_notFinite_iff :
    (∃ values, evaluateAll inputs node.children = .ok values ∧
        node.Fails inputs values .notFinite) ↔ node.LeavesFinite inputs := by
  constructor
  · rintro ⟨values, hvalues, hfails⟩
    have hfinite := isFinite_of_mem_evaluateAll hvalues
    cases hfails with
    | notFinite hcombines hvalue =>
        cases hcombines with
        | number => exact .number hvalue
        | input => exact .input hvalue
        | @signed sign operand value =>
            have hoperand : value.isFinite = true := by simpa using hfinite
            cases sign <;> simp [Sign.apply, hoperand] at hvalue
        | @binary operator left right a b hzero =>
            obtain ⟨hleft, hright⟩ :
                left.evaluate inputs = .ok a ∧ right.evaluate inputs = .ok b := by
              simpa [children, evaluateAll_cons_eq_ok_iff] using hvalues
            exact .binary hleft hright hzero hvalue
        | call htakes =>
            rw [Function.isFinite_value htakes hfinite] at hvalue
            cases hvalue
  · intro h
    cases h with
    | number hvalue => exact ⟨[], evaluateAll_nil, .notFinite .number hvalue⟩
    | input hvalue => exact ⟨[], evaluateAll_nil, .notFinite .input hvalue⟩
    | @binary operator left right a b hleft hright hzero hvalue =>
        refine ⟨[a, b], ?_, .notFinite (.binary hzero) hvalue⟩
        simp [children, evaluateAll_cons_eq_ok_iff, hleft, hright]

theorem firstFailure_iff_exists {nodes : List Expr} :
    FirstFailure inputs nodes error ↔
      ∃ before node after, nodes = before ++ node :: after ∧
        (∀ earlier ∈ before, earlier.HasValue inputs) ∧
        ∃ values, evaluateAll inputs node.children = .ok values ∧
          node.Fails inputs values error := by
  constructor
  · intro h
    induction h with
    | @here node others values error hvalues hfails =>
        exact ⟨[], node, others, rfl, by simp, values, hvalues, hfails⟩
    | @later first others error hfirst _ ih =>
        obtain ⟨before, node, after, rfl, hbefore, hfails⟩ := ih
        exact ⟨first :: before, node, after, rfl, List.forall_mem_cons.mpr ⟨hfirst, hbefore⟩,
          hfails⟩
  · rintro ⟨before, node, after, rfl, hbefore, values, hvalues, hfails⟩
    exact firstFailure_append_iff.mpr (.inr ⟨hbefore, .here hvalues hfails⟩)

theorem evaluate_eq_notFinite_iff :
    expr.evaluate inputs = .error .notFinite ↔
      ∃ before node after, expr.postorder = before ++ node :: after ∧
        (∀ earlier ∈ before, earlier.HasValue inputs) ∧ node.LeavesFinite inputs := by
  rw [(runsOver_postorder inputs expr).error_iff, firstFailure_iff_exists]
  simp only [fails_notFinite_iff]

theorem evaluate_number_of_isFinite {value : Binary64} (inputs : Inputs)
    (h : value.isFinite = true) : (number value).evaluate inputs = .ok value := by
  rw [evaluate]
  exact requireFinite_eq_ok_iff.mpr ⟨h, rfl⟩

theorem evaluate_greatest (inputs : Inputs) :
    (number (.finite false .greatest)).evaluate inputs = .ok (.finite false .greatest) :=
  evaluate_number_of_isFinite inputs rfl

/-- The square of the largest number, an infinity. -/
def greatestSquare : Expr :=
  .binary .multiply (.number (.finite false .greatest)) (.number (.finite false .greatest))

theorem leavesFinite_greatestSquare (inputs : Inputs) : greatestSquare.LeavesFinite inputs :=
  .binary (evaluate_greatest inputs) (evaluate_greatest inputs)
    (by rintro ⟨h, -⟩; cases h) (by decide +kernel)

end Expr

/-- Of finite numbers, the largest is one of them, whatever their order and number, and
a maximum of maxima is a maximum of all; the smallest is the opposite of the largest
opposite.  All functions stay among the finite numbers, so a formula leaves them exactly
where a number, an input or an operation does. -/
theorem max_tops_and_calls_stay_finite :
    (∀ values : List Binary64, values ≠ [] → (∀ value ∈ values, value.isFinite = true) →
      (∃ top, Function.max.apply values = .ok top ∧ Tops values top ∧
        ∀ others : List Binary64, (∀ value, value ∈ others ↔ value ∈ values) →
          ∃ other, Function.max.apply others = .ok other ∧ other.eq top = true) ∧
      (∀ others : List Binary64, others ≠ [] → (∀ value ∈ others, value.isFinite = true) →
        (do Function.max.apply [← Function.max.apply values, ← Function.max.apply others]) =
          Function.max.apply (values ++ others)) ∧
      Function.min.apply values = (Function.max.apply (values.map (-·))).map (-·)) ∧
    (∀ (function : Function) (values : List Binary64), function.Takes values.length →
      (∀ value ∈ values, value.isFinite = true) →
      ∃ result, function.apply values = .ok result ∧ result.isFinite = true) ∧
    ∀ (inputs : Inputs) (expr : Expr), expr.evaluate inputs = .error .notFinite ↔
      ∃ before node after, expr.postorder = before ++ node :: after ∧
        (∀ earlier ∈ before, earlier.HasValue inputs) ∧ node.LeavesFinite inputs := by
  have hnumbers : ∀ values : List Binary64, (∀ value ∈ values, value.isFinite = true) →
      ∀ value ∈ values, value.isNaN = false :=
    fun values hvalues value hvalue => Binary64.isNaN_of_isFinite (hvalues value hvalue)
  refine ⟨?_, ?_, fun inputs expr => Expr.evaluate_eq_notFinite_iff⟩
  · intro values hne hvalues
    refine ⟨?_, ?_, Function.apply_min_eq hne⟩
    · obtain ⟨top, hmax, htops⟩ := Function.exists_tops_apply_max hne (hnumbers values hvalues)
      refine ⟨top, hmax, htops, ?_⟩
      intro others hsame
      have hothersNe : others ≠ [] := List.ne_nil_of_mem ((hsame top).mpr htops.mem)
      have hothers : ∀ value ∈ others, value.isFinite = true :=
        fun value hvalue => hvalues value ((hsame value).mp hvalue)
      obtain ⟨other, hmax', htops'⟩ :=
        Function.exists_tops_apply_max hothersNe (hnumbers others hothers)
      exact ⟨other, hmax', htops.eq_of_mem_iff htops' hsame⟩
    · intro others hothersNe hothers
      exact Function.apply_max_append hne hothersNe (hnumbers values hvalues)
        (hnumbers others hothers)
  · intro function values htakes hvalues
    exact ⟨_, Function.apply_of_takes htakes, Function.isFinite_value htakes hvalues⟩

theorem max_tops_and_calls_stay_finite_zeros :
    (∃ top, Function.max.apply [-.zero, .zero] = .ok top ∧ Tops [-.zero, .zero] top ∧
        ∃ other, Function.max.apply [.zero, -.zero, .zero] = .ok other ∧ other.eq top = true) ∧
      (do Function.max.apply [← Function.max.apply [-.zero, .zero],
        ← Function.max.apply [.ofNat 3]]) = Function.max.apply [-.zero, .zero, .ofNat 3] ∧
      (∃ result, Function.ceil.apply [.finite false .greatest] = .ok result ∧
        result.isFinite = true) ∧
      (Expr.call .min [.number (.ofNat 1), .greatestSquare]).evaluate (fun _ => .zero) =
        .error .notFinite := by
  obtain ⟨hextremes, hfunctions, horigin⟩ := max_tops_and_calls_stay_finite
  have hzeros : ∀ value ∈ [-Binary64.zero, Binary64.zero], value.isFinite = true := by decide
  obtain ⟨⟨top, hmax, htops, hsame⟩, happend, -⟩ := hextremes _ (by decide) hzeros
  refine ⟨⟨top, hmax, htops, hsame _ (by simp [or_comm])⟩, ?_, ?_, ?_⟩
  · exact happend [.ofNat 3] (by decide) (by decide +kernel)
  · exact hfunctions .ceil [.finite false .greatest] rfl (by decide)
  · have hone := Expr.evaluate_number_of_isFinite (fun _ => .zero)
      (show (Binary64.ofNat 1).isFinite = true by decide +kernel)
    refine (horigin _ _).mpr
      ⟨[_, _, _], _, [_], rfl, ?_, Expr.leavesFinite_greatestSquare _⟩
    simp [Expr.HasValue, hone, Expr.evaluate_greatest]

end SolarTakeoff
