import SolarTakeoff.Formula.Evaluation
import SolarTakeoff.Proofs.Binary64.Order
import SolarTakeoff.Proofs.Formula.Grammar
import SolarTakeoff.Proofs.Sequences
import Mathlib.Tactic

/-!
# Where a formula fails

Evaluation passes through the nodes of a tree with operands before operations
and from left to right.  What a node can do wrong by itself, given the values
of its operands, is a relation that knows nothing of evaluation, `Expr.Fails`.
The error of a whole tree is then the one of the first node that does it.

The statement that is carried through the tree is about a run over any list of
nodes, `RunsOver`, so that the operands of a node and their nodes can be
handled alike: a run goes on after a run, and a node comes after its operands.
-/

namespace SolarTakeoff

/-! ## Operations and functions by themselves -/

theorem requireFinite_eq_error_iff {value : Binary64} {error : FormulaError} :
    requireFinite value = .error error ↔ value.isFinite = false ∧ error = .notFinite := by
  unfold requireFinite
  cases value.isFinite <;> simp [eq_comm]

theorem requireFinite_eq_ok_iff {value result : Binary64} :
    requireFinite value = .ok result ↔ value.isFinite = true ∧ result = value := by
  unfold requireFinite
  cases value.isFinite <;> simp [eq_comm]

/-- The number an operation comes to, zero divisors included. -/
def Operator.value : Operator → Binary64 → Binary64 → Binary64
  | .add, a, b => a + b
  | .subtract, a, b => a - b
  | .multiply, a, b => a * b
  | .divide, a, b => a / b

def Operator.DividesByZero (operator : Operator) (divisor : Binary64) : Prop :=
  operator = .divide ∧ divisor.IsZero

theorem Operator.apply_of_dividesByZero {operator : Operator} {a b : Binary64}
    (hzero : operator.DividesByZero b) : operator.apply a b = .error .divisionByZero := by
  obtain ⟨rfl, hzero⟩ := hzero
  simp [apply, Binary64.isZero_iff_eq_zero.mp hzero]

theorem Operator.apply_of_not_dividesByZero {operator : Operator} {a b : Binary64}
    (hzero : ¬ operator.DividesByZero b) : operator.apply a b = .ok (operator.value a b) := by
  cases operator with
  | add | subtract | multiply => rfl
  | divide =>
      have heq : ¬ b.eq .zero = true := by
        rw [← Binary64.isZero_iff_eq_zero]
        exact fun h => hzero ⟨rfl, h⟩
      simp [apply, value, heq]

def Function.value (function : Function) (values : List Binary64)
    (hvalues : 0 < values.length) : Binary64 :=
  match function with
  | .ceil => values[0].ceil
  | .floor => values[0].floor
  | .round => values[0].roundHalfUp
  | .max => values.foldl .max (.infinite true)
  | .min => values.foldl .min (.infinite false)

theorem Function.apply_of_takes {function : Function} {values : List Binary64}
    (htakes : function.Takes values.length) :
    function.apply values = .ok (function.value values htakes.pos) := by
  obtain ⟨first, rest, rfl⟩ := List.exists_cons_of_length_pos htakes.pos
  cases function with
  | max | min => rfl
  | ceil | floor | round =>
      obtain rfl : rest = [] := by simpa [Takes] using htakes
      rfl

theorem Function.apply_of_not_takes {function : Function} {values : List Binary64}
    (htakes : ¬ function.Takes values.length) :
    function.apply values = .error (.wrongArity function values.length) := by
  have hnone : function.value? values = none := by
    rw [← Function.accepts_eq_true_iff, ← Function.isSome_value?] at htakes
    simpa using htakes
  simp [apply, hnone]

/-! ## Nodes -/

mutual

/-- The nodes of a tree, operands before operations and from left to right. -/
def Expr.postorder : Expr → List Expr
  | .number value => [.number value]
  | .input input => [.input input]
  | .signed sign operand => operand.postorder ++ [.signed sign operand]
  | .binary operator left right =>
    left.postorder ++ right.postorder ++ [.binary operator left right]
  | .call function arguments => postorderAll arguments ++ [.call function arguments]

def postorderAll : List Expr → List Expr
  | [] => []
  | expr :: rest => expr.postorder ++ postorderAll rest

end

namespace Expr

def children : Expr → List Expr
  | .number _ | .input _ => []
  | .signed _ operand => [operand]
  | .binary _ left right => [left, right]
  | .call _ arguments => arguments

/-- The number a node comes to where its operands have these values.  It need not
be finite. -/
inductive Combines (inputs : Inputs) : Expr → List Binary64 → Binary64 → Prop where
  | number {value : Binary64} : Combines inputs (.number value) [] value
  | input {input : Input} : Combines inputs (.input input) [] (inputs input)
  | signed {sign : Sign} {operand : Expr} {value : Binary64} :
      Combines inputs (.signed sign operand) [value] (sign.apply value)
  | binary {operator : Operator} {left right : Expr} {a b : Binary64} :
      ¬ operator.DividesByZero b →
      Combines inputs (.binary operator left right) [a, b] (operator.value a b)
  | call {function : Function} {arguments : List Expr} {values : List Binary64}
      (htakes : function.Takes values.length) :
      Combines inputs (.call function arguments) values (function.value values htakes.pos)

/-- What is wrong with a node itself where its operands have these values. -/
inductive Fails (inputs : Inputs) : Expr → List Binary64 → FormulaError → Prop where
  | notFinite {expr : Expr} {values : List Binary64} {value : Binary64} :
      expr.Combines inputs values value → value.isFinite = false →
      Fails inputs expr values .notFinite
  | zeroDivisor {operator : Operator} {left right : Expr} {a b : Binary64} :
      operator.DividesByZero b →
      Fails inputs (.binary operator left right) [a, b] .divisionByZero
  | arity {function : Function} {arguments : List Expr} {values : List Binary64} :
      ¬ function.Takes values.length →
      Fails inputs (.call function arguments) values (.wrongArity function values.length)

variable {inputs : Inputs} {expr node : Expr} {values : List Binary64} {value : Binary64}
  {error : FormulaError}

theorem postorderAll_eq_flatMap (exprs : List Expr) :
    postorderAll exprs = exprs.flatMap postorder := by
  induction exprs with
  | nil => rfl
  | cons expr rest ih => simp [postorderAll, ih]

theorem postorder_eq (expr : Expr) :
    expr.postorder = expr.children.flatMap postorder ++ [expr] := by
  cases expr <;> simp [postorder, children, postorderAll_eq_flatMap]

theorem induction_children {property : Expr → Prop}
    (step : ∀ expr : Expr, (∀ child ∈ expr.children, property child) → property expr)
    (expr : Expr) : property expr := by
  refine @Expr.rec property (fun exprs => ∀ expr ∈ exprs, property expr)
    ?_ ?_ ?_ ?_ ?_ ?_ ?_ expr
  case refine_1 | refine_2 => exact fun _ => step _ (by simp [children])
  case refine_3 => exact fun _ operand hoperand => step _ (by simpa [children] using hoperand)
  case refine_4 =>
    exact fun _ left right hleft hright => step _ (by simpa [children] using ⟨hleft, hright⟩)
  case refine_5 => exact fun _ arguments harguments => step _ harguments
  case refine_6 => simp
  case refine_7 => exact fun expr rest hexpr hrest => List.forall_mem_cons.mpr ⟨hexpr, hrest⟩

/-! ## One node -/

@[simp] theorem evaluateAll_nil : evaluateAll inputs [] = .ok [] := by
  rw [evaluateAll]

theorem evaluateAll_cons_eq_ok_iff {exprs : List Expr} {values : List Binary64} :
    evaluateAll inputs (expr :: exprs) = .ok values ↔
      ∃ value, expr.evaluate inputs = .ok value ∧
        ∃ others, evaluateAll inputs exprs = .ok others ∧ value :: others = values := by
  rw [evaluateAll]
  simp only [bind_eq_ok_iff, pure_eq_ok_iff]

theorem evaluateAll_cons_eq_error_iff {exprs : List Expr} :
    evaluateAll inputs (expr :: exprs) = .error error ↔
      expr.evaluate inputs = .error error ∨
        (∃ value, expr.evaluate inputs = .ok value) ∧
          evaluateAll inputs exprs = .error error := by
  rw [evaluateAll]
  simp only [bind_eq_error_iff, pure_ne_error, and_false, exists_false, or_false,
    exists_and_right]

theorem length_evaluateAll {exprs : List Expr} {values : List Binary64}
    (h : evaluateAll inputs exprs = .ok values) : values.length = exprs.length := by
  induction exprs generalizing values with
  | nil =>
      obtain rfl : [] = values := by simpa using h
      rfl
  | cons expr exprs ih =>
      obtain ⟨value, -, others, hothers, rfl⟩ := evaluateAll_cons_eq_ok_iff.mp h
      simp [ih hothers]

theorem evaluate_eq_error_of_children (h : evaluateAll inputs expr.children = .error error) :
    expr.evaluate inputs = .error error := by
  cases expr with
  | number value => simp [children] at h
  | input input => simp [children] at h
  | signed sign operand =>
      have hoperand : operand.evaluate inputs = .error error := by
        simpa [children, evaluateAll_cons_eq_error_iff] using h
      rw [evaluate, hoperand]
      rfl
  | binary operator left right =>
      rw [evaluate]
      simp only [children, evaluateAll_cons_eq_error_iff, evaluateAll_nil] at h
      rcases h with hleft | ⟨⟨a, ha⟩, hright | ⟨-, hnil⟩⟩
      · rw [hleft]
        rfl
      · rw [ha, hright]
        rfl
      · cases hnil
  | call function arguments =>
      have harguments : evaluateAll inputs arguments = .error error := h
      rw [evaluate, harguments]
      rfl

theorem evaluate_binary_of_children {operator : Operator} {left right : Expr} {a b : Binary64}
    (hvalues : evaluateAll inputs (binary operator left right).children = .ok [a, b]) :
    (binary operator left right).evaluate inputs = (operator.apply a b >>= requireFinite) := by
  obtain ⟨hleft, hright⟩ : left.evaluate inputs = .ok a ∧ right.evaluate inputs = .ok b := by
    simpa [children, evaluateAll_cons_eq_ok_iff] using hvalues
  rw [evaluate, hleft, hright]
  rfl

theorem evaluate_call_of_children {function : Function} {arguments : List Expr}
    (hvalues : evaluateAll inputs (call function arguments).children = .ok values) :
    (call function arguments).evaluate inputs = (function.apply values >>= requireFinite) := by
  have harguments : evaluateAll inputs arguments = .ok values := hvalues
  rw [evaluate, harguments]
  rfl

theorem evaluate_of_combines (hvalues : evaluateAll inputs expr.children = .ok values)
    (hcombines : expr.Combines inputs values value) :
    expr.evaluate inputs = requireFinite value := by
  cases hcombines with
  | number | input => rw [evaluate]
  | @signed sign operand value =>
      have hoperand : operand.evaluate inputs = .ok value := by
        simpa [children, evaluateAll_cons_eq_ok_iff] using hvalues
      rw [evaluate, hoperand]
      rfl
  | binary hzero =>
      rw [evaluate_binary_of_children hvalues, Operator.apply_of_not_dividesByZero hzero]
      rfl
  | call htakes =>
      rw [evaluate_call_of_children hvalues, Function.apply_of_takes htakes]
      rfl

theorem evaluate_of_fails (hvalues : evaluateAll inputs expr.children = .ok values)
    (hfails : expr.Fails inputs values error) : expr.evaluate inputs = .error error := by
  cases hfails with
  | notFinite hcombines hvalue =>
      rw [evaluate_of_combines hvalues hcombines]
      exact requireFinite_eq_error_iff.mpr ⟨hvalue, rfl⟩
  | zeroDivisor hzero =>
      rw [evaluate_binary_of_children hvalues, Operator.apply_of_dividesByZero hzero]
      rfl
  | arity htakes =>
      rw [evaluate_call_of_children hvalues, Function.apply_of_not_takes htakes]
      rfl

theorem combines_or_fails (hvalues : evaluateAll inputs expr.children = .ok values) :
    (∃ value, expr.Combines inputs values value) ∨ ∃ error, expr.Fails inputs values error := by
  cases expr with
  | number value | input name =>
      obtain rfl : [] = values := by simpa [children] using hvalues
      exact .inl ⟨_, by constructor⟩
  | signed sign operand =>
      obtain ⟨value, -, rfl⟩ : ∃ value, operand.evaluate inputs = .ok value ∧
          [value] = values := by
        simpa [children, evaluateAll_cons_eq_ok_iff] using hvalues
      exact .inl ⟨_, .signed⟩
  | binary operator left right =>
      obtain ⟨a, -, b, -, rfl⟩ : ∃ a, left.evaluate inputs = .ok a ∧
          ∃ b, right.evaluate inputs = .ok b ∧ [a, b] = values := by
        simpa [children, evaluateAll_cons_eq_ok_iff] using hvalues
      by_cases hzero : operator.DividesByZero b
      · exact .inr ⟨_, .zeroDivisor hzero⟩
      · exact .inl ⟨_, .binary hzero⟩
  | call function arguments =>
      by_cases htakes : function.Takes values.length
      · exact .inl ⟨_, .call htakes⟩
      · exact .inr ⟨_, .arity htakes⟩

/-- Once its operands have values, the evaluation of a node fails just as the
node itself does. -/
theorem evaluate_eq_error_iff_fails (hvalues : evaluateAll inputs expr.children = .ok values) :
    expr.evaluate inputs = .error error ↔ expr.Fails inputs values error := by
  constructor
  · intro herror
    rcases combines_or_fails hvalues with ⟨value, hcombines⟩ | ⟨own, hfails⟩
    · rw [evaluate_of_combines hvalues hcombines, requireFinite_eq_error_iff] at herror
      obtain ⟨hvalue, rfl⟩ := herror
      exact .notFinite hcombines hvalue
    · rw [evaluate_of_fails hvalues hfails] at herror
      cases herror
      exact hfails
  · exact evaluate_of_fails hvalues

theorem isFinite_of_evaluate_eq_ok (h : expr.evaluate inputs = .ok value) :
    value.isFinite = true := by
  cases hoperands : evaluateAll inputs expr.children with
  | error error =>
      rw [evaluate_eq_error_of_children hoperands] at h
      cases h
  | ok values =>
      rcases combines_or_fails hoperands with ⟨own, hcombines⟩ | ⟨error, hfails⟩
      · rw [evaluate_of_combines hoperands hcombines, requireFinite_eq_ok_iff] at h
        exact h.2 ▸ h.1
      · rw [evaluate_of_fails hoperands hfails] at h
        cases h

section Calls

variable {function : Function} {arguments : List Expr}

theorem evaluate_call_of_takes (hvalues : evaluateAll inputs arguments = .ok values)
    (htakes : function.Takes arguments.length) :
    ∃ hpos : 0 < values.length,
      (call function arguments).evaluate inputs =
        requireFinite (function.value values hpos) := by
  rw [← length_evaluateAll hvalues] at htakes
  exact ⟨htakes.pos, evaluate_of_combines hvalues (.call htakes)⟩

theorem evaluate_call_of_not_takes (hvalues : evaluateAll inputs arguments = .ok values)
    (htakes : ¬ function.Takes arguments.length) :
    (call function arguments).evaluate inputs =
      .error (.wrongArity function arguments.length) := by
  rw [← length_evaluateAll hvalues] at htakes ⊢
  exact evaluate_of_fails hvalues (.arity htakes)

end Calls

/-! ## Nodes one after another -/

def HasValue (inputs : Inputs) (expr : Expr) : Prop :=
  ∃ value, expr.evaluate inputs = .ok value

/-- The first node of a list that has no value has it from no operand, but fails
itself with this error. -/
inductive FirstFailure (inputs : Inputs) : List Expr → FormulaError → Prop where
  | here {node : Expr} {others : List Expr} {values : List Binary64} {error : FormulaError} :
      evaluateAll inputs node.children = .ok values → node.Fails inputs values error →
      FirstFailure inputs (node :: others) error
  | later {node : Expr} {others : List Expr} {error : FormulaError} :
      node.HasValue inputs → FirstFailure inputs others error →
      FirstFailure inputs (node :: others) error

variable {α : Type} {before after : List Expr}

theorem not_firstFailure_nil : ¬ FirstFailure inputs [] error := by
  rintro ⟨⟩

theorem firstFailure_singleton_iff :
    FirstFailure inputs [node] error ↔
      ∃ values, evaluateAll inputs node.children = .ok values ∧
        node.Fails inputs values error := by
  constructor
  · intro h
    cases h with
    | here hvalues hfails => exact ⟨_, hvalues, hfails⟩
    | later _ hnil => exact (not_firstFailure_nil hnil).elim
  · rintro ⟨values, hvalues, hfails⟩
    exact .here hvalues hfails

theorem firstFailure_append_iff :
    FirstFailure inputs (before ++ after) error ↔
      FirstFailure inputs before error ∨
        (∀ node ∈ before, node.HasValue inputs) ∧ FirstFailure inputs after error := by
  induction before with
  | nil => simp [not_firstFailure_nil]
  | cons node before ih =>
      rw [List.cons_append]
      constructor
      · intro h
        cases h with
        | here hvalues hfails => exact .inl (.here hvalues hfails)
        | later hnode hlater =>
            rcases ih.mp hlater with hbefore | ⟨hall, hafter⟩
            · exact .inl (.later hnode hbefore)
            · exact .inr ⟨List.forall_mem_cons.mpr ⟨hnode, hall⟩, hafter⟩
      · rintro (h | ⟨hall, hafter⟩)
        · cases h with
          | here hvalues hfails => exact .here hvalues hfails
          | later hnode hlater => exact .later hnode (ih.mpr (.inl hlater))
        · obtain ⟨hnode, hall⟩ := List.forall_mem_cons.mp hall
          exact .later hnode (ih.mpr (.inr ⟨hall, hafter⟩))

/-- The result is that of passing through the nodes in order: there is one
exactly if each of them has a value, and otherwise the first failure counts. -/
structure RunsOver (inputs : Inputs) (nodes : List Expr)
    (result : Except FormulaError α) : Prop where
  ok_iff : (∃ value, result = .ok value) ↔ ∀ node ∈ nodes, node.HasValue inputs
  error_iff : ∀ error, result = .error error ↔ FirstFailure inputs nodes error

theorem runsOver_nil : RunsOver inputs [] (evaluateAll inputs []) where
  ok_iff := by simp
  error_iff := by simp [not_firstFailure_nil]

theorem RunsOver.cons {exprs : List Expr}
    (hexpr : RunsOver inputs before (expr.evaluate inputs))
    (hexprs : RunsOver inputs after (evaluateAll inputs exprs)) :
    RunsOver inputs (before ++ after) (evaluateAll inputs (expr :: exprs)) where
  ok_iff := by
    rw [List.forall_mem_append, ← hexpr.ok_iff, ← hexprs.ok_iff]
    simp [evaluateAll_cons_eq_ok_iff]
  error_iff := by
    intro error
    rw [firstFailure_append_iff, ← hexpr.error_iff, ← hexpr.ok_iff, ← hexprs.error_iff,
      evaluateAll_cons_eq_error_iff]

theorem RunsOver.root (hchildren : RunsOver inputs before (evaluateAll inputs expr.children)) :
    RunsOver inputs (before ++ [expr]) (expr.evaluate inputs) where
  ok_iff := by
    rw [List.forall_mem_append, List.forall_mem_singleton, ← hchildren.ok_iff]
    constructor
    · intro hvalue
      refine ⟨?_, hvalue⟩
      cases hresult : evaluateAll inputs expr.children with
      | ok values => exact ⟨values, rfl⟩
      | error error =>
          obtain ⟨value, hvalue⟩ := hvalue
          rw [evaluate_eq_error_of_children hresult] at hvalue
          cases hvalue
    · exact fun h => h.2
  error_iff := by
    intro error
    rw [firstFailure_append_iff, ← hchildren.error_iff, ← hchildren.ok_iff,
      firstFailure_singleton_iff]
    cases hresult : evaluateAll inputs expr.children with
    | ok values => simp [evaluate_eq_error_iff_fails hresult]
    | error first => simp [evaluate_eq_error_of_children hresult]

theorem runsOver_flatMap {exprs : List Expr}
    (h : ∀ expr ∈ exprs, RunsOver inputs expr.postorder (expr.evaluate inputs)) :
    RunsOver inputs (exprs.flatMap postorder) (evaluateAll inputs exprs) := by
  induction exprs with
  | nil => exact runsOver_nil
  | cons expr exprs ih =>
      obtain ⟨hexpr, hexprs⟩ := List.forall_mem_cons.mp h
      rw [List.flatMap_cons]
      exact hexpr.cons (ih hexprs)

theorem runsOver_postorder (inputs : Inputs) (expr : Expr) :
    RunsOver inputs expr.postorder (expr.evaluate inputs) := by
  induction expr using induction_children with
  | step expr ih =>
      rw [postorder_eq]
      exact (runsOver_flatMap ih).root

theorem takes_of_hasValue {function : Function} {arguments : List Expr}
    (h : (call function arguments).HasValue inputs) : function.Takes arguments.length := by
  obtain ⟨value, hvalue⟩ := h
  by_contra htakes
  cases hvalues : evaluateAll inputs arguments with
  | ok values =>
      rw [evaluate_call_of_not_takes hvalues htakes] at hvalue
      cases hvalue
  | error error =>
      rw [evaluate_eq_error_of_children hvalues] at hvalue
      cases hvalue

/-- A tree has a value only if all of its nodes have finite values by
themselves and all of its calls the right number of arguments.  It fails
wherever a node fails, and with the error of the first node that is itself to
blame.  No function looks for an argument that it was not given. -/
theorem evaluate_ok_or_firstFailure (inputs : Inputs) (expr : Expr) :
    (∀ value, expr.evaluate inputs = .ok value →
      value.isFinite = true ∧
        ∀ node ∈ expr.postorder,
          (∃ own, node.evaluate inputs = .ok own ∧ own.isFinite = true) ∧
            ∀ function arguments, node = .call function arguments →
              function.Takes arguments.length) ∧
      (∀ node ∈ expr.postorder, ∀ error, node.evaluate inputs = .error error →
        ∃ first, expr.evaluate inputs = .error first) ∧
      (∀ error, expr.evaluate inputs = .error error ↔
        FirstFailure inputs expr.postorder error) ∧
      ∀ function arguments values, .call function arguments ∈ expr.postorder →
        evaluateAll inputs arguments = .ok values →
          (function.Takes arguments.length ∧ ∃ hpos : 0 < values.length,
              (call function arguments).evaluate inputs =
                requireFinite (function.value values hpos)) ∨
            (¬ function.Takes arguments.length ∧
              (call function arguments).evaluate inputs =
                .error (.wrongArity function arguments.length)) := by
  have hrun := runsOver_postorder inputs expr
  refine ⟨?_, ?_, hrun.error_iff, ?_⟩
  · intro value hvalue
    refine ⟨isFinite_of_evaluate_eq_ok hvalue, ?_⟩
    intro node hnode
    have hown : node.HasValue inputs := hrun.ok_iff.mp ⟨value, hvalue⟩ node hnode
    constructor
    · obtain ⟨own, hown⟩ := hown
      exact ⟨own, hown, isFinite_of_evaluate_eq_ok hown⟩
    · rintro function arguments rfl
      exact takes_of_hasValue hown
  · intro node hnode error herror
    cases hresult : expr.evaluate inputs with
    | error first => exact ⟨first, rfl⟩
    | ok value =>
        obtain ⟨own, hown⟩ := hrun.ok_iff.mp ⟨value, hresult⟩ node hnode
        rw [herror] at hown
        cases hown
  · intro function arguments values _ hvalues
    by_cases htakes : function.Takes arguments.length
    · exact .inl ⟨htakes, evaluate_call_of_takes hvalues htakes⟩
    · exact .inr ⟨htakes, evaluate_call_of_not_takes hvalues htakes⟩

/-- `MIN(1, 1 / -0) - CEIL()`: the minimum would swallow the quotient, and the
call that comes later has no argument. -/
def swallowedQuotient : Expr :=
  .binary .subtract
    (.call .min [.number (.ofNat 1),
      .binary .divide (.number (.ofNat 1)) (.signed .minus (.number .zero))])
    (.call .ceil [])

theorem evaluate_swallowedQuotient :
    FirstFailure (fun _ => .zero) swallowedQuotient.postorder .divisionByZero ∧
      swallowedQuotient.evaluate (fun _ => .zero) = .error .divisionByZero ∧
      (number (.ofNat 1)).evaluate (fun _ => .zero) = .ok (.ofNat 1) ∧
      (Binary64.ofNat 1).isFinite = true ∧
      (call .ceil []).evaluate (fun _ => .zero) = .error (.wrongArity .ceil 0) := by
  have hone : (number (.ofNat 1)).evaluate (fun _ => .zero) = .ok (.ofNat 1) := by
    rw [evaluate, requireFinite_eq_ok_iff]
    exact ⟨by decide +kernel, rfl⟩
  have hzero : (number .zero).evaluate (fun _ => .zero) = .ok .zero := by
    rw [evaluate]
    rfl
  have hnegative : (signed .minus (number .zero)).evaluate (fun _ => .zero) =
      .ok (.neg .zero) := by
    rw [evaluate, hzero]
    rfl
  have hfirst : FirstFailure (fun _ => .zero) swallowedQuotient.postorder .divisionByZero := by
    refine .later ⟨_, hone⟩ (.later ⟨_, hone⟩ (.later ⟨_, hzero⟩ (.later ⟨_, hnegative⟩ ?_)))
    have hoperands : evaluateAll (fun _ => .zero)
        [number (.ofNat 1), signed .minus (number .zero)] = .ok [.ofNat 1, .neg .zero] := by
      simp [evaluateAll_cons_eq_ok_iff, hone, hnegative]
    exact .here hoperands (.zeroDivisor ⟨rfl, _, _, rfl, rfl⟩)
  obtain ⟨-, -, herror, hcalls⟩ := evaluate_ok_or_firstFailure (fun _ => .zero) swallowedQuotient
  obtain ⟨hvalue, -⟩ := evaluate_ok_or_firstFailure (fun _ => .zero) (number (.ofNat 1))
  refine ⟨hfirst, (herror _).mpr hfirst, hone, (hvalue _ hone).1, ?_⟩
  have hceil : call .ceil [] ∈ swallowedQuotient.postorder := by
    simp [swallowedQuotient, postorder, postorderAll]
  rcases hcalls _ _ _ hceil evaluateAll_nil with ⟨htakes, -⟩ | ⟨-, hevaluate⟩
  · cases htakes
  · exact hevaluate

end Expr

end SolarTakeoff
