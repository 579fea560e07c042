import Mathlib.Tactic

/-!
# Results in sequence

A sequence of steps of which each may fail succeeds if all of them do, and fails
at the first one that does not.
-/

namespace SolarTakeoff

variable {ε α β : Type} {first : Except ε α} {next : α → Except ε β}

theorem bind_eq_ok_iff {result : β} :
    (first >>= next) = .ok result ↔ ∃ value, first = .ok value ∧ next value = .ok result := by
  cases first <;> simp [bind, Except.bind]

theorem bind_eq_error_iff {error : ε} :
    (first >>= next) = .error error ↔
      first = .error error ∨ ∃ value, first = .ok value ∧ next value = .error error := by
  cases first <;> simp [bind, Except.bind]

@[simp] theorem pure_eq_ok_iff {value result : α} :
    (pure value : Except ε α) = .ok result ↔ value = result := by
  simp [pure, Except.pure]

@[simp] theorem pure_ne_error {value : α} {error : ε} :
    (pure value : Except ε α) ≠ .error error := by
  simp [pure, Except.pure]

theorem check_bind_eq_ok_iff {check : Except ε Unit} {next : Unit → Except ε β} {result : β} :
    (check >>= next) = .ok result ↔ check = .ok () ∧ next () = .ok result := by
  rw [bind_eq_ok_iff]
  exact ⟨fun ⟨(), h⟩ => h, fun h => ⟨(), h⟩⟩

theorem refuse_eq_ok_iff {condition : Prop} [Decidable condition] {error : ε} :
    (if condition then throw error else pure () : Except ε Unit) = .ok () ↔ ¬ condition := by
  by_cases h : condition
  · simp [h, throw, throwThe, MonadExceptOf.throw]
  · simp [h]

end SolarTakeoff
