import SolarTakeoff.Quantity
import SolarTakeoff.Proofs.Binary64.Rounding
import Mathlib.Tactic

/-!
# Bounds of a resolved quantity

What each step of a resolution does to the quantity, without the account of
it, and what all of them together leave true for arbitrary numbers: bounds may
be inverted, infinite or not numbers at all.  A comparison with what is not a
number fails, so such a bound neither moves a quantity nor restrains it.
-/

namespace SolarTakeoff

namespace Resolution

variable {resolution : Resolution}

theorem quantity_round (roundUp : Bool) :
    (resolution.round roundUp).quantity =
      if roundUp && Binary64.zero.lt resolution.quantity then resolution.quantity.ceil
      else resolution.quantity.roundHalfUp :=
  rfl

theorem quantity_raise (minimum : Binary64) :
    (resolution.raise minimum).quantity =
      if resolution.quantity.lt minimum then minimum else resolution.quantity := by
  unfold raise
  split <;> rfl

@[simp] theorem cut_none : resolution.cut none = resolution :=
  rfl

theorem quantity_cut_some (maximum : Binary64) :
    (resolution.cut (some maximum)).quantity =
      if maximum.lt resolution.quantity then maximum else resolution.quantity := by
  unfold cut
  split
  · contradiction
  · next heq =>
      cases heq
      split <;> rfl

theorem isWhole_quantity_round {roundUp : Bool}
    (h : (resolution.round roundUp).quantity.isFinite = true) :
    (resolution.round roundUp).quantity.isWhole = true := by
  rw [quantity_round] at h ⊢
  split at h
  next hup =>
    rw [if_pos hup]
    exact Binary64.isWhole_ceil_of_isFinite h
  next hup =>
    rw [if_neg hup]
    exact Binary64.isWhole_roundHalfUp_of_isFinite h

theorem quantity_raise_bound (minimum : Binary64) :
    (resolution.raise minimum).quantity.lt minimum = false ∧
      ((resolution.raise minimum).quantity = resolution.quantity ∨
        (resolution.raise minimum).quantity = minimum) := by
  rw [quantity_raise]
  cases hlt : resolution.quantity.lt minimum with
  | true => simp
  | false => simp [hlt]

theorem quantity_cut_bound (bound : Option Binary64) :
    (∀ maximum, bound = some maximum →
        maximum.lt (resolution.cut bound).quantity = false) ∧
      ((resolution.cut bound).quantity = resolution.quantity ∨
        bound = some (resolution.cut bound).quantity) := by
  cases bound with
  | none => simp
  | some maximum =>
      rw [quantity_cut_some]
      cases hlt : maximum.lt resolution.quantity with
      | true => simp
      | false => simp [hlt]

end Resolution

namespace Rule

variable {rule : Rule} {job : Job}

theorem resolve_of_raw {value : Binary64} {details : String}
    (h : rule.derive job = .raw value details) :
    rule.resolve job =
      (({ quantity := value, details : Resolution }.round rule.roundUp).raise
        rule.minimum).cut rule.maximum := by
  simp [resolve, h]

theorem quantity_resolve_of_stopped {details : String} {warning : Option Event}
    (h : rule.derive job = .stopped details warning) :
    (rule.resolve job).quantity = .zero := by
  simp [resolve, h]

/-- What rounding, raising and cutting leave true of a quantity: it is not
above the maximum; it is below the minimum only as a maximum that is itself
below the minimum; and it is whole unless it is one of the bounds. -/
structure Bounds (rule : Rule) (quantity : Binary64) : Prop where
  not_above : ∀ maximum, rule.maximum = some maximum → maximum.lt quantity = false
  not_below : quantity.lt rule.minimum = false ∨
    ∃ maximum, rule.maximum = some maximum ∧ maximum.lt rule.minimum = true ∧
      quantity = maximum
  whole : quantity.isWhole = true ∨ quantity = rule.minimum ∨ rule.maximum = some quantity

theorem bounds_quantity_resolve
    (hfinite : (rule.resolve job).quantity.isFinite = true)
    (hpositive : Binary64.zero.lt (rule.resolve job).quantity = true) :
    rule.Bounds (rule.resolve job).quantity := by
  cases hderive : rule.derive job with
  | stopped details warning => simp [quantity_resolve_of_stopped hderive] at hpositive
  | raw value details =>
      rw [resolve_of_raw hderive] at hfinite ⊢
      set rounded := ({ quantity := value, details } : Resolution).round rule.roundUp
      set raised := rounded.raise rule.minimum
      obtain ⟨hminimum, hraised⟩ := rounded.quantity_raise_bound rule.minimum
      obtain ⟨hmaximum, hcut⟩ := raised.quantity_cut_bound rule.maximum
      refine ⟨hmaximum, ?_, ?_⟩
      · rcases hcut with hsame | hcut
        · exact .inl (hsame ▸ hminimum)
        · cases hbelow : (raised.cut rule.maximum).quantity.lt rule.minimum with
          | false => exact .inl rfl
          | true => exact .inr ⟨_, hcut, hbelow, rfl⟩
      · rcases hcut with hsame | hcut
        · rcases hraised with hrounded | hraised
          · have hkept := hsame.trans hrounded
            rw [hkept] at hfinite ⊢
            exact .inl (Resolution.isWhole_quantity_round hfinite)
          · exact .inr (.inl (hsame.trans hraised))
        · exact .inr (.inr hcut)

end Rule

end SolarTakeoff
