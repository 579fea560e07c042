import SolarTakeoff.Proofs.Quantity.Bounds
import Mathlib.Tactic

/-!
# The quantity that a raw value settles at

Rounding, raising and cutting as functions on numbers alone.  A resolution goes
through the same three steps with an account of them, so its quantity depends
on the raw value and on three fields of the rule, and on nothing else.
-/

namespace SolarTakeoff

namespace Binary64

def rounded (x : Binary64) (roundUp : Bool) : Binary64 :=
  if roundUp && zero.lt x then x.ceil else x.roundHalfUp

def raised (x minimum : Binary64) : Binary64 :=
  if x.lt minimum then minimum else x

def cut (x : Binary64) (maximum : Option Binary64) : Binary64 :=
  match maximum with
  | none => x
  | some maximum => if maximum.lt x then maximum else x

variable {x minimum : Binary64} {maximum : Option Binary64}

theorem isNaN_rounded (h : x.isNaN = false) (roundUp : Bool) :
    (x.rounded roundUp).isNaN = false := by
  unfold rounded
  split
  · exact isNaN_ceil h
  · exact isNaN_roundHalfUp h

theorem le_raised (hx : x.isNaN = false) (hminimum : minimum.isNaN = false) :
    minimum.le (x.raised minimum) = true := by
  unfold raised
  cases hlt : x.lt minimum with
  | true => simpa using le_refl_of_isNaN hminimum
  | false => simpa using le_of_lt_eq_false hx hminimum hlt

/-- Cutting goes no lower than a bound that lies below the maximum as well. -/
theorem le_cut (hx : minimum.le x = true)
    (hmaximum : ∀ upper, maximum = some upper → minimum.le upper = true) :
    minimum.le (x.cut maximum) = true := by
  unfold cut
  cases maximum with
  | none => exact hx
  | some upper =>
      dsimp only
      split
      · exact hmaximum upper rfl
      · exact hx

theorem cut_le {upper : Binary64} (hx : x.isNaN = false) (hupper : upper.isNaN = false) :
    (x.cut (some upper)).le upper = true := by
  unfold cut
  cases hlt : upper.lt x with
  | true => simpa [hlt] using le_refl_of_isNaN hupper
  | false => simpa [hlt] using le_of_lt_eq_false hupper hx hlt

end Binary64

namespace Rule

variable {rule other : Rule} {job otherJob : Job} {value : Binary64}

def settled (rule : Rule) (value : Binary64) : Binary64 :=
  ((value.rounded rule.roundUp).raised rule.minimum).cut rule.maximum

theorem quantity_resolve_of_raw {details : String}
    (h : rule.derive job = .raw value details) :
    (rule.resolve job).quantity = rule.settled value := by
  rw [resolve_of_raw h]
  unfold settled
  cases rule.maximum with
  | none =>
      rw [Resolution.cut_none, Resolution.quantity_raise]
      rfl
  | some maximum =>
      rw [Resolution.quantity_cut_some, Resolution.quantity_raise]
      rfl

theorem settled_congr (hroundUp : other.roundUp = rule.roundUp)
    (hminimum : other.minimum = rule.minimum) (hmaximum : other.maximum = rule.maximum) :
    other.settled value = rule.settled value := by
  unfold settled
  rw [hroundUp, hminimum, hmaximum]

/-- A value that is a number settles between bounds that are in order. -/
theorem minimum_le_settled (hvalue : value.isNaN = false)
    (hminimum : rule.minimum.isNaN = false)
    (hordered : ∀ maximum, rule.maximum = some maximum → rule.minimum.le maximum = true) :
    rule.minimum.le (rule.settled value) = true :=
  Binary64.le_cut (Binary64.le_raised (Binary64.isNaN_rounded hvalue _) hminimum) hordered

theorem settled_le_maximum {maximum : Binary64} (hvalue : value.isNaN = false)
    (hminimum : rule.minimum.isNaN = false) (hmaximum : rule.maximum = some maximum)
    (hnumber : maximum.isNaN = false) : (rule.settled value).le maximum = true := by
  have hraised := Binary64.le_raised (Binary64.isNaN_rounded hvalue rule.roundUp) hminimum
  unfold settled
  rw [hmaximum]
  exact Binary64.cut_le (Binary64.isNaN_right_of_le hraised) hnumber

end Rule

end SolarTakeoff
