import SolarTakeoff.Proofs.Binary64.Halves
import Mathlib.Tactic

/-!
# The ends of the finite numbers

The largest magnitude has fifty-three bits, all of them set.  Every finite number lies
between it and its opposite, so an operation that keeps the order of numbers cannot
leave the finite ones unless it does so at one of these ends.  Rounding to whole
numbers keeps the order, and there are no fractions left so far out.
-/

namespace SolarTakeoff

attribute [local irreducible] oneUnits unitsLimit

theorem unitsLimit_eq_mul : unitsLimit = 2 ^ 53 * Nat.pow 2 2045 := by
  have hsum : 2098 = 53 + 2045 := rfl
  unfold unitsLimit
  generalize 2098 = limit, 2045 = shift at hsum ⊢
  rw [hsum, Nat.pow_eq, Nat.pow_eq, Nat.pow_add]

namespace Magnitude

def greatest : Magnitude where
  units := (2 ^ 53 - 1) * Nat.pow 2 2045
  bounded := by
    rw [unitsLimit_eq_mul]
    exact Nat.mul_lt_mul_of_pos_right (by decide) (Nat.two_pow_pos _)
  aligned := by
    apply ulp_mul_ulp_dvd
    decide

/-- In the last binade the step is the one of the largest magnitude. -/
theorem units_le_greatest (magnitude : Magnitude) : magnitude.units ≤ greatest.units := by
  have hbounded := magnitude.bounded
  rw [unitsLimit_eq_mul] at hbounded
  rw [greatest]
  dsimp only
  generalize 2045 = shift at hbounded ⊢
  rcases Nat.lt_or_ge magnitude.units (2 ^ 52 * 2 ^ shift) with hsmall | hlarge
  · exact hsmall.le.trans (Nat.mul_le_mul_right _ (by decide))
  · obtain ⟨count, hcount⟩ := (two_pow_dvd_ulp hlarge).trans magnitude.aligned
    rw [hcount, Nat.mul_comm] at hbounded ⊢
    have hbits : count < 2 ^ 53 := Nat.lt_of_mul_lt_mul_right hbounded
    exact Nat.mul_le_mul_right _ (by omega)

end Magnitude

namespace Binary64

variable {x : Binary64}

theorem greatest_bounds (hx : x.isFinite = true) :
    (finite true .greatest).le x = true ∧ x.le (finite false .greatest) = true := by
  obtain ⟨negative, magnitude, rfl⟩ := isFinite_eq_true_iff.mp hx
  have hunits := magnitude.units_le_greatest
  have hlow : -(Magnitude.greatest.units : ℤ) ≤ signedUnits negative magnitude := by
    unfold signedUnits
    split <;> omega
  have hhigh : signedUnits negative magnitude ≤ Magnitude.greatest.units := by
    unfold signedUnits
    split <;> omega
  exact ⟨le_eq_true_iff.mpr ⟨_, _, rfl, rfl, hlow⟩, le_eq_true_iff.mpr ⟨_, _, rfl, rfl, hhigh⟩⟩

/-- What keeps the order stays among the finite numbers if it does so at their ends. -/
theorem KeepsOrder.isFinite_of_ends {f : Binary64 → Binary64} (h : KeepsOrder f)
    (hends : ∀ negative, (f (finite negative .greatest)).isFinite = true)
    (hx : x.isFinite = true) : (f x).isFinite = true := by
  obtain ⟨hleast, hmost⟩ := greatest_bounds hx
  have hlower := hends true
  have hupper := hends false
  rcases isFinite_or_infinite_of_le (h _ _ hleast) with hlow | hhigh | ⟨-, hfinite⟩
  · rw [hlow] at hlower
    cases hlower
  · rcases isFinite_or_infinite_of_le (h _ _ hmost) with hlow | htop | ⟨hfinite, -⟩
    · rw [hhigh] at hlow
      cases hlow
    · rw [htop] at hupper
      cases hupper
    · exact hfinite
  · exact hfinite

theorem isFinite_floor (hx : x.isFinite = true) : x.floor.isFinite = true :=
  keepsOrder_floor.isFinite_of_ends (by decide +kernel) hx

theorem isFinite_ceil (hx : x.isFinite = true) : x.ceil.isFinite = true :=
  keepsOrder_ceil.isFinite_of_ends (by decide +kernel) hx

theorem isFinite_roundHalfUp (hx : x.isFinite = true) : x.roundHalfUp.isFinite = true :=
  keepsOrder_roundHalfUp.isFinite_of_ends (by decide +kernel) hx

end Binary64
end SolarTakeoff
