import SolarTakeoff.Binary64.Integral
import Mathlib.Tactic

/-!
# The order of binary64 numbers

Comparisons look at positions only.  Every comparison that holds therefore
comes with two positions, and a comparison that does not hold says something
only about numbers that have one.
-/

namespace SolarTakeoff
namespace Binary64

variable {x y z : Binary64}

theorem lt_eq_true_iff :
    x.lt y = true ↔ ∃ a b, x.position? = some a ∧ y.position? = some b ∧ a < b := by
  unfold lt
  cases x.position? <;> cases y.position? <;> simp

theorem le_eq_true_iff :
    x.le y = true ↔ ∃ a b, x.position? = some a ∧ y.position? = some b ∧ a ≤ b := by
  unfold le
  cases x.position? <;> cases y.position? <;> simp

@[simp] theorem position?_finite (negative : Bool) (magnitude : Magnitude) :
    (finite negative magnitude).position? = some (signedUnits negative magnitude) :=
  rfl

@[simp] theorem position?_zero : zero.position? = some 0 :=
  rfl

@[simp] theorem isFinite_zero : zero.isFinite = true :=
  rfl

@[simp] theorem lt_irrefl (x : Binary64) : x.lt x = false := by
  unfold lt
  cases x.position? <;> simp

theorem isFinite_eq_true_iff :
    x.isFinite = true ↔ ∃ negative magnitude, x = .finite negative magnitude := by
  cases x <;> simp [isFinite]

theorem exists_position_of_isFinite (h : x.isFinite = true) : ∃ a, x.position? = some a := by
  obtain ⟨negative, magnitude, rfl⟩ := isFinite_eq_true_iff.mp h
  exact ⟨_, rfl⟩

theorem le_eq_false_iff_of_isFinite (hx : x.isFinite = true) (hy : y.isFinite = true) :
    x.le y = false ↔ y.lt x = true := by
  obtain ⟨a, ha⟩ := exists_position_of_isFinite hx
  obtain ⟨b, hb⟩ := exists_position_of_isFinite hy
  simp [le, lt, ha, hb]

theorem zero_lt_iff : zero.lt x = true ↔ ∃ a, x.position? = some a ∧ 0 < a := by
  simp [lt_eq_true_iff]

theorem zero_le_iff : zero.le x = true ↔ ∃ a, x.position? = some a ∧ 0 ≤ a := by
  simp [le_eq_true_iff]

theorem zero_le_of_zero_lt (h : zero.lt x = true) : zero.le x = true := by
  obtain ⟨a, ha, hpos⟩ := zero_lt_iff.mp h
  exact zero_le_iff.mpr ⟨a, ha, hpos.le⟩

/-- A finite number is not below zero exactly if only its zero can have a sign. -/
theorem zero_le_finite_iff {negative : Bool} {magnitude : Magnitude} :
    zero.le (.finite negative magnitude) = true ↔
      (negative = true → magnitude.units = 0) := by
  rw [zero_le_iff]
  cases negative <;> simp [signedUnits]

theorem zero_le_infinite_iff {negative : Bool} :
    zero.le (.infinite negative) = true ↔ negative = false := by
  have hpos := unitsLimit_pos
  rw [zero_le_iff]
  constructor
  · rintro ⟨a, ha, hnonneg⟩
    cases negative with
    | false => rfl
    | true =>
        obtain rfl : -(unitsLimit : ℤ) = a := Option.some.inj ha
        omega
  · rintro rfl
    exact ⟨unitsLimit, rfl, by omega⟩

/-! ## Numbers that have a position -/

theorem isNaN_eq_false_iff : x.isNaN = false ↔ ∃ a, x.position? = some a := by
  cases x with
  | nan => simp [isNaN, position?]
  | infinite negative => exact ⟨fun _ => ⟨_, rfl⟩, fun _ => rfl⟩
  | finite negative magnitude => exact ⟨fun _ => ⟨_, rfl⟩, fun _ => rfl⟩

theorem isNaN_of_isFinite (h : x.isFinite = true) : x.isNaN = false :=
  isNaN_eq_false_iff.mpr (exists_position_of_isFinite h)

theorem isNaN_right_of_le (h : x.le y = true) : y.isNaN = false := by
  obtain ⟨a, b, -, hb, -⟩ := le_eq_true_iff.mp h
  exact isNaN_eq_false_iff.mpr ⟨b, hb⟩

theorem le_of_lt_eq_false (hx : x.isNaN = false) (hy : y.isNaN = false)
    (h : x.lt y = false) : y.le x = true := by
  obtain ⟨a, ha⟩ := isNaN_eq_false_iff.mp hx
  obtain ⟨b, hb⟩ := isNaN_eq_false_iff.mp hy
  have hba : b ≤ a := by simpa [lt, ha, hb] using h
  exact le_eq_true_iff.mpr ⟨b, a, hb, ha, hba⟩

theorem le_refl_of_isNaN (h : x.isNaN = false) : x.le x = true := by
  obtain ⟨a, ha⟩ := isNaN_eq_false_iff.mp h
  exact le_eq_true_iff.mpr ⟨a, a, ha, ha, le_rfl⟩

theorem le_trans (hxy : x.le y = true) (hyz : y.le z = true) : x.le z = true := by
  obtain ⟨a, b, ha, hb, hab⟩ := le_eq_true_iff.mp hxy
  obtain ⟨b', c, hb', hc, hbc⟩ := le_eq_true_iff.mp hyz
  obtain rfl : b = b' := Option.some.inj (hb.symm.trans hb')
  exact le_eq_true_iff.mpr ⟨a, c, ha, hc, hab.trans hbc⟩

/-! ## Zeros -/

/-- One of the two zeros. -/
def IsZero (x : Binary64) : Prop :=
  ∃ negative magnitude, x = .finite negative magnitude ∧ magnitude.units = 0

theorem isZero_zero : zero.IsZero :=
  ⟨false, _, rfl, rfl⟩

theorem eq_eq_true_iff :
    x.eq y = true ↔ ∃ a, x.position? = some a ∧ y.position? = some a := by
  unfold eq
  cases x.position? <;> cases y.position? <;> simp [eq_comm]

theorem eq_self_of_isNaN (h : x.isNaN = false) : x.eq x = true := by
  obtain ⟨a, ha⟩ := isNaN_eq_false_iff.mp h
  exact eq_eq_true_iff.mpr ⟨a, ha, ha⟩

theorem eq_or_isNaN (h : x.position? = y.position?) :
    x.eq y = true ∨ x.isNaN = true ∧ y.isNaN = true := by
  cases hx : x.isNaN with
  | false =>
      obtain ⟨a, ha⟩ := isNaN_eq_false_iff.mp hx
      exact .inl (eq_eq_true_iff.mpr ⟨a, ha, h ▸ ha⟩)
  | true =>
      right
      refine ⟨rfl, ?_⟩
      by_contra hy
      obtain ⟨a, ha⟩ := isNaN_eq_false_iff.mp (Bool.eq_false_iff.mpr hy)
      rw [isNaN_eq_false_iff.mpr ⟨a, h.trans ha⟩] at hx
      cases hx

theorem eq_zero_of_zero_le (hle : zero.le x = true) (hlt : zero.lt x = false) :
    x.eq zero = true := by
  obtain ⟨a, ha, hnonneg⟩ := zero_le_iff.mp hle
  have hnot : ¬ 0 < a := by
    intro hpos
    have hzero : zero.lt x = true := zero_lt_iff.mpr ⟨a, ha, hpos⟩
    simp [hlt] at hzero
  have hzero : a = 0 := by omega
  exact eq_eq_true_iff.mpr ⟨0, hzero ▸ ha, rfl⟩

theorem isZero_iff_eq_zero : x.IsZero ↔ x.eq zero = true := by
  rw [eq_eq_true_iff]
  constructor
  · rintro ⟨negative, magnitude, rfl, hunits⟩
    exact ⟨0, by simp [signedUnits, hunits], rfl⟩
  · rintro ⟨a, hx, hzero⟩
    obtain rfl : 0 = a := Option.some.inj hzero
    cases x with
    | nan => cases hx
    | infinite negative =>
        have hpos := unitsLimit_pos
        have hlimit : (if negative then -(unitsLimit : ℤ) else unitsLimit) = 0 :=
          Option.some.inj hx
        split at hlimit <;> omega
    | finite negative magnitude =>
        refine ⟨negative, magnitude, rfl, ?_⟩
        have hunits : signedUnits negative magnitude = 0 := Option.some.inj hx
        unfold signedUnits at hunits
        split at hunits <;> omega

end Binary64
end SolarTakeoff
