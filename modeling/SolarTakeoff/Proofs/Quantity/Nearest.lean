import SolarTakeoff.Proofs.Binary64.Ends
import SolarTakeoff.Proofs.Binary64.HalfUp
import SolarTakeoff.Proofs.Formula.Evaluation
import SolarTakeoff.Proofs.Quantity.Bounds
import Mathlib.Tactic

/-!
# The nearest whole number

Rounding half up is meant to give the nearest whole number, a half going up, and to
leave a whole number as it is.  It does so for all finite numbers but those that
overshoot: the number just below one half, which comes to one, and the odd numbers of
fifty-three bits, which come to the next even one.  A formula that rounds and a
quantity that is not rounded up both come to what it gives.
-/

namespace SolarTakeoff

attribute [local irreducible] oneUnits unitsLimit halfUnits stepBelowHalf

namespace Binary64

variable {x y : Binary64}

theorem eq_eq_true_iff_toRat (hx : x.isFinite = true) (hy : y.isFinite = true) :
    x.eq y = true ↔ x.toRat = y.toRat := by
  obtain ⟨a, ha⟩ := exists_position_of_isFinite hx
  obtain ⟨b, hb⟩ := exists_position_of_isFinite hy
  rw [toRat_of_position? hx ha, toRat_of_position? hy hb, div_left_inj' oneUnits_pos_rat.ne',
    Int.cast_inj]
  simp [eq, ha, hb]

theorem exists_toRat_of_isWhole (h : x.isWhole = true) : ∃ whole : ℤ, x.toRat = whole := by
  cases x with
  | nan | infinite _ => cases h
  | finite negative magnitude =>
      obtain ⟨count, hcount⟩ := Nat.dvd_of_mod_eq_zero (of_decide_eq_true h)
      refine ⟨if negative then -(count : ℤ) else count, ?_⟩
      unfold toRat signedUnits
      rw [div_eq_iff oneUnits_pos_rat.ne', hcount]
      cases negative <;> push_cast <;> simp [mul_comm]

theorem aligned_of_position? {units : ℤ} (hx : x.isFinite = true)
    (hunits : x.position? = some units) :
    ulp units.natAbs ∣ units.natAbs ∧ units.natAbs < unitsLimit := by
  obtain ⟨negative, magnitude, rfl⟩ := isFinite_eq_true_iff.mp hx
  obtain rfl : signedUnits negative magnitude = units := Option.some.inj hunits
  rw [natAbs_signedUnits]
  exact ⟨magnitude.aligned, magnitude.bounded⟩

theorem toRat_roundHalfUp_of_not_overshoots (hx : x.isFinite = true) (h : ¬ x.Overshoots) :
    x.roundHalfUp.isFinite = true ∧ x.roundHalfUp.toRat = ⌊x.toRat + 1 / 2⌋ := by
  obtain ⟨units, hunits⟩ := exists_position_of_isFinite hx
  obtain ⟨haligned, hrange⟩ := aligned_of_position? hx hunits
  rw [← overshootsAt_iff hx hunits] at h
  rw [floor_toRat_add_half hx hunits]
  exact toRat_roundHalfUp hx hunits (halfUpAt_of_not_overshootsAt haligned hrange h)

theorem Overshoots.toRat_roundHalfUp (hx : x.isFinite = true) (h : x.Overshoots) :
    x.roundHalfUp.isFinite = true ∧ x.roundHalfUp.toRat = ⌊x.toRat + 1 / 2⌋ + 1 := by
  obtain ⟨units, hunits⟩ := exists_position_of_isFinite hx
  rw [← overshootsAt_iff hx hunits] at h
  rw [floor_toRat_add_half hx hunits]
  exact_mod_cast Binary64.toRat_roundHalfUp hx hunits h.halfUpAt

theorem toRat_roundHalfUp_eq_floor_iff (hx : x.isFinite = true) :
    x.roundHalfUp.toRat = ⌊x.toRat + 1 / 2⌋ ↔ ¬ x.Overshoots := by
  refine ⟨fun hfloor h => ?_, fun h => (toRat_roundHalfUp_of_not_overshoots hx h).2⟩
  rw [(h.toRat_roundHalfUp hx).2] at hfloor
  linarith

theorem roundHalfUp_eq_iff_of_isWhole (hx : x.isFinite = true) (hwhole : x.isWhole = true) :
    x.roundHalfUp.eq x = true ↔ ¬ x.Overshoots := by
  obtain ⟨whole, htoRat⟩ := exists_toRat_of_isWhole hwhole
  have hfloor : ⌊x.toRat + 1 / 2⌋ = whole := by
    rw [htoRat, Int.floor_intCast_add]
    norm_num
  rw [eq_eq_true_iff_toRat (isFinite_roundHalfUp hx) hx, ← toRat_roundHalfUp_eq_floor_iff hx,
    hfloor, htoRat]

end Binary64

theorem Expr.evaluate_call_round {operand : Expr} {inputs : Inputs} {x : Binary64}
    (hx : x.isFinite = true) (h : operand.evaluate inputs = .ok x) :
    (Expr.call .round [operand]).evaluate inputs = .ok x.roundHalfUp := by
  have hvalues : evaluateAll inputs [operand] = .ok [x] := by
    rw [evaluateAll, h]
    rfl
  rw [Expr.evaluate, hvalues]
  exact requireFinite_eq_ok_iff.mpr ⟨Binary64.isFinite_roundHalfUp hx, rfl⟩

theorem Resolution.round_of_not_up {resolution : Resolution} {roundUp : Bool}
    (h : (roundUp && Binary64.zero.lt resolution.quantity) = false) :
    (resolution.round roundUp).quantity = resolution.quantity.roundHalfUp ∧
      (resolution.quantity.roundHalfUp.eq resolution.quantity = true →
        (resolution.round roundUp).details = resolution.details) := by
  constructor
  · rw [quantity_round, h]
    rfl
  · intro heq
    simp [round, h, heq]

/-- A half goes up and a whole number stays, but for the numbers that overshoot. -/
theorem roundHalfUp_eq_floor_iff (x : Binary64) (hx : x.isFinite = true) :
    (x.roundHalfUp.isFinite = true ∧
        (x.roundHalfUp.toRat = ⌊x.toRat + 1 / 2⌋ ↔ ¬ x.Overshoots) ∧
        (x.Overshoots → x.roundHalfUp.toRat = ⌊x.toRat + 1 / 2⌋ + 1) ∧
        (x.isWhole = true → (x.roundHalfUp.eq x = true ↔ ¬ x.Overshoots))) ∧
      (∀ (inputs : Inputs) (operand : Expr), operand.evaluate inputs = .ok x →
        (Expr.call .round [operand]).evaluate inputs = .ok x.roundHalfUp) ∧
      ∀ (resolution : Resolution) (roundUp : Bool), resolution.quantity = x →
        (roundUp && Binary64.zero.lt x) = false →
          (resolution.round roundUp).quantity = x.roundHalfUp ∧
            (x.roundHalfUp.eq x = true →
              (resolution.round roundUp).details = resolution.details) := by
  refine ⟨⟨Binary64.isFinite_roundHalfUp hx, Binary64.toRat_roundHalfUp_eq_floor_iff hx, ?_, ?_⟩,
    ?_, ?_⟩
  · intro h
    exact (h.toRat_roundHalfUp hx).2
  · exact Binary64.roundHalfUp_eq_iff_of_isWhole hx
  · intro inputs operand
    exact Expr.evaluate_call_round hx
  · rintro resolution roundUp rfl hdown
    exact Resolution.round_of_not_up hdown

theorem overshoots_odd : (Binary64.ofNat 4503599627370497).Overshoots :=
  .inr ⟨4503599627370497, by decide +kernel, by decide, by decide, by decide⟩

theorem not_overshoots_odd : ¬ (Binary64.ofNat 4503599627370495).Overshoots := by
  have hvalue : (Binary64.ofNat 4503599627370495).toRat = 4503599627370495 := by decide +kernel
  unfold Binary64.Overshoots
  rw [hvalue]
  rintro (hbelow | ⟨whole, hwhole, -, hlow, -⟩)
  · norm_num at hbelow
  · obtain rfl : (4503599627370495 : ℤ) = whole := by exact_mod_cast hwhole
    norm_num at hlow

/-- The last odd number with a half above it stays; the next one does not, neither in
a formula nor as a raw quantity. -/
theorem roundHalfUp_eq_floor_iff_odd :
    ((Binary64.ofNat 4503599627370495).isFinite = true ∧
        ¬ (Binary64.ofNat 4503599627370495).Overshoots ∧
        (Binary64.ofNat 4503599627370495).roundHalfUp.eq (.ofNat 4503599627370495) = true) ∧
      (Binary64.ofNat 4503599627370497).isFinite = true ∧
      (Binary64.ofNat 4503599627370497).Overshoots ∧
      (Binary64.ofNat 4503599627370497).roundHalfUp.toRat = 4503599627370498 ∧
      (Expr.call .round [.number (.ofNat 4503599627370497)]).evaluate (fun _ => .zero) =
        .ok (Binary64.ofNat 4503599627370497).roundHalfUp ∧
      (Resolution.round false ⟨.ofNat 4503599627370497, "", none⟩).quantity =
        (Binary64.ofNat 4503599627370497).roundHalfUp := by
  have hodd : (Binary64.ofNat 4503599627370495).isFinite = true := by decide +kernel
  have hfinite : (Binary64.ofNat 4503599627370497).isFinite = true := by decide +kernel
  have hnumber : (Expr.number (.ofNat 4503599627370497)).evaluate (fun _ => .zero) =
      .ok (.ofNat 4503599627370497) := by
    rw [Expr.evaluate]
    exact requireFinite_eq_ok_iff.mpr ⟨hfinite, rfl⟩
  obtain ⟨⟨-, -, -, hstays⟩, -, -⟩ :=
    roundHalfUp_eq_floor_iff (.ofNat 4503599627370495) hodd
  obtain ⟨⟨-, -, hovershoots, -⟩, hformula, hquantity⟩ := roundHalfUp_eq_floor_iff _ hfinite
  have hfloor : ⌊(Binary64.ofNat 4503599627370497).toRat + 1 / 2⌋ = 4503599627370497 := by
    decide +kernel
  refine ⟨⟨hodd, not_overshoots_odd, (hstays (by decide +kernel)).mpr not_overshoots_odd⟩,
    hfinite, overshoots_odd, ?_, hformula _ _ hnumber, (hquantity _ false rfl rfl).1⟩
  rw [hovershoots overshoots_odd, hfloor]
  norm_num

/-- Just below one half the sum is one, and so is its floor; and an odd number of
fifty-three bits comes to the next even one. -/
theorem not_roundHalfUp_eq_floor :
    ((Binary64.ofNat 9007199254740991 / .ofNat 18014398509481984).isFinite = true ∧
        (Binary64.ofNat 9007199254740991 / .ofNat 18014398509481984).toRat + 1 / 2 < 1 ∧
        (Binary64.ofNat 9007199254740991 / .ofNat 18014398509481984).roundHalfUp = .ofNat 1) ∧
      (Binary64.ofNat 4503599627370497).isWhole = true ∧
      (Binary64.ofNat 4503599627370497).roundHalfUp = .ofNat 4503599627370498 ∧
      (Binary64.ofNat 4503599627370497).roundHalfUp.eq (.ofNat 4503599627370497) = false := by
  decide +kernel

end SolarTakeoff
