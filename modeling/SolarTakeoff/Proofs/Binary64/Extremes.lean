import SolarTakeoff.Proofs.Binary64.Monotone
import Mathlib.Tactic

/-!
# The largest and the smallest of a list

The larger of two numbers is one of them, so the largest of a list is found by any
grouping of it.  The list is folded from the negative infinity, which gives way to
every number and so leaves no trace unless the list is empty.

Opposites turn the order around, and the smaller of two numbers is the opposite of
the larger of their opposites.  All that is said of the largest of a list therefore
holds of the smallest.
-/

namespace SolarTakeoff
namespace Binary64

variable {x y z : Binary64} {values others : List Binary64}

/-! ## Opposites -/

instance : InvolutiveNeg Binary64 where
  neg_neg x := by
    cases x with
    | nan => rfl
    | infinite negative | finite negative magnitude => cases negative <;> rfl

theorem position?_neg (x : Binary64) : (-x).position? = x.position?.map (-·) := by
  cases x with
  | nan => rfl
  | infinite negative | finite negative magnitude =>
    cases negative with
    | false => rfl
    | true => exact congrArg some (Int.neg_neg _).symm

@[simp] theorem isNaN_neg (x : Binary64) : (-x).isNaN = x.isNaN := by
  cases x <;> rfl

@[simp] theorem isFinite_neg (x : Binary64) : (-x).isFinite = x.isFinite := by
  cases x <;> rfl

theorem lt_neg_neg (x y : Binary64) : (-x).lt (-y) = y.lt x := by
  unfold lt
  rw [position?_neg, position?_neg]
  cases x.position? <;> cases y.position? <;> simp

theorem min_eq_neg_max (x y : Binary64) : min x y = -max (-x) (-y) := by
  unfold min max
  rw [isNaN_neg, isNaN_neg, lt_neg_neg]
  split_ifs <;> simp

/-! ## The larger of two numbers -/

theorem le_of_lt (h : x.lt y = true) : x.le y = true := by
  obtain ⟨a, b, ha, hb, hab⟩ := lt_eq_true_iff.mp h
  exact le_eq_true_iff.mpr ⟨a, b, ha, hb, hab.le⟩

theorem max_of_lt (h : x.lt y = true) : max x y = y := by
  simp [max, isNaN_left_of_lt h, isNaN_right_of_lt h, h]

theorem max_of_le (h : y.le x = true) : max x y = x := by
  have hlt : x.lt y = false := by
    rw [Bool.eq_false_iff]
    intro hlt
    have hself := lt_of_lt_of_le hlt h
    simp at hself
  simp [max, isNaN_left_of_le h, isNaN_right_of_le h, hlt]

theorem max_cases (hx : x.isNaN = false) (hy : y.isNaN = false) :
    max x y = y ∧ x.lt y = true ∨ max x y = x ∧ y.le x = true := by
  cases hlt : x.lt y with
  | true => exact .inl ⟨max_of_lt hlt, rfl⟩
  | false =>
      have hle := le_of_lt_eq_false hx hy hlt
      exact .inr ⟨max_of_le hle, hle⟩

theorem isNaN_max (hx : x.isNaN = false) (hy : y.isNaN = false) : (max x y).isNaN = false := by
  rcases max_cases hx hy with ⟨hmax, -⟩ | ⟨hmax, -⟩
  · rwa [hmax]
  · rwa [hmax]

theorem le_max_left (hx : x.isNaN = false) (hy : y.isNaN = false) : x.le (max x y) = true := by
  rcases max_cases hx hy with ⟨hmax, hlt⟩ | ⟨hmax, -⟩
  · rw [hmax]
    exact le_of_lt hlt
  · rw [hmax]
    exact le_refl_of_isNaN hx

theorem le_max_right (hx : x.isNaN = false) (hy : y.isNaN = false) :
    y.le (max x y) = true := by
  rcases max_cases hx hy with ⟨hmax, -⟩ | ⟨hmax, hle⟩
  · rw [hmax]
    exact le_refl_of_isNaN hy
  · rwa [hmax]

/-- Either way it is the first of the largest that stays. -/
theorem max_max (hx : x.isNaN = false) (hy : y.isNaN = false) (hz : z.isNaN = false) :
    max (max x y) z = max x (max y z) := by
  rcases max_cases hx hy with ⟨hxy, hlt⟩ | ⟨hxy, hle⟩
  · rcases max_cases hy hz with ⟨hyz, hlt'⟩ | ⟨hyz, -⟩
    · rw [hxy, hyz, max_of_lt (lt_of_lt_of_le hlt (le_of_lt hlt'))]
    · rw [hxy, hyz, hxy]
  · rcases max_cases hy hz with ⟨hyz, -⟩ | ⟨hyz, hle'⟩
    · rw [hxy, hyz]
    · rw [hxy, hyz, hxy, max_of_le (le_trans hle' hle)]

theorem max_infinite_true (h : x.isNaN = false) : max (infinite true) x = x := by
  rcases @max_cases (infinite true) x rfl h with ⟨hmax, -⟩ | ⟨hmax, hle⟩
  · exact hmax
  · rcases isFinite_or_infinite_of_le hle with rfl | hends | ⟨-, hfinite⟩
    · exact hmax
    · cases hends
    · cases hfinite

/-! ## Lists -/

/-- One of the values, and none of them is above it. -/
structure Tops (values : List Binary64) (value : Binary64) : Prop where
  mem : value ∈ values
  le : ∀ other ∈ values, other.le value = true

def largest (values : List Binary64) : Binary64 :=
  values.foldl max (infinite true)

def least (values : List Binary64) : Binary64 :=
  values.foldl min (infinite false)

theorem Tops.of_max (hx : x.isNaN = false) (hy : y.isNaN = false)
    (h : Tops (max x y :: values) z) : Tops (x :: y :: values) z := by
  obtain ⟨hmem, hle⟩ := h
  rw [List.forall_mem_cons] at hle
  constructor
  · rcases List.mem_cons.mp hmem with rfl | hvalues
    · rcases max_cases hx hy with ⟨hmax, -⟩ | ⟨hmax, -⟩ <;> simp [hmax]
    · exact List.mem_cons_of_mem _ (List.mem_cons_of_mem _ hvalues)
  · rw [List.forall_mem_cons, List.forall_mem_cons]
    exact ⟨le_trans (le_max_left hx hy) hle.1, le_trans (le_max_right hx hy) hle.1, hle.2⟩

theorem tops_foldl_max (hx : x.isNaN = false) (hvalues : ∀ value ∈ values, value.isNaN = false) :
    Tops (x :: values) (values.foldl max x) := by
  induction values generalizing x with
  | nil =>
      refine ⟨List.mem_singleton_self x, ?_⟩
      intro other hother
      rw [List.mem_singleton.mp hother]
      exact le_refl_of_isNaN hx
  | cons y values ih =>
      obtain ⟨hy, hvalues⟩ := List.forall_mem_cons.mp hvalues
      exact (ih (isNaN_max hx hy) hvalues).of_max hx hy

theorem tops_largest (hne : values ≠ []) (hvalues : ∀ value ∈ values, value.isNaN = false) :
    Tops values (largest values) := by
  obtain ⟨x, rest, rfl⟩ := List.exists_cons_of_ne_nil hne
  obtain ⟨hx, hrest⟩ := List.forall_mem_cons.mp hvalues
  rw [largest, List.foldl_cons, max_infinite_true hx]
  exact tops_foldl_max hx hrest

/-- Order and repetition make no difference but to which of two zeros it is. -/
theorem Tops.eq_of_mem_iff (hx : Tops values x) (hy : Tops others y)
    (hsame : ∀ value, value ∈ others ↔ value ∈ values) : y.eq x = true := by
  obtain ⟨a, b, ha, hb, hab⟩ := le_eq_true_iff.mp (hx.le y ((hsame y).mp hy.mem))
  obtain ⟨b', a', hb', ha', hba⟩ := le_eq_true_iff.mp (hy.le x ((hsame x).mpr hx.mem))
  obtain rfl : a = a' := Option.some.inj (ha.symm.trans ha')
  obtain rfl : b = b' := Option.some.inj (hb.symm.trans hb')
  obtain rfl : a = b := Int.le_antisymm hab hba
  exact eq_eq_true_iff.mpr ⟨a, ha, hb⟩

theorem foldl_max_max (hx : x.isNaN = false) (hy : y.isNaN = false)
    (hvalues : ∀ value ∈ values, value.isNaN = false) :
    values.foldl max (max x y) = max x (values.foldl max y) := by
  induction values generalizing y with
  | nil => rfl
  | cons z values ih =>
      obtain ⟨hz, hvalues⟩ := List.forall_mem_cons.mp hvalues
      rw [List.foldl_cons, List.foldl_cons, max_max hx hy hz]
      exact ih (isNaN_max hy hz) hvalues

theorem largest_append (hne : values ≠ []) (hvalues : ∀ value ∈ values, value.isNaN = false)
    (hothers : ∀ value ∈ others, value.isNaN = false) :
    largest (values ++ others) = max (largest values) (largest others) := by
  have htop : (largest values).isNaN = false := hvalues _ (tops_largest hne hvalues).mem
  have hseed : max (largest values) (infinite true) = largest values :=
    max_of_le (infinite_true_le htop)
  have hfold := foldl_max_max (y := infinite true) htop rfl hothers
  rw [hseed] at hfold
  rw [largest, List.foldl_append]
  exact hfold

theorem largest_pair (hx : x.isNaN = false) : largest [x, y] = max x y := by
  rw [largest, List.foldl_cons, List.foldl_cons, List.foldl_nil, max_infinite_true hx]

theorem foldl_min_eq (values : List Binary64) (x : Binary64) :
    values.foldl min x = -(values.map (-·)).foldl max (-x) := by
  induction values generalizing x with
  | nil => simp
  | cons y values ih => rw [List.foldl_cons, ih, min_eq_neg_max, neg_neg, List.map_cons,
      List.foldl_cons]

theorem least_eq (values : List Binary64) : least values = -largest (values.map (-·)) :=
  foldl_min_eq values (infinite false)

theorem isFinite_largest (hne : values ≠ []) (hvalues : ∀ value ∈ values, value.isFinite = true) :
    (largest values).isFinite = true := by
  have hnumbers : ∀ value ∈ values, value.isNaN = false :=
    fun value hvalue => isNaN_of_isFinite (hvalues value hvalue)
  exact hvalues _ (tops_largest hne hnumbers).mem

theorem isFinite_least (hne : values ≠ []) (hvalues : ∀ value ∈ values, value.isFinite = true) :
    (least values).isFinite = true := by
  rw [least_eq, isFinite_neg]
  apply isFinite_largest
  · simpa using hne
  · intro value hvalue
    obtain ⟨own, hown, rfl⟩ := List.mem_map.mp hvalue
    rw [isFinite_neg]
    exact hvalues own hown

end Binary64
end SolarTakeoff
