import SolarTakeoff.Money
import SolarTakeoff.Proofs.Binary64.Whole
import Mathlib.Tactic

/-!
# Amounts that are not below zero

Prices of finite quantities at finite costs are never below zero, whatever
their size: what overflows counts as nothing or stops at the end of the range.
Amounts of one sign have sums that only grow, so when their exact total is in
range, so is every sum met on the way, in whatever parts they are added.
-/

namespace SolarTakeoff

namespace Money

theorem isFinite_hundred : (Binary64.ofNat 100).isFinite = true := by
  decide +kernel

theorem ofDollars_nonneg {dollars : Binary64} (h : Binary64.zero.le dollars = true) :
    0 ≤ (ofDollars dollars).cents.toInt := by
  unfold ofDollars
  split
  next hfinite =>
    apply Binary64.toInt64_nonneg
    apply Binary64.zero_le_roundAway
    exact Binary64.zero_le_mul hfinite isFinite_hundred h (Binary64.zero_le_ofNat 100)
  next => decide

theorem lineTotal_nonneg {cost quantity : Binary64}
    (hcost : cost.isFinite = true ∧ Binary64.zero.le cost = true)
    (hquantity : quantity.isFinite = true ∧ Binary64.zero.lt quantity = true) :
    0 ≤ (lineTotal cost quantity).cents.toInt :=
  ofDollars_nonneg <|
    Binary64.zero_le_mul hcost.1 hquantity.1 hcost.2
      (Binary64.zero_le_of_zero_lt hquantity.2)

/-! ## Sums without overflow -/

/-- The cents that an amount can hold. -/
def InRange (cents : ℤ) : Prop :=
  -9223372036854775808 ≤ cents ∧ cents < 9223372036854775808

instance (cents : ℤ) : Decidable (InRange cents) :=
  inferInstanceAs (Decidable (_ ∧ _))

/-- The total in cents, without any limit. -/
def exactSum (amounts : List Money) : ℤ :=
  (amounts.map fun amount => amount.cents.toInt).sum

/-- Every addition that summing makes, of an amount to the sum of the amounts
before it, stays in range. -/
def SumsInRange (amounts : List Money) : Prop :=
  ∀ before amount after, amounts = before ++ amount :: after →
    InRange ((sum before).cents.toInt + amount.cents.toInt)

variable {amounts first second : List Money} {a b : Money}

@[simp] theorem exactSum_nil : exactSum [] = 0 :=
  rfl

@[simp] theorem exactSum_cons (amount : Money) (amounts : List Money) :
    exactSum (amount :: amounts) = amount.cents.toInt + exactSum amounts := by
  simp [exactSum]

@[simp] theorem exactSum_append (first second : List Money) :
    exactSum (first ++ second) = exactSum first + exactSum second := by
  simp [exactSum]

theorem exactSum_perm (h : first.Perm second) : exactSum first = exactSum second :=
  (h.map _).sum_eq

theorem exactSum_nonneg (h : ∀ amount ∈ amounts, 0 ≤ amount.cents.toInt) :
    0 ≤ exactSum amounts :=
  List.sum_nonneg (by simpa using h)

theorem inRange_of_sublist (hsublist : first.Sublist second)
    (hnonneg : ∀ amount ∈ second, 0 ≤ amount.cents.toInt)
    (hrange : InRange (exactSum second)) : InRange (exactSum first) := by
  have hfirst : 0 ≤ exactSum first :=
    exactSum_nonneg fun amount hamount => hnonneg amount (hsublist.subset hamount)
  have hle : exactSum first ≤ exactSum second :=
    (hsublist.map _).sum_le_sum (by simpa using hnonneg)
  obtain ⟨-, hhigh⟩ := hrange
  exact ⟨by omega, by omega⟩

theorem eq_of_toInt_eq (h : a.cents.toInt = b.cents.toInt) : a = b :=
  congrArg Money.mk (Int64.toInt_inj.mp h)

theorem sum_concat (amounts : List Money) (amount : Money) :
    sum (amounts ++ [amount]) = sum amounts + amount := by
  simp [sum]

theorem toInt_add_of_inRange (h : InRange (a.cents.toInt + b.cents.toInt)) :
    (a + b).cents.toInt = a.cents.toInt + b.cents.toInt := by
  obtain ⟨hlow, hhigh⟩ := h
  have hadd : (a + b).cents = a.cents + b.cents := rfl
  rw [hadd, Int64.toInt_add]
  exact Int.bmod_eq_of_le (by omega) (by omega)

theorem toInt_sum_of_nonneg (hnonneg : ∀ amount ∈ amounts, 0 ≤ amount.cents.toInt)
    (hrange : InRange (exactSum amounts)) :
    (sum amounts).cents.toInt = exactSum amounts := by
  induction amounts using List.reverseRecOn with
  | nil => rfl
  | append_singleton before amount ih =>
      have hbefore : InRange (exactSum before) :=
        inRange_of_sublist (List.sublist_append_left before [amount]) hnonneg hrange
      have hearlier := ih (fun other hother => hnonneg other (by simp [hother])) hbefore
      simp only [exactSum_append, exactSum_cons, exactSum_nil, add_zero] at hrange ⊢
      rw [← hearlier] at hrange ⊢
      rw [sum_concat, toInt_add_of_inRange hrange]

/-- Sums of amounts that are not below zero only grow, so none leaves the range
before the last one does. -/
theorem sumsInRange_of_nonneg (hnonneg : ∀ amount ∈ amounts, 0 ≤ amount.cents.toInt)
    (hrange : InRange (exactSum amounts)) : SumsInRange amounts := by
  rintro before amount after rfl
  have hprefix : (before ++ [amount]).Sublist (before ++ amount :: after) := by simp
  have hthis := inRange_of_sublist hprefix hnonneg hrange
  have hbefore := inRange_of_sublist (List.sublist_append_left _ _) hnonneg hrange
  have hsum := toInt_sum_of_nonneg
    (fun other hother => hnonneg other (List.mem_append_left _ hother)) hbefore
  simpa [hsum] using hthis

end Money

end SolarTakeoff
