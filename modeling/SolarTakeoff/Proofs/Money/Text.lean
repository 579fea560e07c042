import SolarTakeoff.Money
import SolarTakeoff.Proofs.Decimal.Positional
import Mathlib.Tactic

/-!
# The text of an amount

An amount is written as a sign if it is below zero, its whole dollars and two
digits of cents.  The sign is that of the amount, since the dollars of a few
cents have none, and dollars and cents are written by their sizes.  These fit
into words of sixty-four bits, the sizes of the lowest amount's parts included.

The digits of a text are those of the cents, so an amount can be read back from
its text and no two amounts have the same one.
-/

namespace SolarTakeoff

namespace Money

/-- Dollars, cents and their sizes, reckoned in words of sixty-four bits, are the
exact ones. -/
structure TextFits (amount : Money) : Prop where
  dollars : (amount.cents / 100).toInt = amount.dollars
  dollarsSize : (amount.cents / 100).abs.toInt = amount.dollars.natAbs
  cents : (amount.cents % 100).toInt = amount.cents.toInt.tmod 100
  centsSize : (amount.cents % 100).abs.toInt = amount.centsPart

/-- The text has a sign exactly if the cents are below zero, and then the dollars
in decimal digits and two digits of cents. -/
def Shows (text : String) (cents : ℤ) : Prop :=
  ∃ dollars tens ones : ℕ, tens < 10 ∧ ones < 10 ∧
    cents.natAbs = 100 * dollars + 10 * tens + ones ∧
    text.toList = (if cents < 0 then ['-'] else []) ++
      '$' :: Nat.toDigits 10 dollars ++ ['.', tens.digitChar, ones.digitChar]

/-- The hundredths of a numeral with two places. -/
def hundredths? (chars : List Char) : Option ℕ := do
  let decimal ← Decimal.ofChars? chars
  if decimal.exponent = -2 then some decimal.coefficient else none

/-- The cents of a text that is written like an amount. -/
def centsOfText? (text : String) : Option ℤ :=
  match text.toList with
  | '-' :: '$' :: chars => (hundredths? chars).map fun cents : ℕ => -(cents : ℤ)
  | '$' :: chars => (hundredths? chars).map fun cents : ℕ => (cents : ℤ)
  | _ => none

variable {amount : Money}

/-! ## Dollars and cents -/

theorem natAbs_dollars (amount : Money) :
    amount.dollars.natAbs = amount.cents.toInt.natAbs / 100 :=
  Int.natAbs_tdiv _ _

theorem centsPart_eq (amount : Money) :
    amount.centsPart = amount.cents.toInt.natAbs % 100 :=
  Int.natAbs_tmod _ _

theorem toInt_abs_of_lt {word : Int64} (h : -9223372036854775808 < word.toInt) :
    word.abs.toInt = word.toInt.natAbs := by
  apply BitVec.toInt_abs_eq_natAbs_of_ne_intMin
  intro hlowest
  have hvalue : word.toInt = (BitVec.intMin 64).toInt := congrArg BitVec.toInt hlowest
  have hleast : (BitVec.intMin 64).toInt = -9223372036854775808 := by decide
  omega

theorem textFits (amount : Money) : amount.TextFits := by
  have hdollars : (amount.cents / 100).toInt = amount.dollars :=
    Int64.toInt_div_of_ne_right _ _ (by decide)
  have hcents : (amount.cents % 100).toInt = amount.cents.toInt.tmod 100 :=
    Int64.toInt_mod _ _
  have hlow : -(2 ^ 63) ≤ amount.cents.toInt := amount.cents.le_toInt
  have hhigh : amount.cents.toInt < 2 ^ 63 := amount.cents.toInt_lt
  have hwhole := natAbs_dollars amount
  have hpart : (amount.cents.toInt.tmod 100).natAbs = amount.cents.toInt.natAbs % 100 :=
    centsPart_eq amount
  refine ⟨hdollars, ?_, hcents, ?_⟩
  · rw [toInt_abs_of_lt (by omega), hdollars]
  · rw [toInt_abs_of_lt (by omega), hcents]
    rfl

/-! ## Digits -/

theorem paddedDigits_two {cents : ℕ} (h : cents < 100) :
    Decimal.paddedDigits cents 2 = [(cents / 10).digitChar, (cents % 10).digitChar] := by
  revert cents
  decide

theorem toList_text (amount : Money) :
    amount.text.toList = (if amount.cents.toInt < 0 then ['-'] else []) ++
      '$' :: Nat.toDigits 10 amount.dollars.natAbs ++
        '.' :: Decimal.paddedDigits amount.centsPart 2 := by
  have hnegative : amount.isNegative = true ↔ amount.cents.toInt < 0 := by
    rw [isNegative, decide_eq_true_iff]
    exact Int64.lt_iff_toInt_lt
  simp only [text, String.toList_ofList, chars, hnegative, Decimal.paddedDigits,
    List.append_assoc, List.cons_append]

theorem shows_iff {text : String} : Shows text amount.cents.toInt ↔ text = amount.text := by
  have hdollars := natAbs_dollars amount
  have hcents := centsPart_eq amount
  have hlow : amount.centsPart < 100 := by omega
  have hdigits := paddedDigits_two hlow
  constructor
  · rintro ⟨dollars, tens, ones, htens, hones, hsize, htext⟩
    obtain rfl : dollars = amount.dollars.natAbs := by omega
    obtain rfl : tens = amount.centsPart / 10 := by omega
    obtain rfl : ones = amount.centsPart % 10 := by omega
    rw [← String.toList_inj, htext, toList_text, hdigits]
  · rintro rfl
    refine ⟨amount.dollars.natAbs, amount.centsPart / 10, amount.centsPart % 10,
      by omega, by omega, by omega, ?_⟩
    rw [toList_text, hdigits]

/-! ## Reading back -/

theorem hundredths?_text (amount : Money) :
    hundredths? (Nat.toDigits 10 amount.dollars.natAbs ++
      '.' :: Decimal.paddedDigits amount.centsPart 2) = some amount.cents.toInt.natAbs := by
  have hdollars := natAbs_dollars amount
  have hcents := centsPart_eq amount
  have hlength : (Decimal.paddedDigits amount.centsPart 2).length = 2 :=
    Decimal.length_paddedDigits (by decide) (by omega)
  have hne : Nat.toDigits 10 amount.dollars.natAbs ++
      Decimal.paddedDigits amount.centsPart 2 ≠ [] := by
    intro hnil
    simp [List.append_eq_nil_iff.mp hnil] at hlength
  have hvalue : digitsValue (Nat.toDigits 10 amount.dollars.natAbs ++
      Decimal.paddedDigits amount.centsPart 2) = amount.cents.toInt.natAbs := by
    rw [digitsValue_append, digitsValue_toDigits, Decimal.digitsValue_paddedDigits, hlength]
    omega
  have hread := Decimal.ofChars?_point hne (fun _ => isDigit_of_mem_toDigits)
    (fun _ => Decimal.isDigit_of_mem_paddedDigits)
  rw [hvalue, hlength] at hread
  simp [hundredths?, hread]

theorem centsOfText?_text (amount : Money) :
    centsOfText? amount.text = some amount.cents.toInt := by
  have hread := hundredths?_text amount
  unfold centsOfText?
  rw [toList_text]
  by_cases hnegative : amount.cents.toInt < 0
  · simp only [hnegative, if_true, List.cons_append, List.nil_append, hread, Option.map_some]
    rw [Int.ofNat_natAbs_of_nonpos hnegative.le, neg_neg]
  · simp only [hnegative, if_false, List.nil_append, List.cons_append, hread, Option.map_some]
    rw [Int.natAbs_of_nonneg (not_lt.mp hnegative)]

/-- Writing an amount overflows nowhere and shows its cents in the one way there is,
from which they can be read back.  So no two amounts have the same text. -/
theorem text_shows_cents :
    (∀ amount : Money, amount.TextFits ∧
      (∀ text, Shows text amount.cents.toInt ↔ text = amount.text) ∧
        centsOfText? amount.text = some amount.cents.toInt) ∧
      Function.Injective text := by
  refine ⟨fun amount => ⟨textFits amount, fun _ => shows_iff, centsOfText?_text amount⟩, ?_⟩
  intro amount other htext
  have hcents := centsOfText?_text amount
  rw [htext, centsOfText?_text other, Option.some.injEq, Int64.toInt_inj] at hcents
  exact congrArg Money.mk hcents.symm

example : (⟨-5⟩ : Money).text = "-$0.05" ∧
    (⟨Int64.minValue⟩ : Money).text = "-$92233720368547758.08" := by
  decide

end Money

end SolarTakeoff
