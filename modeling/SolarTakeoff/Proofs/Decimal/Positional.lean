import SolarTakeoff.Decimal.Basic
import SolarTakeoff.Proofs.Binary64.Monotone
import Mathlib.Data.List.TakeWhile
import Mathlib.Tactic

/-!
# Reading back what is written positionally

A decimal and its positional form need not be the same coefficient and
exponent, but they are the same quotient: zeros that are left out at the end of
the fraction take as many powers of ten with them.  Conversion looks at the
quotient only, so the numeral reads as the number that the decimal stands for.
-/

namespace SolarTakeoff

attribute [local irreducible] oneUnits

/-! ## Runs of digits -/

theorem digitsValue_append (first second : List Char) :
    digitsValue (first ++ second) =
      digitsValue first * 10 ^ second.length + digitsValue second := by
  unfold digitsValue
  rw [Nat.ofDigitChars_append, Nat.ofDigitChars_eq_ofDigitChars_zero, Nat.mul_comm]

@[simp] theorem digitsValue_toDigits (value : ℕ) :
    digitsValue (Nat.toDigits 10 value) = value :=
  Nat.ofDigitChars_ten_toDigits

@[simp] theorem digitsValue_replicate_zero (count : ℕ) :
    digitsValue (List.replicate count '0') = 0 := by
  simp [digitsValue, Nat.ofDigitChars_replicate_zero]

theorem toString_eq_ofList (value : ℤ) :
    toString value =
      String.ofList ((if decide (value < 0) then ['-'] else []) ++
        Nat.toDigits 10 value.natAbs) := by
  rw [Int.toString_eq_repr]
  cases value with
  | ofNat count =>
      have hsign : decide (Int.ofNat count < 0) = false := by simp
      rw [hsign]
      exact Nat.repr_eq_ofList_toDigits
  | negSucc count =>
      have hrepr : (count + 1).repr = String.ofList (Nat.toDigits 10 (count + 1)) :=
        Nat.repr_eq_ofList_toDigits
      simp [Int.repr, Int.negSucc_lt_zero, hrepr]

theorem ne_of_isDigit {char other : Char} (h : char.isDigit = true) (hother : other.isDigit = false) :
    char ≠ other := by
  rintro rfl
  simp [h] at hother

theorem isDigit_of_mem_toDigits {value : ℕ} {char : Char} (h : char ∈ Nat.toDigits 10 value) :
    char.isDigit = true :=
  Nat.isDigit_of_mem_toDigits (by decide) (by decide) h

namespace Decimal

/-- The fraction with all of its places. -/
def paddedDigits (value places : ℕ) : List Char :=
  List.replicate (places - (Nat.toDigits 10 value).length) '0' ++ Nat.toDigits 10 value

theorem digitsValue_paddedDigits (value places : ℕ) :
    digitsValue (paddedDigits value places) = value := by
  simp [paddedDigits, digitsValue_append]

theorem isDigit_of_mem_paddedDigits {value places : ℕ} {char : Char}
    (h : char ∈ paddedDigits value places) : char.isDigit = true := by
  rcases List.mem_append.mp h with hzero | hdigit
  · rw [List.eq_of_mem_replicate hzero]
    decide
  · exact isDigit_of_mem_toDigits hdigit

theorem length_paddedDigits {value places : ℕ} (hplaces : 0 < places)
    (h : value < 10 ^ places) : (paddedDigits value places).length = places := by
  have hlength := (Nat.length_toDigits_le_iff (by decide) hplaces).mpr h
  simp only [paddedDigits, List.length_append, List.length_replicate]
  omega

theorem exists_zeros_fractionChars (value places : ℕ) :
    ∃ zeros, paddedDigits value places =
      fractionChars value places ++ List.replicate zeros '0' := by
  let reversed := (paddedDigits value places).reverse
  refine ⟨(reversed.takeWhile (· == '0')).length, ?_⟩
  have hzeros : (reversed.takeWhile (· == '0')).reverse =
      List.replicate (reversed.takeWhile (· == '0')).length '0' := by
    rw [List.eq_replicate_iff]
    refine ⟨List.length_reverse, ?_⟩
    intro char hchar
    simpa using List.mem_takeWhile_imp (List.mem_reverse.mp hchar)
  have hsplit : reversed.takeWhile (· == '0') ++ reversed.dropWhile (· == '0') = reversed :=
    List.takeWhile_append_dropWhile
  have hreverse := congrArg List.reverse hsplit
  rw [List.reverse_append, hzeros, List.reverse_reverse] at hreverse
  exact hreverse.symm

theorem isDigit_of_mem_fractionChars {value places : ℕ} {char : Char}
    (h : char ∈ fractionChars value places) : char.isDigit = true := by
  obtain ⟨zeros, hzeros⟩ := exists_zeros_fractionChars value places
  have hmem : char ∈ paddedDigits value places := by
    rw [hzeros]
    exact List.mem_append_left _ h
  exact isDigit_of_mem_paddedDigits hmem

/-- The zeros at the end of the fraction stand for powers of ten. -/
theorem digitsValue_fractionChars {value places : ℕ} (h : value < 10 ^ places) :
    (fractionChars value places).length ≤ places ∧
      digitsValue (fractionChars value places) *
        10 ^ (places - (fractionChars value places).length) = value := by
  obtain ⟨zeros, hzeros⟩ := exists_zeros_fractionChars value places
  have hvalue : digitsValue (fractionChars value places) * 10 ^ zeros = value := by
    have hpadded := digitsValue_paddedDigits value places
    rw [hzeros, digitsValue_append] at hpadded
    simpa using hpadded
  rcases Nat.eq_zero_or_pos places with rfl | hplaces
  · have hzero : value = 0 := by simpa using h
    subst hzero
    simp [fractionChars, Nat.toDigits_zero, digitsValue]
  · have hlength := length_paddedDigits hplaces h
    rw [hzeros, List.length_append, List.length_replicate] at hlength
    have hrest : places - (fractionChars value places).length = zeros := by omega
    exact ⟨by omega, by rw [hrest, hvalue]⟩

/-! ## The two parts -/

/-- The decimal as a count of its last place. -/
def scaled (decimal : Decimal) : ℕ :=
  decimal.coefficient * Nat.pow 10 decimal.exponent.toNat

def places (decimal : Decimal) : ℕ :=
  (-decimal.exponent).toNat

def wholePart (decimal : Decimal) : List Char :=
  Nat.toDigits 10 (decimal.scaled / 10 ^ decimal.places)

def fractionPart (decimal : Decimal) : List Char :=
  fractionChars (decimal.scaled % 10 ^ decimal.places) decimal.places

variable {decimal : Decimal} {char : Char}

theorem toBinary64_eq (decimal : Decimal) (negative : Bool) :
    decimal.toBinary64 negative =
      Binary64.ofRatio negative (decimal.scaled * oneUnits) (10 ^ decimal.places) :=
  rfl

theorem chars_eq (decimal : Decimal) :
    decimal.chars = if decimal.fractionPart = [] then decimal.wholePart
      else decimal.wholePart ++ '.' :: decimal.fractionPart := by
  unfold chars
  dsimp only
  split
  next hempty =>
    have hfraction : decimal.fractionPart = [] := hempty
    rw [if_pos hfraction]
    rfl
  next hnonempty =>
    have hfraction : decimal.fractionPart ≠ [] := hnonempty
    rw [if_neg hfraction]
    rfl

theorem isDigit_of_mem_wholePart (h : char ∈ decimal.wholePart) : char.isDigit = true :=
  isDigit_of_mem_toDigits h

theorem isDigit_of_mem_fractionPart (h : char ∈ decimal.fractionPart) : char.isDigit = true :=
  isDigit_of_mem_fractionChars h

theorem isDigit_or_point_of_mem_chars (h : char ∈ decimal.chars) :
    char.isDigit = true ∨ char = '.' := by
  rw [chars_eq] at h
  split at h
  · exact .inl (isDigit_of_mem_wholePart h)
  · rw [List.mem_append, List.mem_cons] at h
    rcases h with h | rfl | h
    · exact .inl (isDigit_of_mem_wholePart h)
    · exact .inr rfl
    · exact .inl (isDigit_of_mem_fractionPart h)

theorem exists_digit_chars (decimal : Decimal) :
    ∃ digit rest, decimal.chars = digit :: rest ∧ digit.isDigit = true := by
  have hne : decimal.wholePart ≠ [] := Nat.toDigits_ne_nil
  obtain ⟨digit, others, hwhole⟩ := List.exists_cons_of_ne_nil hne
  have hdigit : digit.isDigit = true :=
    isDigit_of_mem_wholePart (hwhole ▸ List.mem_cons_self)
  rw [chars_eq, hwhole]
  split
  · exact ⟨digit, others, rfl, hdigit⟩
  · exact ⟨digit, _, rfl, hdigit⟩

/-! ## Reading -/

theorem ofChars?_digits {digits : List Char} (hne : digits ≠ [])
    (hdigits : ∀ char ∈ digits, char.isDigit = true) :
    ofChars? digits = some ⟨digitsValue digits, 0⟩ := by
  have htake : digits.takeWhile Char.isDigit = digits := List.takeWhile_eq_self_iff.mpr hdigits
  have hdrop : digits.dropWhile Char.isDigit = [] := List.dropWhile_eq_nil_iff.mpr hdigits
  simp [ofChars?, htake, hdrop, hne]

theorem ofChars?_point {whole fraction : List Char} (hne : whole ++ fraction ≠ [])
    (hwhole : ∀ char ∈ whole, char.isDigit = true)
    (hfraction : ∀ char ∈ fraction, char.isDigit = true) :
    ofChars? (whole ++ '.' :: fraction) =
      some ⟨digitsValue (whole ++ fraction), -(fraction.length : ℤ)⟩ := by
  have htake : (whole ++ '.' :: fraction).takeWhile Char.isDigit = whole := by
    rw [List.takeWhile_append_of_pos hwhole]
    simp
  have hdrop : (whole ++ '.' :: fraction).dropWhile Char.isDigit = '.' :: fraction := by
    rw [List.dropWhile_append_of_pos hwhole]
    simp
  have hall : fraction.all Char.isDigit = true := List.all_eq_true.mpr hfraction
  have hdigit : (whole ++ fraction).isEmpty = false := List.isEmpty_eq_false_iff.mpr hne
  simp [ofChars?, htake, hdrop, hall, hdigit]

theorem ofRatio_congr {n d m e : ℕ} (negative : Bool) (hd : 0 < d) (he : 0 < e)
    (h : n * e = m * d) :
    Binary64.ofRatio negative n d = Binary64.ofRatio negative m e := by
  simp only [Binary64.ofRatio, roundUnits_congr hd he h]

/-- As many powers of ten may be left out of both sides as there are places. -/
theorem toBinary64_of_places {coefficient length : ℕ} (hlength : length ≤ decimal.places)
    (h : coefficient * 10 ^ (decimal.places - length) = decimal.scaled) (negative : Bool) :
    toBinary64 ⟨coefficient, -(length : ℤ)⟩ negative = decimal.toBinary64 negative := by
  have hnumerator : (-(length : ℤ)).toNat = 0 := by omega
  have hdenominator : (- -(length : ℤ)).toNat = length := by omega
  have hplaces : 10 ^ (decimal.places - length) * 10 ^ length = 10 ^ decimal.places := by
    rw [← Nat.pow_add, Nat.sub_add_cancel hlength]
  rw [toBinary64_eq decimal]
  unfold toBinary64
  rw [hnumerator, hdenominator]
  apply ofRatio_congr negative (Nat.pow_pos (by decide)) (Nat.pow_pos (by decide))
  simp only [Nat.pow_eq, Nat.pow_zero, Nat.mul_one]
  rw [← hplaces, ← h]
  ring

/-- The positional form is a numeral, and reads as the same number. -/
theorem ofChars?_chars (decimal : Decimal) :
    ∃ read, ofChars? decimal.chars = some read ∧
      ∀ negative, read.toBinary64 negative = decimal.toBinary64 negative := by
  have hbelow : decimal.scaled % 10 ^ decimal.places < 10 ^ decimal.places :=
    Nat.mod_lt _ (Nat.pow_pos (by decide))
  obtain ⟨hlength, hvalue⟩ : decimal.fractionPart.length ≤ decimal.places ∧
      digitsValue decimal.fractionPart * 10 ^ (decimal.places - decimal.fractionPart.length) =
        decimal.scaled % 10 ^ decimal.places :=
    digitsValue_fractionChars hbelow
  have hwhole : ∀ char ∈ decimal.wholePart, char.isDigit = true :=
    fun char => isDigit_of_mem_wholePart
  have hwholeValue : digitsValue decimal.wholePart = decimal.scaled / 10 ^ decimal.places :=
    digitsValue_toDigits _
  rw [chars_eq]
  by_cases hfraction : decimal.fractionPart = []
  · have hzero : decimal.scaled % 10 ^ decimal.places = 0 := by
      rw [← hvalue]
      simp [hfraction, digitsValue]
    have hexact : digitsValue decimal.wholePart * 10 ^ (decimal.places - 0) = decimal.scaled := by
      rw [hwholeValue]
      exact Nat.div_mul_cancel (Nat.dvd_of_mod_eq_zero hzero)
    have hread := toBinary64_of_places (Nat.zero_le _) hexact
    rw [Int.natCast_zero, Int.neg_zero] at hread
    rw [if_pos hfraction]
    exact ⟨_, ofChars?_digits Nat.toDigits_ne_nil hwhole, hread⟩
  · have hdigits : ∀ char ∈ decimal.fractionPart, char.isDigit = true :=
      fun char => isDigit_of_mem_fractionPart
    have hplaces : 10 ^ decimal.fractionPart.length *
        10 ^ (decimal.places - decimal.fractionPart.length) = 10 ^ decimal.places := by
      rw [← Nat.pow_add, Nat.add_sub_cancel' hlength]
    have hexact : digitsValue (decimal.wholePart ++ decimal.fractionPart) *
        10 ^ (decimal.places - decimal.fractionPart.length) = decimal.scaled := by
      rw [digitsValue_append, Nat.add_mul, Nat.mul_assoc, hplaces, hwholeValue, hvalue]
      exact Nat.div_add_mod' decimal.scaled _
    rw [if_neg hfraction]
    have hne : decimal.wholePart ++ decimal.fractionPart ≠ [] :=
      List.append_ne_nil_of_left_ne_nil Nat.toDigits_ne_nil _
    exact ⟨_, ofChars?_point hne hwhole hdigits, toBinary64_of_places hlength hexact⟩

/-! ## Whole numbers -/

/-- The decimal stands for a whole number, whatever its places are. -/
def IsWhole (decimal : Decimal) (value : ℕ) : Prop :=
  decimal.scaled = value * 10 ^ decimal.places

theorem fractionChars_zero (places : ℕ) : fractionChars 0 places = [] := by
  have hzeros : ∀ char ∈ (paddedDigits 0 places).reverse, (char == '0') = true := by
    intro char hchar
    rw [List.mem_reverse, paddedDigits, List.mem_append, Nat.toDigits_zero,
      List.mem_singleton] at hchar
    rcases hchar with hzero | rfl
    · rw [List.eq_of_mem_replicate hzero]
      decide
    · decide
  have hdrop := List.dropWhile_eq_nil_iff.mpr hzeros
  unfold paddedDigits at hdrop
  simp only [fractionChars, hdrop, List.reverse_nil]

theorem IsWhole.chars_eq {value : ℕ} (h : decimal.IsWhole value) :
    decimal.chars = Nat.toDigits 10 value := by
  have hpos : 0 < 10 ^ decimal.places := Nat.pow_pos (by decide)
  have hfraction : decimal.fractionPart = [] := by
    rw [fractionPart, h, Nat.mul_mod_left, fractionChars_zero]
  rw [Decimal.chars_eq, if_pos hfraction, wholePart, h, Nat.mul_div_cancel _ hpos]

theorem IsWhole.toBinary64_eq {value : ℕ} (h : decimal.IsWhole value) (negative : Bool) :
    decimal.toBinary64 negative = .ofRatio negative (value * oneUnits) 1 := by
  rw [Decimal.toBinary64_eq]
  apply ofRatio_congr negative (Nat.pow_pos (by decide)) Nat.one_pos
  rw [h]
  ring

theorem isWhole_scaled (h : 0 ≤ decimal.exponent) : decimal.IsWhole decimal.scaled := by
  have hplaces : decimal.places = 0 := by
    unfold places
    omega
  rw [IsWhole, hplaces, pow_zero, mul_one]

theorem isWhole_of_exponent {value places : ℕ} (hexponent : decimal.exponent = -(places : ℤ))
    (hcoefficient : decimal.coefficient = value * 10 ^ places) : decimal.IsWhole value := by
  have hplaces : decimal.places = places := by
    unfold Decimal.places
    omega
  have hnone : decimal.exponent.toNat = 0 := by omega
  rw [IsWhole, hplaces, scaled, hnone, hcoefficient, Nat.pow_eq, pow_zero, mul_one]

end Decimal

end SolarTakeoff
