import SolarTakeoff.Decimal.Reading
import SolarTakeoff.Decimal.Shortest
import SolarTakeoff.Proofs.Binary64.Whole
import SolarTakeoff.Proofs.Decimal.Positional
import SolarTakeoff.Quantity
import Mathlib.Tactic

/-!
# Numbers read back from their texts

The search for a shortest text only stops at decimals that read back, and where
nothing may be left out it stops at the whole expansion, which is exact.  So
every number reads back from its text, not-a-number and the infinities by their
words.

The brief form writes small whole numbers as integers.  It reads back too, but
for the sign of zero: what is read lies at the same position.
-/

namespace SolarTakeoff

attribute [local irreducible] oneUnits unitsLimit

/-! ## The decimals of a magnitude -/

theorem Decimal.searchFrom_induction (P : Decimal → Prop) {attempt? : ℕ → Option Decimal}
    {exact : Decimal} (hexact : P exact)
    (hattempt : ∀ dropped decimal, attempt? dropped = some decimal → P decimal) (dropped : ℕ) :
    P (searchFrom attempt? exact dropped) := by
  induction dropped with
  | zero => exact hexact
  | succ dropped ih =>
      unfold searchFrom
      split
      next decimal hdecimal => exact hattempt _ decimal hdecimal
      next => exact ih

namespace Binary64

theorem ofRatio_units (negative : Bool) (magnitude : Magnitude) :
    ofRatio negative magnitude.units 1 = .finite negative magnitude := by
  obtain ⟨units, hbounded, haligned⟩ := magnitude
  have hexact := roundUnits_of_aligned haligned
  simp only [ofRatio, hexact, hbounded, dif_pos]

theorem ofRatio_sign {negative : Bool} {numerator denominator : ℕ} {magnitude : Magnitude}
    (h : ofRatio false numerator denominator = .finite false magnitude) :
    ofRatio negative numerator denominator = .finite negative magnitude := by
  unfold ofRatio at h ⊢
  split at h
  next hlt =>
    rw [dif_pos hlt]
    injection h with _ hmagnitude
    rw [hmagnitude]
  next => simp at h

end Binary64

namespace Magnitude

variable {magnitude : Magnitude} {decimal : Decimal}

theorem toBinary64_of_readsBack (h : magnitude.readsBack decimal = true) (negative : Bool) :
    decimal.toBinary64 negative = .finite negative magnitude := by
  have hread : decimal.toBinary64 false = .finite false magnitude := by
    simpa [readsBack] using h
  exact Binary64.ofRatio_sign hread

theorem readsBack_expansion (magnitude : Magnitude) :
    magnitude.readsBack ⟨magnitude.expansion, -1074⟩ = true := by
  have hexact : magnitude.expansion * oneUnits * 1 = magnitude.units * 10 ^ 1074 := by
    unfold expansion oneUnits
    generalize 1074 = limit
    have hten : (10 : ℕ) ^ limit = 5 ^ limit * 2 ^ limit := by rw [← Nat.mul_pow]
    simp only [Nat.pow_eq, hten]
    ring
  have hscaled : Decimal.scaled ⟨magnitude.expansion, -1074⟩ = magnitude.expansion :=
    Nat.mul_one _
  have hplaces : Decimal.places ⟨magnitude.expansion, -1074⟩ = 1074 := rfl
  have hread := Decimal.toBinary64_eq ⟨magnitude.expansion, -1074⟩ false
  rw [hscaled, hplaces,
    Decimal.ofRatio_congr false (pow_pos (by decide) _) Nat.one_pos hexact,
    Binary64.ofRatio_units] at hread
  rw [readsBack, hread]
  exact beq_self_eq_true _

theorem readsBack_of_neighbour? {dropped : ℕ}
    (h : magnitude.neighbour? dropped = some decimal) : magnitude.readsBack decimal = true := by
  simp only [neighbour?] at h
  split at h
  next hlower =>
    injection h with hdecimal
    simp only [Bool.and_eq_true] at hlower
    rw [← hdecimal]
    exact hlower.1
  next =>
    split at h
    next hupper =>
      injection h with hdecimal
      rwa [← hdecimal]
    next => cases h

theorem toBinary64_shortest (magnitude : Magnitude) (negative : Bool) :
    magnitude.shortest.toBinary64 negative = .finite negative magnitude := by
  have hfound : magnitude.readsBack magnitude.shortest = true := by
    unfold shortest
    apply Decimal.searchFrom_induction (fun decimal => magnitude.readsBack decimal = true)
    · exact magnitude.readsBack_expansion
    · intro dropped decimal
      exact readsBack_of_neighbour?
  exact toBinary64_of_readsBack hfound negative

end Magnitude

/-! ## Unsigned numerals -/

theorem toLower_of_isDigit {char : Char} (h : char.isDigit = true) : char.toLower = char := by
  simp only [Char.isDigit, Bool.and_eq_true, decide_eq_true_eq, UInt32.le_iff_toNat_le] at h
  have hupper : ¬ (char.val ≥ 'A'.val ∧ char.val ≤ 'Z'.val) := by
    simp only [ge_iff_le, UInt32.le_iff_toNat_le]
    have hlast : '9'.val.toNat < 'A'.val.toNat := by decide
    omega
  exact dif_neg hupper

namespace Decimal

theorem ofScientific?_of_numeral {chars : List Char}
    (h : ∀ char ∈ chars, char.isDigit = true ∨ char = '.') :
    ofScientific? chars = ofChars? chars := by
  have hplain : ∀ char ∈ chars, (!(char == 'e' || char == 'E')) = true := by
    intro char hchar
    rcases h char hchar with hdigit | rfl
    · have hsmall : char ≠ 'e' := ne_of_isDigit hdigit (by decide)
      have hcapital : char ≠ 'E' := ne_of_isDigit hdigit (by decide)
      simp [hsmall, hcapital]
    · decide
  have htake := List.takeWhile_eq_self_iff.mpr hplain
  have hdrop := List.dropWhile_eq_nil_iff.mpr hplain
  simp only [ofScientific?, htake, hdrop]
  cases ofChars? chars <;> rfl

end Decimal

namespace Binary64

/-- A numeral starts with a digit and is none of the words. -/
theorem unsignedOfChars?_of_numeral {digit : Char} {rest : List Char} (negative : Bool)
    (hdigit : digit.isDigit = true)
    (h : ∀ char ∈ digit :: rest, char.isDigit = true ∨ char = '.') :
    unsignedOfChars? negative (digit :: rest) =
      (Decimal.ofChars? (digit :: rest)).map (·.toBinary64 negative) := by
  rw [← Decimal.ofScientific?_of_numeral h]
  have hword : ∀ first others, first.isDigit = false →
      String.ofList ((digit :: rest).map Char.toLower) ≠ String.ofList (first :: others) := by
    intro first others hfirst heq
    have hlist := congrArg String.toList heq
    simp only [String.toList_ofList, List.map_cons, List.cons.injEq, toLower_of_isDigit hdigit] at hlist
    exact ne_of_isDigit hdigit hfirst hlist.1
  unfold unsignedOfChars?
  split
  next heq => exact absurd heq (hword 'n' ['a', 'n'] (by decide))
  next heq => exact absurd heq (hword 'i' ['n', 'f'] (by decide))
  next heq => exact absurd heq (hword 'i' ['n', 'f', 'i', 'n', 'i', 't', 'y'] (by decide))
  next => rfl

/-! ## Texts -/

/-- The sign of a text is the sign of what is read. -/
theorem ofText?_numeral (negative : Bool) {numeral : List Char}
    (hstart : ∃ digit rest, numeral = digit :: rest ∧ digit.isDigit = true)
    (h : ∀ char ∈ numeral, char.isDigit = true ∨ char = '.') :
    ofText? (String.ofList ((if negative then ['-'] else []) ++ numeral)) =
      (Decimal.ofChars? numeral).map (·.toBinary64 negative) := by
  obtain ⟨digit, rest, rfl, hdigit⟩ := hstart
  rw [← unsignedOfChars?_of_numeral negative hdigit h]
  unfold ofText?
  rw [String.toList_ofList]
  cases negative with
  | true => rfl
  | false =>
      have hminus : digit ≠ '-' := ne_of_isDigit hdigit (by decide)
      have hplus : digit ≠ '+' := ne_of_isDigit hdigit (by decide)
      simp only [Bool.false_eq_true, if_false, List.nil_append]
      split
      next heq => exact absurd (List.cons.inj heq).1 hminus
      next heq => exact absurd (List.cons.inj heq).1 hplus
      next => rfl

/-- Every number reads back from its text. -/
theorem ofText?_text (x : Binary64) : ofText? x.text = some x := by
  cases x with
  | nan => decide
  | infinite negative => cases negative <;> decide
  | finite negative magnitude =>
      obtain ⟨read, hread, hsame⟩ := Decimal.ofChars?_chars magnitude.shortest
      have hnumeral := ofText?_numeral negative (Decimal.exists_digit_chars magnitude.shortest)
        (fun _ => Decimal.isDigit_or_point_of_mem_chars)
      rw [hread, Option.map_some, hsame, magnitude.toBinary64_shortest] at hnumeral
      exact hnumeral

/-! ## Brief texts -/

theorem ofText?_toString (value : ℤ) : ofText? (toString value) = some (ofInt value) := by
  have hdigits : ∀ char ∈ Nat.toDigits 10 value.natAbs, char.isDigit = true :=
    fun _ => isDigit_of_mem_toDigits
  have hne : Nat.toDigits 10 value.natAbs ≠ [] := Nat.toDigits_ne_nil
  obtain ⟨digit, rest, hstart⟩ := List.exists_cons_of_ne_nil hne
  have hdigit : digit.isDigit = true := hdigits digit (by simp [hstart])
  have hsign : decide (value * (oneUnits : ℤ) < 0) = decide (value < 0) := by
    have hpos : (0 : ℤ) < oneUnits := by exact_mod_cast oneUnits_pos
    rw [decide_eq_decide]
    constructor
    · intro hproduct
      exact neg_of_mul_neg_left hproduct hpos.le
    · intro hvalue
      exact Int.mul_neg_of_neg_of_pos hvalue hpos
  have hread := ofText?_numeral (decide (value < 0)) ⟨digit, rest, hstart, hdigit⟩
    (fun char hchar => .inl (hdigits char hchar))
  rw [← toString_eq_ofList, Decimal.ofChars?_digits hne hdigits, digitsValue_toDigits] at hread
  rw [hread, ofInt, ofUnits, hsign, Int.natAbs_mul, Int.natAbs_natCast, Option.map_some,
    Decimal.toBinary64_eq]
  simp [Decimal.scaled, Decimal.places]

theorem position?_ofUnits_signedUnits (negative : Bool) (magnitude : Magnitude) :
    (ofUnits (signedUnits negative magnitude)).position? =
      some (signedUnits negative magnitude) := by
  rw [ofUnits, natAbs_signedUnits, ofRatio_units, position?_finite]
  cases negative <;> simp [signedUnits]

theorem toInt_toInt64_of_whole {negative : Bool} {magnitude : Magnitude} {value : ℕ}
    (hvalue : magnitude.units = value * oneUnits) (hbound : value < 2 ^ 63) :
    (finite negative magnitude).toInt64.toInt = if negative then -(value : ℤ) else value := by
  have hpos : (0 : ℤ) < oneUnits := by exact_mod_cast oneUnits_pos
  have hwhole : (signedUnits negative magnitude).tdiv oneUnits =
      if negative then -(value : ℤ) else value := by
    cases negative <;>
      simp [signedUnits, hvalue, Int.neg_tdiv, Int.mul_tdiv_cancel _ hpos.ne']
  rw [toInt_toInt64 (position?_finite negative magnitude), hwhole]
  unfold clamped
  split <;> omega

theorem exists_whole_of_brief {x : Binary64}
    (h : (x.isWhole && x.abs.lt (.ofNat 1000000000000000)) = true) :
    ∃ negative magnitude value, x = finite negative magnitude ∧
      magnitude.units = value * oneUnits ∧ value < 1000000000000000 := by
  obtain ⟨hwhole, hsmall⟩ := Bool.and_eq_true_iff.mp h
  cases x with
  | nan => cases hwhole
  | infinite negative => cases hwhole
  | finite negative magnitude =>
      have hdvd : oneUnits ∣ magnitude.units :=
        Nat.dvd_of_mod_eq_zero (by simpa [isWhole] using hwhole)
      obtain ⟨value, hvalue⟩ := hdvd
      obtain ⟨limit, hlimit, hunits⟩ := exists_magnitude_ofNat
        (show 1000000000000000 ≤ Nat.pow 2 53 by decide)
      rw [hlimit] at hsmall
      obtain ⟨a, b, ha, hb, hab⟩ := lt_eq_true_iff.mp hsmall
      obtain rfl : (magnitude.units : ℤ) = a := Option.some.inj ha
      obtain rfl : (limit.units : ℤ) = b := Option.some.inj hb
      have hbelow : value * oneUnits < 1000000000000000 * oneUnits := by
        rw [← hunits, Nat.mul_comm value, ← hvalue]
        exact_mod_cast hab
      exact ⟨negative, magnitude, value, rfl, hvalue.trans (Nat.mul_comm _ _),
        Nat.lt_of_mul_lt_mul_right hbelow⟩

/-- A brief text reads back, though zero loses its sign. -/
theorem exists_read_brief (x : Binary64) :
    ∃ read, ofText? x.brief = some read ∧ read.position? = x.position? := by
  unfold brief
  split
  next h =>
    obtain ⟨negative, magnitude, value, rfl, hvalue, hbound⟩ := exists_whole_of_brief h
    have hsigned : (finite negative magnitude).toInt64.toInt * oneUnits =
        signedUnits negative magnitude := by
      rw [toInt_toInt64_of_whole hvalue (by omega)]
      cases negative <;> simp [signedUnits, hvalue]
    refine ⟨_, ofText?_toString _, ?_⟩
    rw [ofInt, hsigned]
    exact position?_ofUnits_signedUnits negative magnitude
  next => exact ⟨x, ofText?_text x, rfl⟩

/-- The characters of the texts of numbers. -/
def isFigureChar (char : Char) : Bool :=
  char.isDigit || char ∈ ['-', '.', 'N', 'a', 'i', 'n', 'f']

theorem isFigureChar_of_mem_signed {negative : Bool} {chars : List Char} {char : Char}
    (hchars : ∀ other ∈ chars, other.isDigit = true ∨ other = '.')
    (h : char ∈ (if negative then ['-'] else []) ++ chars) : isFigureChar char = true := by
  rcases List.mem_append.mp h with hsign | hchar
  · cases negative with
    | true =>
        obtain rfl : char = '-' := by simpa using hsign
        decide
    | false => cases hsign
  · rcases hchars char hchar with hdigit | rfl
    · simp [isFigureChar, hdigit]
    · decide

theorem isFigureChar_of_mem_chars {x : Binary64} {char : Char} (h : char ∈ x.chars) :
    isFigureChar char = true := by
  cases x with
  | nan =>
      have hall : Binary64.nan.chars.all isFigureChar = true := by decide
      exact List.all_eq_true.mp hall char h
  | infinite negative =>
      have hall : (Binary64.infinite negative).chars.all isFigureChar = true := by
        cases negative <;> decide
      exact List.all_eq_true.mp hall char h
  | finite negative magnitude =>
      exact isFigureChar_of_mem_signed (fun _ => Decimal.isDigit_or_point_of_mem_chars) h

theorem isFigureChar_of_mem_brief {x : Binary64} {char : Char} (h : char ∈ x.brief.toList) :
    isFigureChar char = true := by
  unfold brief at h
  split at h
  · rw [toString_eq_ofList, String.toList_ofList] at h
    exact isFigureChar_of_mem_signed (fun _ hother => .inl (isDigit_of_mem_toDigits hother)) h
  · rw [text, String.toList_ofList] at h
    exact isFigureChar_of_mem_chars h

end Binary64

end SolarTakeoff
