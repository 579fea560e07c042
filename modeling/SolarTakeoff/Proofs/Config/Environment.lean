import SolarTakeoff.Config.Environment
import Mathlib.Tactic

/-!
# What a variable means

Every text of a path or of a list of categories means something, a flag and a
rate must be well formed.  A setting is settled by its variable where the text
of this means something, else by what is given otherwise, else by default.
-/

namespace SolarTakeoff

/-- Every text is a path. -/
def IsPathText (path : Option String) (text : String) : Prop :=
  path = some text

/-- A flag in any case of letters. -/
def IsFlagText (flag : Bool) (text : String) : Prop :=
  String.ofList ((trimBlanks text.toList).map Char.toLower) ∈
    if flag then ["1", "true", "yes"] else ["0", "false", "no"]

/-- The names in a list with commas; without any, no restriction. -/
def IsCategoryText (categories : Option (List String)) (text : String) : Prop :=
  categories = if categoryNames text = [] then none else some (categoryNames text)

structure IsRateNumeral (rate : TaxRate) (digits : List Char) : Prop where
  nonempty : digits ≠ []
  decimal : ∀ digit ∈ digits, digit.isDigit = true
  value : digitsValue digits = rate.bps.toNat

/-- A numeral between blanks, perhaps with a plus sign in front. -/
def IsRateText (rate : TaxRate) (text : String) : Prop :=
  IsRateNumeral rate (trimBlanks text.toList) ∨
    ∃ digits, trimBlanks text.toList = '+' :: digits ∧ IsRateNumeral rate digits

theorem flag?_eq_some_iff {text : String} {flag : Bool} :
    flag? text = some flag ↔ IsFlagText flag text := by
  unfold flag? IsFlagText
  generalize String.ofList ((trimBlanks text.toList).map Char.toLower) = word
  split <;> cases flag <;> simp_all

theorem categoryFilter_eq_iff {text : String} {categories : Option (List String)} :
    categoryFilter text = categories ↔ IsCategoryText categories text := by
  unfold categoryFilter IsCategoryText
  cases categoryNames text <;> simp [eq_comm]

theorem IsRateNumeral.head_ne_plus {rate : TaxRate} {digits : List Char} :
    ¬ IsRateNumeral rate ('+' :: digits) := by
  intro h
  have hplus : '+'.isDigit = true := h.decimal '+' List.mem_cons_self
  cases hplus

theorem isRateNumeral_iff {rate : TaxRate} {digits : List Char} :
    IsRateNumeral rate digits ↔
      (digits.all Char.isDigit && !digits.isEmpty && digitsValue digits ≤ 4294967295) = true ∧
        ⟨.ofNat (digitsValue digits)⟩ = rate := by
  simp only [Bool.and_eq_true, List.all_eq_true, Bool.not_eq_true', List.isEmpty_eq_false_iff,
    decide_eq_true_eq]
  constructor
  · rintro ⟨hne, hdigits, hvalue⟩
    have hlt := rate.bps.toNat_lt
    exact ⟨⟨⟨hdigits, hne⟩, by omega⟩, by rw [hvalue, UInt32.ofNat_toNat]⟩
  · rintro ⟨⟨⟨hdigits, hne⟩, hle⟩, rfl⟩
    have hlt : digitsValue digits < UInt32.size := Nat.lt_succ_of_le hle
    exact ⟨hne, hdigits, (UInt32.toNat_ofNat_of_lt' hlt).symm⟩

theorem TaxRate.ofText?_eq_some_iff {text : String} {rate : TaxRate} :
    ofText? text = some rate ↔ IsRateText rate text := by
  unfold ofText? IsRateText
  split
  next digits hplus =>
    rw [hplus, or_iff_right IsRateNumeral.head_ne_plus]
    simp [isRateNumeral_iff]
  next hplus =>
    have hnone : ¬ ∃ digits, trimBlanks text.toList = '+' :: digits ∧ IsRateNumeral rate digits :=
      fun ⟨digits, h, _⟩ => hplus digits h
    rw [or_iff_left hnone, isRateNumeral_iff]
    simp

variable {α : Type}

/-- A setting has the value of its variable, where the text of this means
something; else the value that is given; else the default. -/
inductive Settles (text? : Option String) (Means : α → String → Prop) (given : Option α)
    (default : α) : α → Prop
  | environment {text : String} {value : α} (hset : text? = some text)
    (h : Means value text) : Settles text? Means given default value
  | file {value : α} (hunset : ∀ text ∈ text?, ∀ other, ¬ Means other text)
    (h : given = some value) : Settles text? Means given default value
  | default (hunset : ∀ text ∈ text?, ∀ other, ¬ Means other text)
    (h : given = none) : Settles text? Means given default default

theorem settles_iff {read? : String → Option α} {Means : α → String → Prop}
    (hread : ∀ text value, read? text = some value ↔ Means value text)
    {text? : Option String} {given : Option α} {default value : α} :
    Settles text? Means given default value ↔
      (text?.bind read?).getD (given.getD default) = value := by
  have hnone : text?.bind read? = none ↔ ∀ text ∈ text?, ∀ other, ¬ Means other text := by
    rw [Option.bind_eq_none_iff]
    refine forall₂_congr fun text _ => ?_
    rw [Option.eq_none_iff_forall_ne_some]
    exact forall_congr' fun other => not_congr (hread text other)
  constructor
  · intro h
    cases h with
    | environment hset h => simp [hset, (hread _ _).mpr h]
    | file hunset h => simp [hnone.mpr hunset, h]
    | default hunset h => simp [hnone.mpr hunset, h]
  · rintro rfl
    cases hbind : text?.bind read? with
    | some value =>
        obtain ⟨text, hset, htext⟩ := Option.bind_eq_some_iff.mp hbind
        exact .environment hset ((hread _ _).mp htext)
    | none =>
        cases given with
        | some value => exact .file (hnone.mp hbind) rfl
        | none => exact .default (hnone.mp hbind) rfl

end SolarTakeoff
