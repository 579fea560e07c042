import SolarTakeoff.Formula.Lexeme
import SolarTakeoff.Proofs.Decimal.Positional
import Mathlib.Tactic

/-!
# Runs of digits and points that are numbers

A run of digits and points is a number when it has some digit and no second
point.  Its value is the binary64 number nearest to the digits, with as many
places as there are digits after the point.

The reader of numerals asks for digits, and for more digits after a point if one
comes; that is the same.
-/

namespace SolarTakeoff

def IsDigit (char : Char) : Prop :=
  '0' ≤ char ∧ char ≤ '9'

/-- The characters that numbers are made of. -/
def IsFigure (char : Char) : Prop :=
  IsDigit char ∨ char = '.'

structure IsDecimal (run : List Char) : Prop where
  figures : ∀ char ∈ run, IsFigure char
  digit : ∃ char ∈ run, IsDigit char
  point : run.count '.' ≤ 1

def decimalValue (run : List Char) : Binary64 :=
  .ofRatio false (digitsValue (run.filter (· != '.')) * oneUnits)
    (10 ^ (run.dropWhile (· != '.')).tail.length)

theorem isDigit_iff {char : Char} : char.isDigit = true ↔ IsDigit char := by
  simp [Char.isDigit, IsDigit, Char.le_def]

variable {run whole fraction : List Char}

theorem IsDecimal.ne_nil (h : IsDecimal run) : run ≠ [] := by
  obtain ⟨digit, hmem, -⟩ := h.digit
  exact List.ne_nil_of_mem hmem

/-! ## The two shapes -/

theorem isDecimal_digits (hne : run ≠ []) (h : ∀ char ∈ run, char.isDigit = true) :
    IsDecimal run := by
  obtain ⟨digit, hdigit⟩ := List.exists_mem_of_ne_nil run hne
  have hpoint : '.' ∉ run := fun hmem => absurd (h '.' hmem) (by decide)
  refine ⟨?_, ⟨digit, hdigit, isDigit_iff.mp (h digit hdigit)⟩, ?_⟩
  · exact fun char hchar => .inl (isDigit_iff.mp (h char hchar))
  · rw [List.count_eq_zero.mpr hpoint]
    exact Nat.zero_le 1

theorem isDecimal_point (hne : whole ++ fraction ≠ [])
    (h : ∀ char ∈ whole ++ fraction, char.isDigit = true) :
    IsDecimal (whole ++ '.' :: fraction) := by
  have hdecimal := isDecimal_digits hne h
  obtain ⟨digit, hmem, hdigit⟩ := hdecimal.digit
  have hperm : (whole ++ '.' :: fraction).Perm ('.' :: (whole ++ fraction)) :=
    List.perm_middle
  refine ⟨?_, ⟨digit, hperm.mem_iff.mpr (List.mem_cons_of_mem _ hmem), hdigit⟩, ?_⟩
  · intro char hchar
    rcases List.mem_cons.mp (hperm.mem_iff.mp hchar) with rfl | hchar
    · exact .inr rfl
    · exact hdecimal.figures char hchar
  · have hpoint : '.' ∉ whole ++ fraction := fun hmem => absurd (h '.' hmem) (by decide)
    rw [hperm.count_eq, List.count_cons_self, List.count_eq_zero.mpr hpoint]

theorem isDigit_of_isFigure {char : Char} (h : IsFigure char) (hpoint : char ≠ '.') :
    char.isDigit = true :=
  isDigit_iff.mpr (h.resolve_right hpoint)

/-- There is no point, or the only one splits the digits in two. -/
theorem IsDecimal.shape (h : IsDecimal run) :
    (run ≠ [] ∧ ∀ char ∈ run, char.isDigit = true) ∨
      ∃ whole fraction, run = whole ++ '.' :: fraction ∧ whole ++ fraction ≠ [] ∧
        ∀ char ∈ whole ++ fraction, char.isDigit = true := by
  by_cases hpoint : '.' ∈ run
  · obtain ⟨whole, fraction, rfl, hwhole⟩ := List.eq_append_cons_of_mem hpoint
    have hcount := h.point
    rw [List.count_append, List.count_cons_self, List.count_eq_zero.mpr hwhole] at hcount
    have hfraction : '.' ∉ fraction := List.count_eq_zero.mp (by omega)
    have hdigits : ∀ char ∈ whole ++ fraction, char.isDigit = true := by
      intro char hchar
      have hother : char ≠ '.' := by
        rintro rfl
        rcases List.mem_append.mp hchar with hchar | hchar
        · exact hwhole hchar
        · exact hfraction hchar
      have hrun : char ∈ whole ++ '.' :: fraction :=
        List.perm_middle.mem_iff.mpr (List.mem_cons_of_mem _ hchar)
      exact isDigit_of_isFigure (h.figures char hrun) hother
    have hne : whole ++ fraction ≠ [] := by
      obtain ⟨digit, hmem, hdigit⟩ := h.digit
      have hother : digit ≠ '.' := ne_of_isDigit (isDigit_iff.mpr hdigit) (by decide)
      apply List.ne_nil_of_mem (a := digit)
      simpa [hother] using hmem
    exact .inr ⟨whole, fraction, rfl, hne, hdigits⟩
  · refine .inl ⟨h.ne_nil, fun char hchar => isDigit_of_isFigure (h.figures char hchar) ?_⟩
    rintro rfl
    exact hpoint hchar

/-! ## Values -/

theorem bne_point_of_isDigit {char : Char} (h : char.isDigit = true) : (char != '.') = true :=
  bne_iff_ne.mpr (ne_of_isDigit h (by decide))

theorem decimalValue_digits (h : ∀ char ∈ run, char.isDigit = true) :
    decimalValue run = Decimal.toBinary64 ⟨digitsValue run, 0⟩ false := by
  have hplain : ∀ char ∈ run, (char != '.') = true :=
    fun char hchar => bne_point_of_isDigit (h char hchar)
  rw [decimalValue, List.filter_eq_self.mpr hplain, List.dropWhile_eq_nil_iff.mpr hplain,
    Decimal.toBinary64_eq]
  simp [Decimal.scaled, Decimal.places]

theorem decimalValue_point (h : ∀ char ∈ whole ++ fraction, char.isDigit = true) :
    decimalValue (whole ++ '.' :: fraction) =
      Decimal.toBinary64 ⟨digitsValue (whole ++ fraction), -(fraction.length : ℤ)⟩ false := by
  have hplain : ∀ char ∈ whole ++ fraction, (char != '.') = true :=
    fun char hchar => bne_point_of_isDigit (h char hchar)
  have hfilter : (whole ++ '.' :: fraction).filter (· != '.') = whole ++ fraction := by
    rw [List.filter_append, List.filter_cons_of_neg (by simp), ← List.filter_append]
    exact List.filter_eq_self.mpr hplain
  have hdrop : (whole ++ '.' :: fraction).dropWhile (· != '.') = '.' :: fraction := by
    rw [List.dropWhile_append_of_pos fun char hchar => hplain char (List.mem_append_left _ hchar)]
    simp
  rw [decimalValue, hfilter, hdrop, Decimal.toBinary64_eq]
  simp [Decimal.scaled, Decimal.places]

/-! ## Reading -/

theorem IsDecimal.ofChars? (h : IsDecimal run) :
    ∃ decimal, Decimal.ofChars? run = some decimal ∧
      decimal.toBinary64 false = decimalValue run := by
  rcases h.shape with ⟨hne, hdigits⟩ | ⟨whole, fraction, rfl, hne, hdigits⟩
  · exact ⟨_, Decimal.ofChars?_digits hne hdigits, (decimalValue_digits hdigits).symm⟩
  · obtain ⟨hwhole, hfraction⟩ := List.forall_mem_append.mp hdigits
    exact ⟨_, Decimal.ofChars?_point hne hwhole hfraction, (decimalValue_point hdigits).symm⟩

theorem isDecimal_of_ofChars? {decimal : Decimal} (h : Decimal.ofChars? run = some decimal) :
    IsDecimal run := by
  have hsplit : run.takeWhile Char.isDigit ++ run.dropWhile Char.isDigit = run :=
    List.takeWhile_append_dropWhile
  have hwhole : ∀ char ∈ run.takeWhile Char.isDigit, char.isDigit = true :=
    fun _ => List.mem_takeWhile_imp
  unfold Decimal.ofChars? at h
  dsimp only at h
  split at h
  next hdrop =>
    rw [hdrop, List.append_nil] at hsplit
    split at h
    next => cases h
    next hne =>
      rw [← hsplit]
      exact isDecimal_digits (by simpa using hne) hwhole
  next fraction hdrop =>
    split at h
    next hfraction =>
      rw [Bool.and_eq_true, List.all_eq_true, Bool.not_eq_true',
        List.isEmpty_eq_false_iff] at hfraction
      rw [← hsplit, hdrop]
      exact isDecimal_point hfraction.2 (List.forall_mem_append.mpr ⟨hwhole, hfraction.1⟩)
    next => cases h
  next => cases h

namespace Token

theorem ofNumeral_of_isDecimal (h : IsDecimal run) :
    ofNumeral run =
      if (decimalValue run).isFinite then .ok (.number (decimalValue run))
      else .error .notFinite := by
  obtain ⟨decimal, hdecimal, hvalue⟩ := h.ofChars?
  simp only [ofNumeral, hdecimal, hvalue]

theorem ofNumeral_of_not_isDecimal (h : ¬ IsDecimal run) :
    ofNumeral run = .error (.invalidNumber (.ofList run)) := by
  have hnone : Decimal.ofChars? run = none := by
    rw [Option.eq_none_iff_forall_ne_some]
    exact fun decimal hdecimal => h (isDecimal_of_ofChars? hdecimal)
  simp only [ofNumeral, hnone]

end Token

end SolarTakeoff
