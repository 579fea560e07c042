import SolarTakeoff.Text.Blank
import Mathlib.Data.List.DropRight
import Mathlib.Tactic

/-!
# Runs of characters

A longest run of a class of characters ends where the next one is not of the
class.  Trimming cuts a text into the blanks before it, a text that neither
starts nor ends with a blank, and the blanks after it.
-/

namespace SolarTakeoff

variable {p : Char → Bool} {chars rest : List Char}

theorem takeWhile_append_of_head (h : ∀ char ∈ rest.head?, p char = false) :
    (chars ++ rest).takeWhile p = chars.takeWhile p ∧
      (chars ++ rest).dropWhile p = chars.dropWhile p ++ rest := by
  induction chars with
  | nil => cases rest <;> simp_all
  | cons char chars ih =>
      obtain ⟨htake, hdrop⟩ := ih
      cases hchar : p char <;> simp [hchar, htake, hdrop]

theorem not_of_mem_head?_dropWhile {next : Char} (h : next ∈ (chars.dropWhile p).head?) :
    p next = false := by
  have hnot := List.head?_dropWhile_not p chars
  rw [Option.mem_def.mp h] at hnot
  exact hnot

/-! ## Trimming -/

theorem trimBlanks_eq_rdropWhile (chars : List Char) :
    trimBlanks chars = (chars.dropWhile isBlank).rdropWhile isBlank :=
  rfl

/-- What is left after the blanks at the start ends in blanks only. -/
theorem exists_blanks_after (chars : List Char) :
    ∃ after : List Char, after.all isBlank = true ∧
      chars = chars.takeWhile isBlank ++ trimBlanks chars ++ after := by
  refine ⟨(chars.dropWhile isBlank).rtakeWhile isBlank, ?_, ?_⟩
  · rw [List.rtakeWhile, List.all_reverse]
    exact List.all_takeWhile
  · rw [trimBlanks_eq_rdropWhile, List.append_assoc, List.rdropWhile_append_rtakeWhile,
      List.takeWhile_append_dropWhile]

theorem exists_blanks_around (chars : List Char) :
    ∃ before after : List Char, before.all isBlank = true ∧ after.all isBlank = true ∧
      chars = before ++ trimBlanks chars ++ after := by
  obtain ⟨after, hafter, hchars⟩ := exists_blanks_after chars
  exact ⟨chars.takeWhile isBlank, after, List.all_takeWhile, hafter, hchars⟩

theorem isBlank_head_trimBlanks (h : trimBlanks chars ≠ []) :
    isBlank ((trimBlanks chars).head h) = false := by
  have hlead : trimBlanks chars <+: chars.dropWhile isBlank := List.rdropWhile_prefix isBlank _
  rw [hlead.head h]
  exact List.head_dropWhile_not isBlank _

theorem isBlank_getLast_trimBlanks (h : trimBlanks chars ≠ []) :
    isBlank ((trimBlanks chars).getLast h) = false :=
  Bool.eq_false_iff.mpr (List.rdropWhile_last_not isBlank _ h)

end SolarTakeoff
