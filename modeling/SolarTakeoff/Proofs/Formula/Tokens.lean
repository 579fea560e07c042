import SolarTakeoff.Formula.Lexeme
import SolarTakeoff.Proofs.Binary64.Rounding
import SolarTakeoff.Proofs.Sequences
import Mathlib.Tactic

/-!
# Texts that fall into tokens

Every token comes from one lexeme.  So what holds of the lexemes holds of the
whole: a number among the tokens is finite and has no sign.
-/

namespace SolarTakeoff

namespace Token

variable {position : ℕ} {lexeme : List Char} {others : List (List Char)} {tokens : List Token}
  {token : Token}

theorem ofLexemes_cons_eq_ok_iff :
    ofLexemes position (lexeme :: others) = .ok tokens ↔
      ∃ token?, ofLexeme? position lexeme = .ok token? ∧
        ∃ rest, ofLexemes (position + (lexeme.map Char.utf8Size).sum) others = .ok rest ∧
          token?.toList ++ rest = tokens := by
  change (ofLexeme? position lexeme >>= fun token? =>
    ofLexemes (position + (lexeme.map Char.utf8Size).sum) others >>= fun rest =>
      pure (token?.toList ++ rest)) = .ok tokens ↔ _
  simp only [bind_eq_ok_iff, pure_eq_ok_iff]

theorem exists_lexeme_of_mem {lexemes : List (List Char)}
    (h : ofLexemes position lexemes = .ok tokens) (hmem : token ∈ tokens) :
    ∃ lexeme ∈ lexemes, ∃ place, ofLexeme? place lexeme = .ok (some token) := by
  induction lexemes generalizing position tokens with
  | nil =>
      obtain rfl : [] = tokens := Except.ok.inj h
      cases hmem
  | cons lexeme others ih =>
      obtain ⟨token?, hfirst, rest, hrest, rfl⟩ := ofLexemes_cons_eq_ok_iff.mp h
      rcases List.mem_append.mp hmem with hmem | hmem
      · obtain rfl : token? = some token := by simpa using hmem
        exact ⟨lexeme, List.mem_cons_self, position, hfirst⟩
      · obtain ⟨other, hother, place, hplace⟩ := ih hrest hmem
        exact ⟨other, List.mem_cons_of_mem _ hother, place, hplace⟩

/-! ## Numbers -/

/-- What a numeral stands for has no sign. -/
theorem zero_le_of_ofNumeral {digits : List Char} {value : Binary64}
    (h : ofNumeral digits = .ok (.number value)) :
    value.isFinite = true ∧ Binary64.zero.le value = true := by
  unfold ofNumeral at h
  cases hdecimal : Decimal.ofChars? digits with
  | none => simp [hdecimal] at h
  | some decimal =>
      simp only [hdecimal] at h
      by_cases hfinite : (decimal.toBinary64 false).isFinite = true
      · obtain rfl : decimal.toBinary64 false = value := by simpa [hfinite] using h
        exact ⟨hfinite, Binary64.zero_le_ofRatio (by simp)⟩
      · simp [hfinite] at h

theorem ofNumeral_of_ofLexeme? {value : Binary64}
    (h : ofLexeme? position lexeme = .ok (some (.number value))) :
    ofNumeral lexeme = .ok (.number value) := by
  cases lexeme with
  | nil => simp [ofLexeme?] at h
  | cons char rest =>
      unfold ofLexeme? at h
      by_cases hblank : isBlank char = true
      · simp [hblank] at h
      by_cases hnumeral : isNumeral char = true
      · cases hresult : ofNumeral (char :: rest) with
        | error error => simp [hblank, hnumeral, hresult, Except.map] at h
        | ok token =>
            obtain rfl : token = .number value := by
              simpa [hblank, hnumeral, hresult, Except.map] using h
            rfl
      by_cases hword : isWordStart char = true
      · simp [hblank, hnumeral, hword] at h
      · dsimp only at h
        rw [if_neg hblank, if_neg hnumeral, if_neg hword] at h
        unfold ofChar? at h
        split at h
        next heq => split at heq <;> cases heq <;> cases h
        next => cases h

end Token

theorem zero_le_of_mem_tokenize {chars : List Char} {tokens : List Token} {value : Binary64}
    (h : tokenize chars = .ok tokens) (hmem : .number value ∈ tokens) :
    value.isFinite = true ∧ Binary64.zero.le value = true := by
  obtain ⟨lexeme, -, place, hlexeme⟩ := Token.exists_lexeme_of_mem h hmem
  exact Token.zero_le_of_ofNumeral (Token.ofNumeral_of_ofLexeme? hlexeme)

end SolarTakeoff
