import SolarTakeoff.Decimal.Shortest
import SolarTakeoff.Proofs.Json.Writing
import Mathlib.Tactic

/-!
# Quoted strings

The common way of writing strings: quotes, backslashes and control characters
are escaped, the latter by one letter where there is one, and all others stand
for themselves.  The reader takes every string back.  Numbers go with them in
positional form, with a point even where nothing but zero follows it.
-/

namespace SolarTakeoff
namespace Json

/-- The letter that stands for a character behind a backslash. -/
def letter? : Char → Option Char
  | '"' => some '"'
  | '\\' => some '\\'
  | '\u0008' => some 'b'
  | '\u000c' => some 'f'
  | '\n' => some 'n'
  | '\r' => some 'r'
  | '\t' => some 't'
  | _ => none

def quoteChar (char : Char) : List Char :=
  match letter? char with
  | some letter => ['\\', letter]
  | none =>
    if char.toNat < 32 then
      ['\\', 'u', '0', '0', Nat.digitChar (char.toNat / 16), Nat.digitChar (char.toNat % 16)]
    else
      [char]

def quote (text : String) : List Char :=
  '"' :: (text.toList.flatMap quoteChar ++ ['"'])

variable {rest further : List Char} {more : List Piece}

theorem joinPieces?_unit {value : ℕ} (h : value < 0xd800) (pieces : List Piece) :
    joinPieces? (.unit value :: pieces) = (joinPieces? pieces).map (Char.ofNat value :: ·) := by
  have hhigh : ¬ (0xd800 ≤ value ∧ value < 0xdc00) := by omega
  have hlow : ¬ (0xdc00 ≤ value ∧ value < 0xe000) := by omega
  have hnone : ¬ (0xd800 ≤ value ∧ value < 0xe000) := by omega
  match pieces with
  | [] => simp [joinPieces?, hnone]
  | .char _ :: _ => simp [joinPieces?, hnone]
  | .unit _ :: _ => rw [joinPieces?, if_neg hhigh, if_neg hlow]

theorem hexValue?_control {code : ℕ} (h : code < 32) :
    hexValue? ['0', '0', Nat.digitChar (code / 16), Nat.digitChar (code % 16)] = some code := by
  revert code
  decide

theorem escape?_of_letter? {char letter : Char} (h : letter? char = some letter) :
    escape? letter = some char ∧ letter ≠ 'u' := by
  unfold letter? at h
  split at h <;> cases h <;> decide

theorem ne_of_letter?_eq_none {char : Char} (h : letter? char = none) :
    char ≠ '"' ∧ char ≠ '\\' := by
  constructor <;> rintro rfl <;> cases h

/-- One character is read as one piece, which joins as the character. -/
theorem exists_piece_quoteChar (char : Char) (h : Finds (pieces? rest) more further) :
    ∃ piece, Finds (pieces? (quoteChar char ++ rest)) (piece :: more) further ∧
      ∀ pieces, joinPieces? (piece :: pieces) = (joinPieces? pieces).map (char :: ·) := by
  have hchar : ∀ pieces, joinPieces? (.char char :: pieces) =
      (joinPieces? pieces).map (char :: ·) := fun pieces => by rw [joinPieces?]
  cases hletter : letter? char with
  | some letter =>
      have hquoted : quoteChar char = ['\\', letter] := by simp [quoteChar, hletter]
      obtain ⟨hescape, hmark⟩ := escape?_of_letter? hletter
      rw [hquoted]
      exact ⟨.char char, (finds_pieces_escape_iff hmark).mpr ⟨char, hescape, more, rfl, h⟩, hchar⟩
  | none =>
      by_cases hcontrol : char.toNat < 32
      · have hquoted : quoteChar char = ['\\', 'u', '0', '0',
            Nat.digitChar (char.toNat / 16), Nat.digitChar (char.toNat % 16)] := by
          simp [quoteChar, hletter, hcontrol]
        have hunit := joinPieces?_unit (show char.toNat < 0xd800 by omega)
        rw [Char.ofNat_toNat] at hunit
        rw [hquoted]
        exact ⟨.unit char.toNat, finds_pieces_unit_iff.mpr
          ⟨char.toNat, hexValue?_control hcontrol, more, rfl, h⟩, hunit⟩
      · have hquoted : quoteChar char = [char] := by simp [quoteChar, hletter, hcontrol]
        obtain ⟨hquote, hslash⟩ := ne_of_letter?_eq_none hletter
        rw [hquoted]
        exact ⟨.char char, (finds_pieces_char_iff hquote hslash (by omega)).mpr ⟨more, rfl, h⟩,
          hchar⟩

theorem exists_pieces_quote (chars rest : List Char) :
    ∃ pieces, Finds (pieces? (chars.flatMap quoteChar ++ '"' :: rest)) pieces rest ∧
      joinPieces? pieces = some chars := by
  induction chars with
  | nil => exact ⟨[], finds_pieces_quote_iff.mpr ⟨rfl, rfl⟩, rfl⟩
  | cons char chars ih =>
      obtain ⟨pieces, hpieces, hjoin⟩ := ih
      obtain ⟨piece, hpiece, hcons⟩ := exists_piece_quoteChar char hpieces
      refine ⟨piece :: pieces, ?_, by rw [hcons, hjoin]; rfl⟩
      rw [List.flatMap_cons, List.append_assoc]
      exact hpiece

theorem ofJson?_quote (text : String) :
    Datum.ofJson? (.ofList (quote text)) = some (.string text) := by
  obtain ⟨pieces, hpieces, hjoin⟩ := exists_pieces_quote text.toList []
  have htoken : Finds (token? (quote text)) (.string (some text)) [] := by
    refine finds_token_string_iff.mpr ⟨pieces, ?_, hpieces⟩
    rw [hjoin, Option.map_some, String.ofList_toList]
  have htokens : tokens? (quote text) = some [.string (some text)] :=
    tokens?_single (by decide) htoken
  exact ofJson?_of_finds_value (by rw [String.toList_ofList, htokens])
    (finds_value_of_datum? rfl)

def Printer.plain : Printer where
  number number := if '.' ∈ number.chars then number.chars else number.chars ++ ['.', '0']
  string := quote

theorem Printer.readsBack_plain_string (text : String) :
    Printer.plain.ReadsBack Datum.ofJson? (.string text) := by
  rw [Printer.ReadsBack, Datum.json, Datum.jsonChars]
  exact ofJson?_quote text

end Json
end SolarTakeoff
