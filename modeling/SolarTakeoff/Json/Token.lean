import SolarTakeoff.Json.Literal
import SolarTakeoff.Text.Hexadecimal

/-!
# Tokens of JSON

Strings are read into pieces first, a piece being a character or a sixteen-bit
unit given by its hexadecimal digits.  Units of surrogate pairs must stand
together in order; a string where they do not is a token without a value.
-/

namespace SolarTakeoff

namespace Json

inductive Token where
  | openArray
  | closeArray
  | openRecord
  | closeRecord
  | comma
  | colon
  | null
  | bool (value : Bool)
  | number (literal : Literal)
  | string (value : Option String)

/-- A part of a string. -/
inductive Piece where
  | char (char : Char)
  | unit (value : Nat)

/-- The character of a one-letter escape. -/
def escape? : Char → Option Char
  | '"' => some '"'
  | '\\' => some '\\'
  | '/' => some '/'
  | 'b' => some '\u0008'
  | 'f' => some '\u000c'
  | 'n' => some '\n'
  | 'r' => some '\r'
  | 't' => some '\t'
  | _ => none

/-- The pieces of a string up to its closing quote. -/
def pieces? (chars : List Char) : Option (Reading Char (List Piece) chars.length) :=
  match chars with
  | [] => none
  | '"' :: rest => some (.of [] rest)
  | '\\' :: 'u' :: a :: b :: c :: d :: rest => do
    let unit ← hexValue? [a, b, c, d]
    return ((← pieces? rest).map (.unit unit :: ·)).after 6
  | '\\' :: char :: rest => do
    let char ← escape? char
    return ((← pieces? rest).map (.char char :: ·)).after 2
  | char :: rest =>
    if char.toNat < 32 || char == '\\' then none
    else do return ((← pieces? rest).map (.char char :: ·)).after 1

/-- Puts surrogate pairs together; fails if half of one stands alone. -/
def joinPieces? : List Piece → Option (List Char)
  | [] => some []
  | .char char :: pieces => (joinPieces? pieces).map (char :: ·)
  | .unit high :: .unit low :: pieces =>
    if 0xd800 ≤ high ∧ high < 0xdc00 then
      if 0xdc00 ≤ low ∧ low < 0xe000 then
        (joinPieces? pieces).map
          (Char.ofNat (0x10000 + 0x400 * (high - 0xd800) + (low - 0xdc00)) :: ·)
      else none
    else if 0xdc00 ≤ high ∧ high < 0xe000 then none
    else (joinPieces? (.unit low :: pieces)).map (Char.ofNat high :: ·)
  | .unit value :: pieces =>
    if 0xd800 ≤ value ∧ value < 0xe000 then none
    else (joinPieces? pieces).map (Char.ofNat value :: ·)

def isSpace (char : Char) : Bool :=
  char == ' ' || char == '\t' || char == '\n' || char == '\r'

/-- The token at the front, after a character that is no space. -/
def token? (chars : List Char) : Option (Reading Char Token chars.length) :=
  match chars with
  | '[' :: rest => some (.of .openArray rest)
  | ']' :: rest => some (.of .closeArray rest)
  | '\x7b' :: rest => some (.of .openRecord rest)
  | '\x7d' :: rest => some (.of .closeRecord rest)
  | ',' :: rest => some (.of .comma rest)
  | ':' :: rest => some (.of .colon rest)
  | 'n' :: 'u' :: 'l' :: 'l' :: rest => some ((Reading.of .null rest).after 3)
  | 't' :: 'r' :: 'u' :: 'e' :: rest => some ((Reading.of (.bool true) rest).after 3)
  | 'f' :: 'a' :: 'l' :: 's' :: 'e' :: rest => some ((Reading.of (.bool false) rest).after 4)
  | '"' :: rest => do
    let pieces ← pieces? rest
    return (pieces.map fun pieces => .string ((joinPieces? pieces).map String.ofList)).after 1
  | chars => do return (← literal? chars).map .number

def tokens? (chars : List Char) : Option (List Token) :=
  match chars with
  | [] => some []
  | char :: rest =>
    if isSpace char then tokens? rest
    else do
      let ⟨token, further, _⟩ ← token? (char :: rest)
      return token :: (← tokens? further)
termination_by chars.length
decreasing_by all_goals grind

end Json

end SolarTakeoff
