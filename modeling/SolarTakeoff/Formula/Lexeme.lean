import SolarTakeoff.Formula.Error
import SolarTakeoff.Text.Blank

/-!
# From characters to tokens

A text falls apart into lexemes: maximal runs of digits and points, maximal
words, and single characters for all else.  Each one is then blank, a token, or
an error, and the first error from the left is the answer.

Positions count bytes of UTF-8 from the start of the text.
-/

namespace SolarTakeoff

def isNumeral (char : Char) : Bool :=
  char.isDigit || char == '.'

def isWordStart (char : Char) : Bool :=
  char.isAlpha || char == '_'

def isWordPart (char : Char) : Bool :=
  char.isAlphanum || char == '_'

/-- The class of characters that a lexeme starting with this one runs over. -/
def runClass (char : Char) : Char → Bool :=
  if isNumeral char then isNumeral
  else if isWordStart char then isWordPart
  else fun _ => false

def lexemes : List Char → List (List Char)
  | [] => []
  | char :: rest =>
    (char :: rest.takeWhile (runClass char)) :: lexemes (rest.dropWhile (runClass char))
termination_by chars => chars.length
decreasing_by
  exact Nat.lt_succ_of_le (List.dropWhile_sublist _).length_le

namespace Token

/-- The token of a single character. -/
def ofChar? : Char → Option Token
  | '+' => some .plus
  | '-' => some .minus
  | '*' => some .star
  | '/' => some .slash
  | '(' => some .opening
  | ')' => some .closing
  | ',' => some .comma
  | _ => none

def ofNumeral (digits : List Char) : Except FormulaError Token :=
  match Decimal.ofChars? digits with
  | none => .error (.invalidNumber (.ofList digits))
  | some decimal =>
    let value := decimal.toBinary64 false
    if value.isFinite then .ok (.number value) else .error .notFinite

/-- The token of a lexeme at a position; a blank has none. -/
def ofLexeme? (position : Nat) : List Char → Except FormulaError (Option Token)
  | [] => .ok none
  | char :: rest =>
    if isBlank char then .ok none
    else if isNumeral char then (ofNumeral (char :: rest)).map some
    else if isWordStart char then .ok (some (.word (.ofList (char :: rest))))
    else
      match ofChar? char with
      | some token => .ok (some token)
      | none => .error (.unexpectedChar char position)

/-- The tokens of lexemes that start at a position. -/
def ofLexemes (position : Nat) : List (List Char) → Except FormulaError (List Token)
  | [] => .ok []
  | lexeme :: rest => do
    let token? ← ofLexeme? position lexeme
    let tokens ← ofLexemes (position + (lexeme.map Char.utf8Size).sum) rest
    return token?.toList ++ tokens

end Token

def tokenize (chars : List Char) : Except FormulaError (List Token) :=
  Token.ofLexemes 0 (lexemes chars)

end SolarTakeoff
