import SolarTakeoff.Text.Hexadecimal
import SolarTakeoff.Toml.Layout

/-!
# Strings of TOML

A string stands in double or single quotes, one on each side or three.  Three
quotes let it run over several lines; a line end right after the opening ones
is dropped.  Only double quotes allow escapes, and over several lines an
escaped line end drops the blanks that follow it.

One or two quotes in a row are content of a string over several lines.  Three
to five close it: the last three are the delimiter and those before them
content.
-/

namespace SolarTakeoff

namespace Toml

/-- The character with the number given by hexadecimal digits. -/
def numberedChar? (digits : List Char) : Option Char := do
  let value ← hexValue? digits
  if value.isValidChar then some (Char.ofNat value) else none

/-- The character of an escape, after the backslash. -/
def escaped? (chars : List Char) : Option (Reading Char Char chars.length) :=
  match chars with
  | 'b' :: rest => some (.of '\u0008' rest)
  | 't' :: rest => some (.of '\t' rest)
  | 'n' :: rest => some (.of '\n' rest)
  | 'f' :: rest => some (.of '\u000c' rest)
  | 'r' :: rest => some (.of '\r' rest)
  | '"' :: rest => some (.of '"' rest)
  | '\\' :: rest => some (.of '\\' rest)
  | 'u' :: a :: b :: c :: d :: rest => do
    let char ← numberedChar? [a, b, c, d]
    return (Reading.of char rest).after 4
  | 'U' :: a :: b :: c :: d :: e :: f :: g :: h :: rest => do
    let char ← numberedChar? [a, b, c, d, e, f, g, h]
    return (Reading.of char rest).after 8
  | _ => none

/-- A line end that is left out, after its backslash, with all blanks up to
the next visible character. -/
def joinedLine? (chars : List Char) : Option (Reading Char (List Char) chars.length) := do
  let newline ← newline? (skipSpaces chars)
  let joined := newline.skip (skipLines false) (length_skipLines_le false)
  return (joined.map fun _ => []).widen (length_skipSpaces_le chars)

/-- The form of a string. -/
structure TextForm where
  quote : Char
  multiline : Bool

namespace TextForm

def hasEscapes (form : TextForm) : Bool :=
  form.quote == '"'

/-- The end of a string, with the quotes before its delimiter. -/
def closing? (form : TextForm) (chars : List Char) :
    Option (Reading Char (List Char) chars.length) :=
  if form.multiline then do
    let quotes ← Reading.run? (· == form.quote) chars
    if 3 ≤ quotes.value.length ∧ quotes.value.length ≤ 5 then
      some (quotes.map (·.drop 3))
    else
      none
  else
    match chars with
    | [] => none
    | char :: rest => if char == form.quote then some (.of [] rest) else none

/-- A piece of content: quotes, an escape, a line end or a plain character. -/
def piece? (form : TextForm) (chars : List Char) :
    Option (Reading Char (List Char) chars.length) :=
  match Reading.run? (· == form.quote) chars with
  | some quotes => if form.multiline ∧ quotes.value.length ≤ 2 then some quotes else none
  | none =>
    match chars with
    | [] => none
    | char :: rest =>
      if form.hasEscapes && char == '\\' then
        match if form.multiline then joinedLine? rest else none with
        | some joined => some (joined.after 1)
        | none => do return ((← escaped? rest).map ([·])).after 1
      else if isPlain char then
        some (.of [char] rest)
      else if form.multiline then do
        return (← newline? (char :: rest)).map ([·])
      else
        none

/-- The content of a string up to its end. -/
def content? (form : TextForm) (chars : List Char) :
    Option (Reading Char (List Char) chars.length) :=
  match form.closing? chars with
  | some closing => some closing
  | none => do
    let ⟨piece, rest, h⟩ ← form.piece? chars
    return ((← form.content? rest).map (piece ++ ·)).within h
termination_by chars.length

end TextForm

/-- The content of a string over several lines. -/
def multilineContent? (quote : Char) (chars : List Char) :
    Option (Reading Char (List Char) chars.length) :=
  match newline? chars with
  | some ⟨_, rest, h⟩ => do return (← (TextForm.mk quote true).content? rest).within h
  | none => (TextForm.mk quote true).content? chars

/-- A string on one line. -/
def lineText? (chars : List Char) : Option (Reading Char String chars.length) :=
  match chars with
  | [] => none
  | quote :: rest =>
    if quote == '"' || quote == '\'' then do
      return ((← (TextForm.mk quote false).content? rest).map String.ofList).after 1
    else
      none

/-- A string of any form. -/
def text? (chars : List Char) : Option (Reading Char String chars.length) :=
  match chars with
  | '"' :: '"' :: '"' :: rest => do
    return ((← multilineContent? '"' rest).map String.ofList).after 3
  | '\'' :: '\'' :: '\'' :: rest => do
    return ((← multilineContent? '\'' rest).map String.ofList).after 3
  | chars => lineText? chars

end Toml

end SolarTakeoff
