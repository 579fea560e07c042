import SolarTakeoff.Toml.Moment
import SolarTakeoff.Toml.Numeral
import SolarTakeoff.Toml.Table

/-!
# Values of TOML

Arrays may run over several lines and end in a comma; inline tables do
neither, and take their names by the rules of assignments.  Both together nest
at most 79 deep.

A date or a time reads as a record of its text.
-/

namespace SolarTakeoff

namespace Toml

/-- The number of arrays and inline tables that may stand inside one
another. -/
def nestingLimit : Nat :=
  79

/-- The characters of words, numbers, dates and times. -/
def isAtomChar (char : Char) : Bool :=
  char.isAlphanum || char ∈ ['+', '-', '_', '.', ':']

/-- The value of a word, a number, a date or a time. -/
def atomOf? (chars : List Char) : Option Datum :=
  match String.ofList chars with
  | "true" => some (.bool true)
  | "false" => some (.bool false)
  | text =>
    if isMoment chars then some (.record [("moment", .string text)]) else numeral? chars

/-- The time after a date and a space. -/
def spacedTime? (chars : List Char) : Option (Reading Char (List Char) chars.length) :=
  match chars with
  | ' ' :: digit :: rest =>
    if digit.isDigit then do return (← Reading.run? isAtomChar (digit :: rest)).after 1
    else none
  | _ => none

/-- A word, a number, a date or a time.  A date and its time may have a space
between them. -/
def atom? (chars : List Char) : Option (Reading Char Datum chars.length) := do
  let ⟨atom, rest, h⟩ ← Reading.run? isAtomChar chars
  match if isDate atom then spacedTime? rest else none with
  | some time =>
    let datum ← atomOf? (atom ++ ' ' :: time.value)
    return (time.map fun _ => datum).within h
  | none => return ⟨← atomOf? atom, rest, h⟩

/-- A closing bracket, after what may stand between lines. -/
def bracket? (chars : List Char) : Option (Reading Char Unit chars.length) := do
  return (← Reading.symbol? ']' (skipLines true chars)).widen (length_skipLines_le true chars)

/-- A closing brace, after spaces. -/
def brace? (chars : List Char) : Option (Reading Char Unit chars.length) := do
  return (← Reading.symbol? '\x7d' (skipSpaces chars)).widen (length_skipSpaces_le chars)

mutual

/-- A value inside `depth` others. -/
def value? (depth : Nat) (chars : List Char) : Option (Reading Char Datum chars.length) :=
  match chars with
  | '[' :: rest =>
    if depth < nestingLimit then do
      return ((← items? (depth + 1) rest).map .array).after 1
    else
      none
  | '\x7b' :: rest =>
    if depth < nestingLimit then
      match brace? rest with
      | some brace => some ((brace.map fun _ => .record []).after 1)
      | none => do
        let entries ← fields? (depth + 1) [] rest
        return (entries.map fun entries => .record (fieldsOf entries)).after 1
    else
      none
  | chars =>
    match text? chars with
    | some text => some (text.map .string)
    | none => atom? chars
termination_by 2 * chars.length
decreasing_by all_goals grind

/-- The items of an array up to its closing bracket. -/
def items? (depth : Nat) (chars : List Char) :
    Option (Reading Char (List Datum) chars.length) :=
  match bracket? chars with
  | some bracket => some (bracket.map fun _ => [])
  | none => do
    let first ← value? depth (skipLines true chars)
    let item := (first.skip (skipLines true) (length_skipLines_le true)).widen
      (length_skipLines_le true chars)
    match item.followedBy? ']' with
    | some last => return last.map ([·])
    | none =>
      let ⟨item, rest, h⟩ ← item.followedBy? ','
      return ((← items? depth rest).map (item :: ·)).within h
termination_by 2 * chars.length + 1
decreasing_by all_goals grind [length_skipLines_le]

/-- The assignments of an inline table up to its closing brace, at least
one. -/
def fields? (depth : Nat) (entries : Entries) (chars : List Char) :
    Option (Reading Char Entries chars.length) := do
  let ⟨key, rest, h⟩ ← (← key? chars).followedBy? '='
  let datum ← value? depth (skipSpaces rest)
  let entries ← entries.assign key datum.value
  let assigned := ((datum.map fun _ => entries).skip skipSpaces length_skipSpaces_le).widen
    (length_skipSpaces_le rest)
  match assigned.followedBy? '\x7d' with
  | some last => return last.within h
  | none =>
    let ⟨entries, further, hfurther⟩ ← assigned.followedBy? ','
    return ((← fields? depth entries further).within hfurther).within h
termination_by 2 * chars.length
decreasing_by all_goals grind [length_skipSpaces_le]

end

end Toml

end SolarTakeoff
