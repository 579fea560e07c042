import SolarTakeoff.Toml.Value

/-!
# TOML documents

A document is a list of statements: headers, headers of array items, and
assignments, each on a line of its own.  An assignment belongs to the table of
the last header before it.
-/

namespace SolarTakeoff

namespace Toml

inductive Statement where
  | table (key : Key)
  | item (key : Key)
  | assignment (key : Key) (datum : Datum)

def statement? (chars : List Char) : Option (Reading Char Statement chars.length) :=
  match chars with
  | '[' :: '[' :: rest => do
    let key ← (← (← key? rest).followedBy? ']').followedBy? ']'
    return (key.map .item).after 2
  | '[' :: rest => do
    let key ← (← key? rest).followedBy? ']'
    return (key.map .table).after 1
  | chars => do
    let ⟨key, rest, h⟩ ← (← key? chars).followedBy? '='
    let datum ← value? 0 (skipSpaces rest)
    return ((datum.map (.assignment key)).widen (length_skipSpaces_le rest)).within h

/-- The statements up to the end of the document. -/
def statements? (chars : List Char) : Option (List Statement) :=
  if (skipLines true chars).isEmpty then some []
  else do
    let ⟨statement, rest, _⟩ ← statement? (skipLines true chars)
    if endsLine rest then
      return statement :: (← statements? rest)
    else
      none
termination_by chars.length
decreasing_by grind [length_skipLines_le]

/-- A document so far: its root table, and the path of the last header. -/
structure Document where
  root : Entries := []
  header : List String := []

def Document.add? (document : Document) : Statement → Option Document
  | .table key => do
    return ⟨← document.root.openTable key, key.path ++ [key.name]⟩
  | .item key => do
    return ⟨← document.root.appendTable key, key.path ++ [key.name]⟩
  | .assignment key datum => do
    let change : Origin → Entries → Option Entries := fun _ entries => entries.assign key datum
    return { document with root := ← document.root.changeAt .onPath change .header document.header }

/-- The document of its statements in order. -/
def Document.ofStatements? (statements : List Statement) : Option Document :=
  statements.foldlM Document.add? {}

/-- A byte order mark at the start is no part of the document. -/
def dropMark : List Char → List Char
  | '\ufeff' :: chars => chars
  | chars => chars

end Toml

/-- The content of a TOML document. -/
def Datum.ofToml? (text : String) : Option Datum := do
  let statements ← Toml.statements? (Toml.dropMark text.toList)
  let document ← Toml.Document.ofStatements? statements
  return .record (Toml.fieldsOf document.root)

end SolarTakeoff
