import SolarTakeoff.Toml.Text

/-!
# Keys

A key names a value, possibly by way of tables around it: names divided by
points, with spaces allowed at the points.  A name is a word or a string on
one line.
-/

namespace SolarTakeoff

namespace Toml

/-- A name with the names of the tables on the way to it. -/
structure Key where
  path : List String
  name : String

def isNameChar (char : Char) : Bool :=
  char.isAlphanum || char == '_' || char == '-'

/-- A word, or a string in quotes. -/
def name? (chars : List Char) : Option (Reading Char String chars.length) :=
  match Reading.run? isNameChar chars with
  | some word => some (word.map String.ofList)
  | none => lineText? chars

/-- A name with the spaces around it. -/
def spacedName? (chars : List Char) : Option (Reading Char String chars.length) := do
  let name ← name? (skipSpaces chars)
  return (name.skip skipSpaces length_skipSpaces_le).widen (length_skipSpaces_le chars)

/-- Names divided by points, with the spaces around them. -/
def names? (chars : List Char) : Option (Reading Char Key chars.length) := do
  let name ← spacedName? chars
  match name.followedBy? '.' with
  | some ⟨name, rest, h⟩ =>
    return ((← names? rest).map fun key => ⟨name :: key.path, key.name⟩).within h
  | none => return name.map fun name => ⟨[], name⟩
termination_by chars.length
decreasing_by grind

/-- The number of names that a key may not reach. -/
def nameLimit : Nat :=
  80

def key? (chars : List Char) : Option (Reading Char Key chars.length) := do
  let reading ← names? chars
  if reading.value.path.length + 1 < nameLimit then some reading else none

end Toml

end SolarTakeoff
