import SolarTakeoff.Datum.Basic
import SolarTakeoff.Toml.Key

/-!
# Tables of a TOML document

A document grows by headers and by assignments.  Every table remembers how it
came to be: by a header of its own, on the way to some header, or by a dotted
name.  This decides which later lines may still add to it; a table has at most
one header, and a name is assigned at most once.
-/

namespace SolarTakeoff

namespace Toml

/-- How a table came to be. -/
inductive Origin where
  | header
  | onPath
  | dotted
deriving DecidableEq

/-- What a name stands for.  An array of tables holds the tables of its
headers in order. -/
inductive Node where
  | value (datum : Datum)
  | table (origin : Origin) (entries : List (String × Node))
  | tables (items : List (List (String × Node)))

abbrev Entries :=
  List (String × Node)

namespace Entries

/-- Gives a new meaning to a name. -/
def replace (entries : Entries) (name : String) (node : Node) : Entries :=
  entries.map fun entry => if entry.1 == name then (name, node) else entry

/-- Changes the table at the end of a path from a table of the given origin.
Tables missing on the way are made, with the origin `made`; of an array of
tables the last one is meant.  Dotted names do not reach into a table that has
a header. -/
def changeAt (made : Origin) (change : Origin → Entries → Option Entries)
    (origin : Origin) : List String → Entries → Option Entries
  | [], entries => change origin entries
  | name :: path, entries =>
    match entries.lookup name with
    | none => do
      let inner ← changeAt made change made path []
      return entries ++ [(name, .table made inner)]
    | some (.table found inner) =>
      if made = .dotted ∧ found = .header then
        none
      else do
        let inner ← changeAt made change found path inner
        return replace entries name (.table found inner)
    | some (.tables items) => do
      let last ← items.getLast?
      let last ← changeAt made change .header path last
      return replace entries name (.tables (items.dropLast ++ [last]))
    | some (.value _) => none

/-- Assigns a value to a key of a table.  The key may be dotted just when the
table it ends in was made by dotted names. -/
def assign (entries : Entries) (key : Key) (datum : Datum) : Option Entries :=
  let change : Origin → Entries → Option Entries := fun origin inner =>
    if decide (origin = .dotted) == key.path.isEmpty then none
    else if (inner.lookup key.name).isSome then none
    else some (inner ++ [(key.name, .value datum)])
  changeAt .dotted change .header key.path entries

/-- Opens the table of a header. -/
def openTable (entries : Entries) (key : Key) : Option Entries :=
  let change : Origin → Entries → Option Entries := fun _ inner =>
    match inner.lookup key.name with
    | none => some (inner ++ [(key.name, .table .header [])])
    | some (.table .onPath found) => some (replace inner key.name (.table .header found))
    | some _ => none
  changeAt .onPath change .header key.path entries

/-- Adds a table to the array of a header. -/
def appendTable (entries : Entries) (key : Key) : Option Entries :=
  let change : Origin → Entries → Option Entries := fun _ inner =>
    match inner.lookup key.name with
    | none => some (inner ++ [(key.name, .tables [[]])])
    | some (.tables items) => some (replace inner key.name (.tables (items ++ [[]])))
    | some _ => none
  changeAt .onPath change .header key.path entries

end Entries

mutual

def Node.datum : Node → Datum
  | .value datum => datum
  | .table _ entries => .record (fieldsOf entries)
  | .tables items => .array (recordsOf items)

def fieldsOf : List (String × Node) → List (String × Datum)
  | [] => []
  | (name, node) :: entries => (name, node.datum) :: fieldsOf entries

def recordsOf : List (List (String × Node)) → List Datum
  | [] => []
  | entries :: items => .record (fieldsOf entries) :: recordsOf items

end

end Toml

end SolarTakeoff
