import SolarTakeoff.Json.Token

/-!
# Reading JSON

The grammar is strict: one value, nothing after it, no comma before a closing
bracket.  Arrays and records nest at most 127 deep in a value that is to be
read; what is nested deeper is unreadable, as is a record with a name that has
no value.
-/

namespace SolarTakeoff

namespace Json

/-- The number of arrays and records that may stand inside one another. -/
def nestingLimit : Nat :=
  127

/-- A value that stands inside `depth` others. -/
def nested (depth : Nat) (datum : Datum) : Datum :=
  if depth < nestingLimit then datum else .unreadable

/-- The record of named values, if every name has a value. -/
def recordOf (fields : List (Option String × Datum)) : Datum :=
  match fields.mapM fun (name, value) => name.map (·, value) with
  | some fields => .record fields
  | none => .unreadable

mutual

def value? (depth : Nat) (tokens : List Token) :
    Option (Reading Token Datum tokens.length) :=
  match tokens with
  | .null :: rest => some (.of .null rest)
  | .bool value :: rest => some (.of (.bool value) rest)
  | .number literal :: rest => some (.of literal.datum rest)
  | .string (some value) :: rest => some (.of (.string value) rest)
  | .string none :: rest => some (.of .unreadable rest)
  | .openArray :: .closeArray :: rest =>
    some ((Reading.of (nested depth (.array [])) rest).after 1)
  | .openArray :: rest => do
    let items ← items? (depth + 1) rest
    return (items.map fun items => nested depth (.array items)).after 1
  | .openRecord :: .closeRecord :: rest =>
    some ((Reading.of (nested depth (.record [])) rest).after 1)
  | .openRecord :: rest => do
    let fields ← fields? (depth + 1) rest
    return (fields.map fun fields => nested depth (recordOf fields)).after 1
  | _ => none
termination_by (tokens.length, 0)

/-- Items up to the closing bracket, at least one. -/
def items? (depth : Nat) (tokens : List Token) :
    Option (Reading Token (List Datum) tokens.length) := do
  match ← value? depth tokens with
  | ⟨item, .closeArray :: rest, h⟩ => some ((Reading.of [item] rest).within h)
  | ⟨item, .comma :: rest, h⟩ =>
    return (((← items? depth rest).map (item :: ·)).after 1).within h
  | _ => none
termination_by (tokens.length, 1)
decreasing_by all_goals grind

/-- Fields up to the closing bracket, at least one. -/
def fields? (depth : Nat) (tokens : List Token) :
    Option (Reading Token (List (Option String × Datum)) tokens.length) :=
  match tokens with
  | .string name :: .colon :: rest => do
    match ← value? depth rest with
    | ⟨value, .closeRecord :: further, h⟩ =>
      some (((Reading.of [(name, value)] further).within h).after 2)
    | ⟨value, .comma :: further, h⟩ =>
      let fields ← fields? depth further
      return (((fields.map ((name, value) :: ·)).after 1).within h).after 2
    | _ => none
  | _ => none
termination_by (tokens.length, 0)
decreasing_by all_goals grind

end

end Json

/-- The content of a JSON document. -/
def Datum.ofJson? (text : String) : Option Datum := do
  let tokens ← Json.tokens? text.toList
  match ← Json.value? 0 tokens with
  | ⟨datum, [], _⟩ => some datum
  | _ => none

end SolarTakeoff
