import SolarTakeoff.Datum.Basic

/-!
# Records

A record is written with named fields in any order, or as the list of its
fields in their declared order.  Of named fields, unknown ones are passed over
and known ones may not repeat.  A list may be shorter than the record but not
longer; which fields it may leave off is for each field to say.
-/

namespace SolarTakeoff

/-- The fields found in a record, by name. -/
structure Record where
  positional : Bool
  fields : List (String × Datum)

/-- The record with the field names `names`. -/
def Datum.record? (names : List String) : Datum → Option Record
  | .record fields =>
    if names.all fun name => (fields.filter (·.1 == name)).length ≤ 1 then
      some ⟨false, fields⟩
    else
      none
  | .array items =>
    if items.length ≤ names.length then some ⟨true, names.zip items⟩ else none
  | _ => none

/-- The same record when a list may go on beyond the declared fields. -/
def Datum.openRecord? (names : List String) : Datum → Option Record
  | .array items => some ⟨true, names.zip items⟩
  | datum => datum.record? names

namespace Record

def get? (record : Record) (name : String) : Option Datum :=
  record.fields.lookup name

/-- A field that has to be there. -/
def required {α : Type} (record : Record) (value? : Datum → Option α) (name : String) :
    Option α :=
  record.get? name >>= value?

/-- A field that may be null, or missing among named fields. -/
def optional {α : Type} (record : Record) (value? : Datum → Option α) (name : String) :
    Option (Option α) :=
  match record.get? name with
  | some datum => datum.nullable? value?
  | none => if record.positional then none else some none

/-- A field that takes a default when it is missing. -/
def defaulted {α : Type} (record : Record) (value? : Datum → Option α) (default : α)
    (name : String) : Option α :=
  match record.get? name with
  | some datum => value? datum
  | none => some default

/-- A field that may be null or missing. -/
def lenient {α : Type} (record : Record) (value? : Datum → Option α) (name : String) :
    Option (Option α) :=
  record.defaulted (Datum.nullable? value?) none name

end Record

/-- A variant of a tagged record: the tag, and the record without it.  The tag
is the field `key`, or the first item of a list. -/
def Datum.variant? (key : String) (datum : Datum) : Option (String × Datum) :=
  if datum.isReadable then
    match datum with
    | .record fields =>
      match fields.filter (·.1 == key) with
      | [(_, .string tag)] => some (tag, .record (fields.filter (·.1 != key)))
      | _ => none
    | .array (.string tag :: items) => some (tag, .array items)
    | _ => none
  else
    none

end SolarTakeoff
