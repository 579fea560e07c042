import SolarTakeoff.Binary64.Integral

/-!
# Data of documents

A datum is the content of a document, whatever format it was written in.
Numbers without a fraction are kept apart from the others, since some fields
accept only these.

`Datum.unreadable` stands for what is well formed in its format but has no
value: a string with half a surrogate pair, a number beyond the range, or
nesting beyond the limit.  A field that is not looked at may hold it; no
reader accepts it.
-/

namespace SolarTakeoff

inductive Datum where
  | null
  | bool (value : Bool)
  | integer (value : Int)
  | number (value : Binary64)
  | string (value : String)
  | array (items : List Datum)
  | record (fields : List (String × Datum))
  | unreadable

namespace Datum

mutual

/-- No part of the datum is unreadable. -/
def isReadable : Datum → Bool
  | .unreadable => false
  | .array items => areReadable items
  | .record fields => fieldsAreReadable fields
  | _ => true

def areReadable : List Datum → Bool
  | [] => true
  | item :: items => item.isReadable && areReadable items

def fieldsAreReadable : List (String × Datum) → Bool
  | [] => true
  | (_, value) :: fields => value.isReadable && fieldsAreReadable fields

end

def bool? : Datum → Option Bool
  | .bool value => some value
  | _ => none

def string? : Datum → Option String
  | .string value => some value
  | _ => none

/-- A number field takes whole numbers too. -/
def binary64? : Datum → Option Binary64
  | .number value => some value
  | .integer value => some (.ofInt value)
  | _ => none

/-- A whole number from `least` to `greatest`, written without a fraction or
an exponent. -/
def integer? (least greatest : Int) : Datum → Option Int
  | .integer value => if least ≤ value ∧ value ≤ greatest then some value else none
  | _ => none

def uint32? (datum : Datum) : Option UInt32 :=
  (datum.integer? 0 4294967295).map fun value => .ofNat value.toNat

def int32? (datum : Datum) : Option Int32 :=
  (datum.integer? (-2147483648) 2147483647).map Int32.ofInt

def int64? (datum : Datum) : Option Int64 :=
  (datum.integer? (-9223372036854775808) 9223372036854775807).map Int64.ofInt

def list? {α : Type} (item? : Datum → Option α) : Datum → Option (List α)
  | .array items => items.mapM item?
  | _ => none

/-- A value that may be null instead. -/
def nullable? {α : Type} (value? : Datum → Option α) : Datum → Option (Option α)
  | .null => some none
  | datum => (value? datum).map some

/-- Only finite numbers can be written down. -/
def ofBinary64 (value : Binary64) : Datum :=
  if value.isFinite then .number value else .null

def ofOption {α : Type} (toDatum : α → Datum) : Option α → Datum
  | none => .null
  | some value => toDatum value

def ofList {α : Type} (toDatum : α → Datum) (items : List α) : Datum :=
  .array (items.map toDatum)

end Datum

end SolarTakeoff
