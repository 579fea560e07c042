import SolarTakeoff.Decimal.Basic

/-!
# Dates and times

A date, a time, or both with an optional offset.  Every part has a fixed number
of digits and its own range; the days of a month follow the calendar, and a
minute may have a leap second.
-/

namespace SolarTakeoff

namespace Toml

def isLeapYear (year : Nat) : Bool :=
  year % 4 == 0 && (year % 100 != 0 || year % 400 == 0)

def daysOfMonth (year month : Nat) : Nat :=
  if month = 2 then
    if isLeapYear year then 29 else 28
  else if month ∈ [4, 6, 9, 11] then
    30
  else
    31

/-- A number of the given width in a range, and what follows it. -/
def part? (width least greatest : Nat) (chars : List Char) : Option (Nat × List Char) :=
  let digits := chars.take width
  let value := digitsValue digits
  if digits.length = width ∧ digits.all Char.isDigit ∧ least ≤ value ∧ value ≤ greatest then
    some (value, chars.drop width)
  else
    none

/-- What follows the mark. -/
def after? (mark : Char) : List Char → Option (List Char)
  | [] => none
  | char :: rest => if char == mark then some rest else none

/-- What follows a date. -/
def afterDate? (chars : List Char) : Option (List Char) := do
  let (year, chars) ← part? 4 0 9999 chars
  let chars ← after? '-' chars
  let (month, chars) ← part? 2 1 12 chars
  let chars ← after? '-' chars
  let (_, chars) ← part? 2 1 (daysOfMonth year month) chars
  return chars

/-- What follows hours and minutes. -/
def afterMinutes? (chars : List Char) : Option (List Char) := do
  let (_, chars) ← part? 2 0 23 chars
  let chars ← after? ':' chars
  let (_, chars) ← part? 2 0 59 chars
  return chars

/-- What follows a time, which may have a fraction of a second. -/
def afterTime? (chars : List Char) : Option (List Char) := do
  let chars ← afterMinutes? chars
  let chars ← after? ':' chars
  let (_, chars) ← part? 2 0 60 chars
  match chars with
  | '.' :: digit :: rest =>
    if digit.isDigit then some (rest.dropWhile Char.isDigit) else none
  | rest => some rest

/-- The offset of a time, or nothing. -/
def isOffset : List Char → Bool
  | [] => true
  | ['Z'] | ['z'] => true
  | '+' :: chars | '-' :: chars => afterMinutes? chars == some []
  | _ => false

def isDate (chars : List Char) : Bool :=
  afterDate? chars == some []

def isTime (chars : List Char) : Bool :=
  afterTime? chars == some []

def isTimeWithOffset (chars : List Char) : Bool :=
  (afterTime? chars).any isOffset

/-- A date, a time, or a date and a time with a mark between them. -/
def isMoment (chars : List Char) : Bool :=
  isTime chars ||
    match afterDate? chars with
    | some [] => true
    | some (mark :: time) => (mark ∈ ['T', 't', ' ']) && isTimeWithOffset time
    | none => false

end Toml

end SolarTakeoff
