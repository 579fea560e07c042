import SolarTakeoff.Binary64.Basic

/-!
# Arithmetic on binary64 numbers

Each operation computes its exact result in units and rounds once.  A zero
result of a sum is negative only when both terms are; products and quotients
take their sign from the operands, zeros and infinities included.
-/

namespace SolarTakeoff

namespace Binary64

def neg : Binary64 → Binary64
  | .nan => .nan
  | .infinite negative => .infinite (!negative)
  | .finite negative magnitude => .finite (!negative) magnitude

def abs : Binary64 → Binary64
  | .nan => .nan
  | .infinite _ => .infinite false
  | .finite _ magnitude => .finite false magnitude

/-- A finite number as a signed count of units. -/
def signedUnits (negative : Bool) (magnitude : Magnitude) : Int :=
  if negative then -(magnitude.units : Int) else magnitude.units

def add : Binary64 → Binary64 → Binary64
  | .nan, _ => .nan
  | _, .nan => .nan
  | .infinite a, .infinite b => if a = b then .infinite a else .nan
  | .infinite a, .finite _ _ => .infinite a
  | .finite _ _, .infinite b => .infinite b
  | .finite a x, .finite b y =>
    let sum := signedUnits a x + signedUnits b y
    if sum = 0 then ofRatio (a && b) 0 1 else ofUnits sum

def sub (x y : Binary64) : Binary64 :=
  add x y.neg

def mul : Binary64 → Binary64 → Binary64
  | .nan, _ => .nan
  | _, .nan => .nan
  | .infinite a, .infinite b => .infinite (a != b)
  | .infinite a, .finite b y => if y.units = 0 then .nan else .infinite (a != b)
  | .finite a x, .infinite b => if x.units = 0 then .nan else .infinite (a != b)
  | .finite a x, .finite b y => ofRatio (a != b) (x.units * y.units) oneUnits

def div : Binary64 → Binary64 → Binary64
  | .nan, _ => .nan
  | _, .nan => .nan
  | .infinite _, .infinite _ => .nan
  | .infinite a, .finite b _ => .infinite (a != b)
  | .finite a _, .infinite b => ofRatio (a != b) 0 1
  | .finite a x, .finite b y =>
    if y.units = 0 then
      if x.units = 0 then .nan else .infinite (a != b)
    else
      ofRatio (a != b) (x.units * oneUnits) y.units

instance : Neg Binary64 := ⟨neg⟩
instance : Add Binary64 := ⟨add⟩
instance : Sub Binary64 := ⟨sub⟩
instance : Mul Binary64 := ⟨mul⟩
instance : Div Binary64 := ⟨div⟩

/-- The larger of two numbers; not-a-number gives way to the other one. -/
def max (x y : Binary64) : Binary64 :=
  if x.isNaN then y
  else if y.isNaN then x
  else if x.lt y then y
  else x

/-- The smaller of two numbers; not-a-number gives way to the other one. -/
def min (x y : Binary64) : Binary64 :=
  if x.isNaN then y
  else if y.isNaN then x
  else if y.lt x then y
  else x

end Binary64

end SolarTakeoff
