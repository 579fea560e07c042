import SolarTakeoff.Binary64.Integral

/-!
# Money and tax

Amounts are whole cents of sixty-four bits.  Dollar amounts are rounded to
cents once, when a line is priced, and everything after that is integer
arithmetic, so that totals do not depend on the order of the lines.
-/

namespace SolarTakeoff

/-- A tax rate in basis points, hundredths of a percent. -/
structure TaxRate where
  bps : UInt32
deriving DecidableEq

namespace TaxRate

/-- Goods and services tax, ten percent. -/
def standard : TaxRate :=
  ⟨1000⟩

/-- A rate of one hundred percent, the largest that makes sense. -/
def limit : TaxRate :=
  ⟨10000⟩

def percentage (rate : TaxRate) : Binary64 :=
  .ofNat rate.bps.toNat / .ofNat 100

end TaxRate

structure Money where
  cents : Int64
deriving DecidableEq

namespace Money

def zero : Money :=
  ⟨0⟩

def add (a b : Money) : Money :=
  ⟨a.cents + b.cents⟩

def sub (a b : Money) : Money :=
  ⟨a.cents - b.cents⟩

instance : Add Money := ⟨add⟩
instance : Sub Money := ⟨sub⟩

instance : Ord Money := ⟨fun a b => compare a.cents b.cents⟩

def sum (amounts : List Money) : Money :=
  amounts.foldl (· + ·) zero

/-- The nearest cent, a half away from zero.  Amounts beyond the range stop at
its ends, and what is not finite counts as nothing. -/
def ofDollars (dollars : Binary64) : Money :=
  if dollars.isFinite then ⟨(dollars * .ofNat 100).roundAway.toInt64⟩ else zero

/-- The price of a quantity at a unit cost in dollars, which may be a fraction
of a cent. -/
def lineTotal (unitCost quantity : Binary64) : Money :=
  ofDollars (unitCost * quantity)

/-- The whole dollars, cut toward zero. -/
def dollars (amount : Money) : Int :=
  amount.cents.toInt.tdiv 100

/-- The cents beside the whole dollars, from 0 to 99. -/
def centsPart (amount : Money) : Nat :=
  (amount.cents.toInt.tmod 100).natAbs

def toDollars (amount : Money) : Binary64 :=
  .ofInt amount.cents.toInt / .ofNat 100

def isZero (amount : Money) : Bool :=
  amount.cents == 0

def isNegative (amount : Money) : Bool :=
  amount.cents < 0

/-- The tax on an amount, rounded half up when it is not negative. -/
def tax (amount : Money) (rate : TaxRate) : Money :=
  ⟨.ofInt ((amount.cents.toInt * rate.bps.toNat + 5000).tdiv 10000)⟩

def chars (amount : Money) : List Char :=
  let cents := Nat.toDigits 10 amount.centsPart
  (if amount.isNegative then ['-'] else []) ++
    '$' :: Nat.toDigits 10 amount.dollars.natAbs ++
    '.' :: List.replicate (2 - cents.length) '0' ++ cents

/-- The amount in dollars with two places. -/
def text (amount : Money) : String :=
  .ofList amount.chars

end Money

end SolarTakeoff
