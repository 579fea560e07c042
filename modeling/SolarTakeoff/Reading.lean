/-!
# Readings

What a rule of a grammar reads from the front of a list: a value, the symbols
left over, and the fact that these are fewer than the bound.  A grammar whose
rules return readings recurses on the length of what is left.

The operations on readings adjust the bound, so that the rules of a grammar
say what they read and nothing about lengths.
-/

namespace SolarTakeoff

theorem length_dropWhile_le {σ : Type} (p : σ → Bool) (symbols : List σ) :
    (symbols.dropWhile p).length ≤ symbols.length :=
  (List.dropWhile_sublist p).length_le

structure Reading (σ α : Type) (bound : Nat) where
  value : α
  rest : List σ
  shorter : rest.length < bound

namespace Reading

variable {σ α β : Type} {inner bound : Nat}

/-- A value with the symbols left over after it. -/
def of (value : α) (rest : List σ) : Reading σ α (rest.length + 1) :=
  ⟨value, rest, Nat.lt_succ_self _⟩

def map (f : α → β) (reading : Reading σ α bound) : Reading σ β bound :=
  ⟨f reading.value, reading.rest, reading.shorter⟩

def widen (reading : Reading σ α inner) (h : inner ≤ bound) : Reading σ α bound :=
  ⟨reading.value, reading.rest, Nat.lt_of_lt_of_le reading.shorter h⟩

def within (reading : Reading σ α inner) (h : inner < bound) : Reading σ α bound :=
  reading.widen (Nat.le_of_lt h)

/-- The reading with more symbols in front of it. -/
def after (count : Nat) (reading : Reading σ α bound) : Reading σ α (bound + count) :=
  reading.widen (Nat.le_add_right _ _)

@[simp] theorem value_of (value : α) (rest : List σ) : (of value rest).value = value :=
  rfl

@[simp] theorem rest_of (value : α) (rest : List σ) : (of value rest).rest = rest :=
  rfl

@[simp] theorem value_map (f : α → β) (reading : Reading σ α bound) :
    (reading.map f).value = f reading.value :=
  rfl

@[simp] theorem rest_map (f : α → β) (reading : Reading σ α bound) :
    (reading.map f).rest = reading.rest :=
  rfl

@[simp] theorem value_widen (reading : Reading σ α inner) (h : inner ≤ bound) :
    (reading.widen h).value = reading.value :=
  rfl

@[simp] theorem rest_widen (reading : Reading σ α inner) (h : inner ≤ bound) :
    (reading.widen h).rest = reading.rest :=
  rfl

@[simp] theorem value_after (count : Nat) (reading : Reading σ α bound) :
    (reading.after count).value = reading.value :=
  rfl

@[simp] theorem rest_after (count : Nat) (reading : Reading σ α bound) :
    (reading.after count).rest = reading.rest :=
  rfl

/-- Skips some of what is left over. -/
def skip (f : List σ → List σ) (h : ∀ symbols, (f symbols).length ≤ symbols.length)
    (reading : Reading σ α bound) : Reading σ α bound :=
  ⟨reading.value, f reading.rest, Nat.lt_of_le_of_lt (h _) reading.shorter⟩

/-- One symbol, if it is at the front. -/
def symbol? [DecidableEq σ] (symbol : σ) (symbols : List σ) :
    Option (Reading σ Unit symbols.length) :=
  match symbols with
  | [] => none
  | next :: rest => if next = symbol then some (of () rest) else none

/-- The reading and a symbol after it, if that is the next one. -/
def followedBy? [DecidableEq σ] (symbol : σ) (reading : Reading σ α bound) :
    Option (Reading σ α bound) := do
  let next ← symbol? symbol reading.rest
  return (next.map fun _ => reading.value).within reading.shorter

/-- The longest run of symbols of a class, which has at least one of them. -/
def run? (p : σ → Bool) (symbols : List σ) : Option (Reading σ (List σ) symbols.length) :=
  match symbols with
  | [] => none
  | symbol :: rest =>
    if p symbol then
      some ⟨symbol :: rest.takeWhile p, rest.dropWhile p,
        Nat.lt_succ_of_le (length_dropWhile_le p rest)⟩
    else
      none

end Reading

end SolarTakeoff
