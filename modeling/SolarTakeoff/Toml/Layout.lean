import SolarTakeoff.Reading

/-!
# The layout of a TOML document

What may stand between the parts of a document: spaces and tabs within a line,
and over several lines also line ends and comments.  A comment runs to the end
of its line.
-/

namespace SolarTakeoff

namespace Toml

def isSpace (char : Char) : Bool :=
  char == ' ' || char == '\t'

/-- The characters that stand for themselves in comments and strings: the tab
and all that are not control characters of ASCII. -/
def isPlain (char : Char) : Bool :=
  char == '\t' || (32 ≤ char.toNat && char.toNat ≠ 127)

def skipSpaces (chars : List Char) : List Char :=
  chars.dropWhile isSpace

theorem length_skipSpaces_le (chars : List Char) :
    (skipSpaces chars).length ≤ chars.length :=
  length_dropWhile_le _ _

/-- A line end, of one character or two. -/
def newline? (chars : List Char) : Option (Reading Char Char chars.length) :=
  match chars with
  | '\n' :: rest => some (.of '\n' rest)
  | '\r' :: '\n' :: rest => some ((Reading.of '\n' rest).after 1)
  | _ => none

/-- Skips over spaces and line ends, and over comments if they may stand
there. -/
def skipLines (comments : Bool) (chars : List Char) : List Char :=
  match chars with
  | [] => []
  | char :: rest =>
    if isSpace char then skipLines comments rest
    else if comments && char == '#' then skipLines comments (rest.dropWhile isPlain)
    else
      match newline? (char :: rest) with
      | some ⟨_, further, _⟩ => skipLines comments further
      | none => char :: rest
termination_by chars.length
decreasing_by all_goals grind [length_dropWhile_le]

theorem length_skipLines_le (comments : Bool) (chars : List Char) :
    (skipLines comments chars).length ≤ chars.length := by
  fun_induction skipLines comments chars with
  | case1 => exact Nat.le_refl _
  | case2 char rest _ ih => exact Nat.le_succ_of_le ih
  | case3 char rest _ _ ih => exact Nat.le_succ_of_le (Nat.le_trans ih (length_dropWhile_le _ _))
  | case4 char rest _ _ value further h _ ih => exact Nat.le_of_lt (Nat.lt_of_le_of_lt ih h)
  | case5 => exact Nat.le_refl _

/-- Nothing but spaces and a comment is left on the line. -/
def endsLine (chars : List Char) : Bool :=
  let rest :=
    match skipSpaces chars with
    | '#' :: comment => comment.dropWhile isPlain
    | rest => rest
  rest.isEmpty || (newline? rest).isSome

end Toml

end SolarTakeoff
