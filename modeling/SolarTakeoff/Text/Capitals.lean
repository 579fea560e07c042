/-!
# Capital forms that are ASCII letters

Words of the catalog are compared without regard to case, by the full capital
form of each character.  Besides the small ASCII letters only ten characters
have a capital form of ASCII letters alone: the dotless i, the long s, the
sharp s and the Latin ligatures of f and s.  Every other character stands for
itself here, which is enough to compare with an ASCII word, because its
capital form is not ASCII.
-/

namespace SolarTakeoff

/-- The capital form of a character, where that form is ASCII. -/
def asciiCapitals (char : Char) : List Char :=
  match char with
  | '\u0131' => ['I']
  | '\u017f' => ['S']
  | '\u00df' => ['S', 'S']
  | '\ufb00' => ['F', 'F']
  | '\ufb01' => ['F', 'I']
  | '\ufb02' => ['F', 'L']
  | '\ufb03' => ['F', 'F', 'I']
  | '\ufb04' => ['F', 'F', 'L']
  | '\ufb05' => ['S', 'T']
  | '\ufb06' => ['S', 'T']
  | _ => [char.toUpper]

end SolarTakeoff
