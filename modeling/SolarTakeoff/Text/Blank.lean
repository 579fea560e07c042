/-!
# Blank characters

The twenty-five characters with the property White_Space of Unicode, and text
without blanks at its ends.
-/

namespace SolarTakeoff

def isBlank (char : Char) : Bool :=
  char ∈ [
    '\u0009', '\u000a', '\u000b', '\u000c', '\u000d', '\u0020', '\u0085',
    '\u00a0', '\u1680', '\u2000', '\u2001', '\u2002', '\u2003', '\u2004',
    '\u2005', '\u2006', '\u2007', '\u2008', '\u2009', '\u200a', '\u2028',
    '\u2029', '\u202f', '\u205f', '\u3000']

/-- Drops the blanks at both ends. -/
def trimBlanks (chars : List Char) : List Char :=
  ((chars.dropWhile isBlank).reverse.dropWhile isBlank).reverse

/-- Nothing but blanks, or nothing at all. -/
def isBlankText (text : String) : Bool :=
  text.toList.all isBlank

end SolarTakeoff
