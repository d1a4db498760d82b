/-!
# Blank characters

The characters that count as white space, and the removal of them from the ends of a text.
-/

namespace CodeAtlas.Text

/-- White space: the separators of the standard together with the control characters that end or
divide lines, fields and records. -/
def isBlank (c : Char) : Bool :=
  let n := c.toNat
  (9 ≤ n && n ≤ 13) || (28 ≤ n && n ≤ 32) || n == 0x85 || n == 0xA0 || n == 0x1680 ||
    (0x2000 ≤ n && n ≤ 0x200A) || n == 0x2028 || n == 0x2029 || n == 0x202F || n == 0x205F ||
    n == 0x3000

/-- Drops the elements at the end that satisfy `p`. -/
def dropEndWhile (p : Char → Bool) (cs : List Char) : List Char :=
  (cs.reverse.dropWhile p).reverse

/-- The characters between the blanks at both ends. -/
def stripChars (cs : List Char) : List Char := dropEndWhile isBlank (cs.dropWhile isBlank)

/-- The text without the blanks at both ends. -/
def strip (s : String) : String := String.ofList (stripChars s.toList)

/-- A text that is empty or has nothing but blanks. -/
def isBlankText (s : String) : Bool := s.toList.all isBlank

end CodeAtlas.Text
