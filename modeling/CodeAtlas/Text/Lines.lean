/-!
# Lines of a text

A line ends at a line feed, a carriage return, the two together, or one of the other characters
that the standard counts as line or paragraph boundaries.  A text that ends with a line end has no
further, empty line.
-/

namespace CodeAtlas.Text

/-- A character that ends a line. -/
def isLineEnd (c : Char) : Bool :=
  let n := c.toNat
  (10 ≤ n && n ≤ 13) || (28 ≤ n && n ≤ 30) || n == 0x85 || n == 0x2028 || n == 0x2029

/-- Puts a character in front of the first line. -/
def consLine (c : Char) : List (List Char) → List (List Char)
  | [] => [[c]]
  | line :: rest => (c :: line) :: rest

/-- The lines of a text, each with its end. -/
def splitKeep : List Char → List (List Char)
  | [] => []
  | '\r' :: '\n' :: rest => ['\r', '\n'] :: splitKeep rest
  | c :: rest => if isLineEnd c then [c] :: splitKeep rest else consLine c (splitKeep rest)

/-- A line without its end. -/
def dropLineEnd (line : List Char) : List Char := line.takeWhile fun c => !isLineEnd c

/-- The lines of a text without their ends. -/
def splitLines (cs : List Char) : List (List Char) := (splitKeep cs).map dropLineEnd

/-- The lines of a text, each with its end. -/
def linesKeep (s : String) : List String := (splitKeep s.toList).map String.ofList

/-- The lines of a text without their ends. -/
def lines (s : String) : List String := (splitLines s.toList).map String.ofList

/-- Lines joined by line feeds. -/
def unlines (ls : List String) : String := "\n".intercalate ls

/-- Every carriage return, alone or before a line feed, becomes a line feed. -/
def foldNewlineChars : List Char → List Char
  | [] => []
  | '\r' :: '\n' :: rest => '\n' :: foldNewlineChars rest
  | c :: rest => (if c == '\r' then '\n' else c) :: foldNewlineChars rest

/-- Every carriage return, alone or before a line feed, becomes a line feed. -/
def foldNewlines (s : String) : String := String.ofList (foldNewlineChars s.toList)

end CodeAtlas.Text
