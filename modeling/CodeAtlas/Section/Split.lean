import CodeAtlas.Section.Boundary
import CodeAtlas.Tokens.Counter

/-!
# Cutting a section into parts

A section that counts too many tokens is cut into parts.  The lines are added to the current part one
after another; before one that would exceed the limit the part is cut at the latest boundary, or, if
there is none, right there.
-/

namespace CodeAtlas.Section

/-- How a section is cut: the limit that is meant by a given one, the lines behind the landmarks of a
text with a file extension, and the groups of words that start a definition. -/
structure Policy where
  limit : Int → Int
  ends : (content extension : String) → List Nat
  heads : List (List String)

/-- No part is asked to be smaller than this. -/
def leastLimit : Int := 4096

/-- Landmarks are taken into account, and every limit is possible. -/
def Policy.guided : Policy where
  limit := id
  ends content extension := (Landmark.ofText content extension).map (·.finish)
  heads := [Boundary.definitionWords ++ Boundary.variableWords, Boundary.modifierWords]

/-- Only the text of the lines is looked at, and limits have a least value. -/
def Policy.plain : Policy where
  limit := max leastLimit
  ends _ _ := []
  heads := [Boundary.definitionWords, Boundary.variableWords, Boundary.modifierWords]

/-- The parts made so far, the lines of the current one with their tokens, and the line from which the
next part is taken. -/
structure Progress where
  parts : List String := []
  current : List String := []
  tokens : Nat := 0
  start : Nat := 0

/-- The lines from one number up to another one. -/
def range (lines : List String) (a b : Nat) : List String := (lines.drop a).take (b - a)

/-- The tokens of lines, each with its end. -/
def tokensOf (count : Counter) (lines : List String) : Nat :=
  lines.foldr (fun l total => count (l ++ "\n") + total) 0

/-- The latest boundary behind `start` and not behind line `i`, or `start`. -/
def latest (boundaries : List Nat) (start i : Nat) : Nat :=
  boundaries.foldl (fun best p => if p ≤ i && best < p then p else best) start

/-- One more part, unless it is blank. -/
def addPart (parts : List String) (lines : List String) : List String :=
  let text := Text.unlines lines
  if Text.isBlankText text then parts else parts ++ [text]

/-- Adds line number `i`. -/
def Progress.step (count : Counter) (limit : Int) (boundaries : List Nat) (lines : List String)
    (s : Progress) (line : String) (i : Nat) : Progress :=
  let own := count (line ++ "\n")
  if (s.tokens + own : Nat) ≤ limit then
    { s with current := s.current ++ [line], tokens := s.tokens + own }
  else
    let cut := latest boundaries s.start i
    if s.start < cut then
      let current := range lines cut (i + 1)
      ⟨addPart s.parts (range lines s.start cut), current, tokensOf count current, cut⟩
    else
      let parts := if s.current.isEmpty then s.parts else s.parts ++ [Text.unlines s.current]
      ⟨parts, [line], own, i + 1⟩

/-- The parts when all lines have been added. -/
def Progress.finish (s : Progress) : List String :=
  if s.current.isEmpty then s.parts else addPart s.parts s.current

/-- The parts after one pass over the lines. -/
def splitOnce (count : Counter) (limit : Int) (boundaries : List Nat) (lines : List String) : List String :=
  (lines.zipIdx.foldl (fun s (line, i) => Progress.step count limit boundaries lines s line i) {}).finish

/-- Whether a part counts more than the limit and has several lines. -/
def tooLarge (count : Counter) (limit : Int) (part : String) : Bool :=
  limit < count part && 1 < (Text.lines part).length

/-- Visits part number `i`: if it is too large and the list has entries behind that number, what `again`
makes of it takes the place of the entry at its number in the list as it now is. -/
def recut (count : Counter) (limit : Int) (again : String → List String) (now : List String) (part : String)
    (i : Nat) : List String :=
  if tooLarge count limit part && i + 1 < now.length then now.take i ++ again part ++ now.drop (i + 1)
  else now

/-- Cuts those parts again that are too large.  The parts are visited by their first numbering. -/
def resplit (count : Counter) (limit : Int) (again : String → List String) (parts : List String) :
    List String :=
  parts.zipIdx.foldl (fun now (part, i) => recut count limit again now part i) parts

/-- The parts of a section after one pass over its lines. -/
def firstParts (p : Policy) (count : Counter) (limit : Int) (extension content : String) : List String :=
  let lines := Text.lines content
  splitOnce count limit (Boundary.all p.heads lines (p.ends content extension)) lines

/-- The parts of a section, cut again at most `depth` times. -/
def splitFrom (p : Policy) (count : Counter) (limit : Int) (extension : String) : Nat → String → List String
  | 0, content => [content]
  | depth + 1, content =>
    if count content ≤ limit then [content]
    else resplit count limit (splitFrom p count limit extension depth) (firstParts p count limit extension content)

/-- The parts of a section.  A part that is cut again has fewer lines than the section. -/
def split (p : Policy) (count : Counter) (limit : Int) (extension content : String) : List String :=
  splitFrom p count (p.limit limit) extension ((Text.lines content).length + 1) content

end CodeAtlas.Section
