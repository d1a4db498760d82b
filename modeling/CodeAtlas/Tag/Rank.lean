import CodeAtlas.Tag.Basic

/-!
# Ranking tags

Tags are ranked by how much they have to do with what is being talked about, then by file and line.
-/

namespace CodeAtlas

/-- The files and names that are being talked about. -/
structure Interest where
  chatFiles : List String := []
  mentionedFiles : List String := []
  mentionedNames : List String := []

namespace Interest

/-- The kinds of tags that are declarations. -/
def declarationKinds : List String :=
  ["class", "function", "method", "variable", "constant", "interface", "enum", "struct", "module"]

/-- A number of points if a condition holds. -/
def points (n : Nat) (condition : Bool) : Nat := if condition then n else 0

/-- How much a tag matters. -/
def score (i : Interest) (t : Tag) : Nat :=
  1 + points 10 (i.chatFiles.contains t.relFile) + points 5 (i.mentionedFiles.contains t.relFile) +
    points 10 (i.mentionedNames.contains t.name) + points 3 (declarationKinds.contains t.kind) +
    points 5 (t.name == "main" && t.kind == "function")

/-- Whether a tag is ranked before another one: by score, then file, then line. -/
def before (i : Interest) (a b : Tag) : Bool :=
  let x := i.score a
  let y := i.score b
  y < x || (x == y && (textBefore a.relFile b.relFile || (a.relFile == b.relFile && decide (a.line < b.line))))

/-- Tags with the most important first. -/
def rank (i : Interest) (tags : List Tag) : List Tag := sortBy i.before tags

end Interest

end CodeAtlas
