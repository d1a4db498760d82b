import CodeAtlas.Tag.Basic
import CodeAtlas.Tokens.Counter

/-!
# The symbol map

The files with their tags, most important files first, as far as a number of tokens allows.
-/

namespace CodeAtlas.SymbolMap

/-- A quarter of the characters: the measure that is used if no other is given. -/
def roughCount : Counter := fun text => text.length / 4

/-- The line of a tag. -/
def tagLine (t : Tag) : String := s!"  {t.line}: {t.kind} {t.name}"

/-- The line in the place of tags that are left out. -/
def ellipsis : String := "  ..."

/-- The lines of tags as far as the limit allows, and the tokens used with them. -/
def tagLines (count : Counter) (limit : Int) : Nat → List Tag → List String × Nat
  | used, [] => ([], used)
  | used, t :: rest =>
    let next := used + count (tagLine t)
    if limit < next then ([ellipsis], used + count ellipsis)
    else
      let (lines, used) := tagLines count limit next rest
      (tagLine t :: lines, used)

/-- The line of a file. -/
def fileLine (file : String) : String := s!"\nFile: {file}"

/-- The lines of files as far as the limit allows, and the tokens used with them. -/
def fileLines (count : Counter) (limit : Int) (tags : List Tag) : Nat → List String → List String × Nat
  | used, [] => ([], used)
  | used, file :: rest =>
    let next := used + count (fileLine file)
    if limit < next then ([], used)
    else
      let (own, used) := tagLines count limit next (Tag.byLine (Tag.ofFile tags file))
      let (others, used) := fileLines count limit tags used rest
      (fileLine file :: own ++ others, used)

/-- The sum of the scores of a file's tags. -/
def fileScore (score : Tag → Int) (tags : List Tag) (file : String) : Int :=
  (Tag.ofFile tags file).foldr (fun t total => score t + total) 0

/-- The files, those with the highest scores first, then by name. -/
def sortedFiles (score : Tag → Int) (tags : List Tag) : List String :=
  sortBy (fun a b =>
    let x := fileScore score tags a
    let y := fileScore score tags b
    y < x || (x == y && textBefore a b)) (Tag.files tags)

/-- The first line of the map. -/
def title : String := "Repository symbols:"

/-- The note at the end of a map that has used up its tokens. -/
def truncationNote : String := "\n(Symbol map truncated due to token limit)"

/-- The symbol map. -/
def render (count : Counter) (limit : Int) (score : Tag → Int) (tags : List Tag) : String :=
  let (lines, used) := fileLines count limit tags (count title) (sortedFiles score tags)
  Text.unlines (title :: lines ++ (if limit ≤ used then [truncationNote] else []))

end CodeAtlas.SymbolMap
