import CodeAtlas.Sorting
import CodeAtlas.Text.Lines
import CodeAtlas.Value.Basic

/-!
# Tags

A tag is a name that a source file defines, with the line of the definition.
-/

namespace CodeAtlas

/-- A name that a source file defines. -/
structure Tag where
  /-- The file as seen from the root of the repository. -/
  relFile : String
  file : String
  line : Int
  name : String
  kind : String
  deriving DecidableEq, Repr

namespace Tag

/-- The files of tags, each once. -/
def files (tags : List Tag) : List String := distinct (tags.map relFile)

/-- The tags of a file. -/
def ofFile (tags : List Tag) (file : String) : List Tag := tags.filter (·.relFile == file)

/-- Tags in the order of their lines. -/
def byLine (tags : List Tag) : List Tag := sortBy (fun a b => a.line < b.line) tags

/-- A readable list of tags, file by file. -/
def listing (tags : List Tag) : String :=
  Text.unlines ((sortTexts (files tags)).flatMap fun file =>
    s!"File: {file}" ::
      (byLine (ofFile tags file)).map (fun t => s!"  Line {t.line}: {t.kind} {t.name}") ++ [""])

/-- A tag as a list of its fields. -/
def toValue (t : Tag) : Value := .list [.str t.relFile, .str t.file, .int t.line, .str t.name, .str t.kind]

/-- The tag with given fields. -/
def ofValue? : Value → Option Tag
  | .list [.str relFile, .str file, .int line, .str name, .str kind] => some ⟨relFile, file, line, name, kind⟩
  | _ => none

end Tag

end CodeAtlas
