import CodeAtlas.Files.Kind
import CodeAtlas.Pattern.Basic
import CodeAtlas.Tag.Basic
import CodeAtlas.Tag.Queries
import CodeAtlas.Voice

/-!
# Extracting tags from a file

If a tagger is at hand it is asked with the query file of the language.  Otherwise every line is compared
with a few patterns, of which the first group is the name that the line defines.
-/

namespace CodeAtlas.Tag

open Pattern

/-- The name that a pattern finds. -/
def namedWord : Pattern := group 1 word

/-- A keyword at the start of a line, and a name. -/
def keywordPattern (keyword : String) : Pattern := concat [literal keyword, blanks1, namedWord]

/-- An indented function. -/
def indentedDefinition : Pattern := concat [blanks1, literal "def", blanks1, namedWord]

/-- An indented name with parameters and an opening brace. -/
def indentedMethod : Pattern :=
  concat [blanks1, namedWord, blanks, literal "(", many (one (· != ')')), literal ")", blanks, literal "\x7b"]

/-- The patterns of a language by the kind of tag that they find. -/
def linePatterns (language : String) : List (String × Pattern) :=
  let script := [("class", keywordPattern "class"), ("function", keywordPattern "function"),
    ("method", indentedMethod)]
  match language with
  | "python" =>
    [("class", keywordPattern "class"), ("function", keywordPattern "def"), ("method", indentedDefinition)]
  | "javascript" => script
  | "typescript" => script ++ [("interface", keywordPattern "interface")]
  | _ => []

/-- The name that a pattern finds at the start of a line. -/
def nameIn? (p : Pattern) (line : String) : Option String :=
  (p.matchAt (Spot.start line.toList)).map fun spot => (Found.mk 0 spot).group 1

/-- The tags of a line. -/
def ofLine (patterns : List (String × Pattern)) (relFile file line : String) (number : Nat) : List Tag :=
  patterns.filterMap fun (kind, p) => (nameIn? p line).map fun name => ⟨relFile, file, number, name, kind⟩

/-- The tags that patterns find in a text. -/
def ofText (patterns : List (String × Pattern)) (relFile file text : String) : List Tag :=
  ((Text.lines text).zipIdx 1).flatMap fun (line, number) => ofLine patterns relFile file line number

/-- The tag that a tagger reports, if it has a name and a kind. -/
def ofMatch? (relFile file : String) (m : TagMatch) : Option Tag :=
  let name := m.name.getD ""
  let kind := m.kind.getD ""
  if name.isEmpty || kind.isEmpty then none else some ⟨relFile, file, m.line.getD 1, name, kind⟩

/-- The tags that a tagger reports for a file, or why there are none. -/
def ofTagger (t : Tagger) (relFile file : String) : Except Error (List Tag) :=
  match t.reply with
  | .reports found => .ok (((found.lookup file).getD []).filterMap (ofMatch? relFile file))
  | .fails text => .error (.other text)
  | .unable => .error (.other "module 'grep_ast' has no attribute 'ast_grep'")

/-- The tags of a file in a language as a tagger reports them. -/
def askTagger (v : Voice) (t : Tagger) (language relFile file : String) : Job (List Tag) := do
  let w ← get
  match Queries.find? w.disk w.program language "tags" with
  | none => do
    v.warn s!"No tree-sitter queries found for language: {language}"
    return []
  | some query =>
    match (do let _ ← w.disk.readText query; ofTagger t relFile file : Except Error (List Tag)) with
    | .ok tags => return tags
    | .error e => do
      v.warn s!"Error parsing {file}: {e.message}"
      return []

/-- The tags of a file. -/
def extract (v : Voice) (file relFile : String) : Job (List Tag) := do
  let w ← get
  if !w.disk.isFile file then
    v.warn s!"File not found: {file}"
    return []
  else
    match Files.taggedLanguage? file, w.tagger with
    | none, _ => do
      v.warn s!"Unknown language for file: {file}"
      return []
    | some language, some t => askTagger v t language relFile file
    | some language, none => do
      v.warn "grep_ast not available, using regex fallback"
      match w.disk.readLossy file with
      | .ok text => return ofText (linePatterns language) relFile file text
      | .error e => do
        v.warn s!"Error parsing {file} with regex: {e.message}"
        return []

end CodeAtlas.Tag
