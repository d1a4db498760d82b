import CodeAtlas.Disk.Locate

/-!
# Query files

For every language there may be a file that says how tags are found in its syntax trees.  Those of the
current directory come before those that the program brings along.
-/

namespace CodeAtlas.Queries

/-- The first collection of languages. -/
def firstCollection : List String :=
  ["c", "c_sharp", "cpp", "dart", "elisp", "elixir", "elm", "go", "hcl", "java", "javascript",
    "kotlin", "ocaml", "php", "python", "ql", "ruby", "rust", "typescript"]

/-- The second collection of languages. -/
def secondCollection : List String :=
  ["arduino", "c", "chatito", "commonlisp", "cpp", "csharp", "d", "dart", "elisp", "elixir",
    "elm", "gleam", "go", "java", "javascript", "lua", "pony", "properties", "python", "r",
    "racket", "ruby", "rust", "solidity", "swift", "udev"]

/-- The names of the two collections. -/
def collections : List String := ["tree-sitter-languages", "tree-sitter-language-pack"]

/-- A directory with query files. -/
def queryDirectory (languages : List String) : Tree :=
  .directory (languages.map fun l => (l ++ "-tags.scm", .file (.bytes []) 0))

/-- The directory that the program brings along. -/
def shipped : Tree :=
  .directory [("modules", .empty),
    ("queries", .directory [("tree-sitter-languages", queryDirectory firstCollection),
      ("tree-sitter-language-pack", queryDirectory secondCollection),
      ("fallback", queryDirectory ["javascript", "python"])])]

/-- The directories in which query files are looked for, in order. -/
def directories (program : String) : List String :=
  collections.map (Path.join "queries") ++
    collections.map (fun c => Path.join (Path.join (Path.join program "modules") "../queries") c)

/-- The query file of a language, if there is one. -/
def find? (d : Disk) (program language query : String) : Option String :=
  ((directories program).map fun dir => Path.join dir s!"{language}-{query}.scm").find? d.isFile

end CodeAtlas.Queries
