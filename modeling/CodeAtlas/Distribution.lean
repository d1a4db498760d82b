import CodeAtlas.Disk.Change
import CodeAtlas.Sorting
import CodeAtlas.Value.Basic

/-!
# The description of the distribution

What an installer is told about the program: fixed facts, the requirements and the long description from
the files in the current directory, and the packages found there.
-/

namespace CodeAtlas.Distribution

/-- The name of the distribution and of its top package. -/
def name : String := "repomap"

/-- Whether a directory is a package: a file marks it as one. -/
def isPackage (t : Tree) : Bool := (t.child? "__init__.py").any (!·.isDirectory)

/-- The packages below a directory, by their dotted names, which start with `above`. -/
def packagesIn (above : String) : Tree → List String
  | .file _ _ => []
  | .directory es => among es
where
  /-- The packages among some entries and below them. -/
  among : List (String × Tree) → List String
    | [] => []
    | (name, t) :: rest =>
      (if t.isDirectory && !name.toList.contains '.' && isPackage t then
        (above ++ name) :: packagesIn (above ++ name ++ ".") t
      else []) ++ among rest

/-- Whether a package belongs to the distribution. -/
def isIncluded (package : String) : Bool := package == name || Text.startsWith package (name ++ ".")

/-- The text of a file, if there is one. -/
def textOf? (d : Disk) (file : String) : Except Error (Option String) :=
  if d.exists? file then some <$> d.readText file else .ok none

/-- A list of texts as a value. -/
def texts (xs : List String) : Value := .list (xs.map .str)

/-- Facts about the distribution that are the same everywhere. -/
def facts : List (String × Value) :=
  [("name", .str name), ("version", .str "0.1.2"),
    ("url", .str "https://github.com/Emasoft/repomap"), ("license", .str "Apache-2.0"),
    ("author", .str "Emasoft"), ("author_email", .str "713559+Emasoft@users.noreply.github.com"),
    ("description", .str "A tool for mapping and visualizing code repositories"),
    ("long_description_content_type", .str "text/markdown"), ("python_requires", .str ">=3.10, <3.14"),
    ("classifiers", texts ["Development Status :: 4 - Beta", "Intended Audience :: Developers",
      "Programming Language :: Python :: 3", "Programming Language :: Python :: 3.10",
      "Programming Language :: Python :: 3.11", "Programming Language :: Python :: 3.12",
      "Programming Language :: Python :: 3.13",
      "Topic :: Software Development :: Libraries :: Python Modules",
      "Topic :: Software Development :: Documentation"]),
    ("entry_points", .record [("console_scripts",
      texts ["repomap=repomap:main", "ast_parser=repomap.ast_parser:main"])]),
    ("scripts", texts ["scripts/repomap.py", "scripts/ast_parser.py", "repomap.py", "ast_parser.py"]),
    ("include_package_data", .bool true),
    ("package_data", .record [(name, texts ["queries/*.scm", "queries/tree-sitter-language-pack/*.scm",
      "queries/tree-sitter-languages/*.scm", "queries/fallback/*.scm"])])]

/-- The description of the distribution in the current directory. -/
def describe (d : Disk) : Except Error Value := do
  let requirements ← textOf? d "requirements.txt"
  let readme ← textOf? d "README.md"
  let packages := ((d.get? ".").map (packagesIn "")).getD []
  return .record <| facts ++
    [("install_requires", texts ((requirements.map Text.lines).getD [])),
      ("long_description", .str (readme.getD "RepoMap - Code repository mapping tool")),
      ("packages", texts (sortTexts (packages.filter isIncluded)))]

end CodeAtlas.Distribution
