import CodeAtlas.Glob.Select

/-!
# Source files

The files below a directory, without those that match one of some patterns and without everything below
a directory that does.
-/

namespace CodeAtlas.Files

/-- What is ignored if nothing else is said. -/
def defaultIgnored : List String :=
  [".git", ".hg", ".svn", ".DS_Store", "node_modules", "venv", ".venv", "__pycache__", "*.pyc",
    ".repomap.tags.cache*", ".temp", "temp_*", "**/temp_*"]

/-- Patterns of tests. -/
def testPatterns : List String :=
  ["**/test_*.py", "**/tests/**", "**/test/**", "**/testing/**", "**/*_test.py", "**/*_test.js",
    "**/*_test.ts", "**/*.test.js", "**/*.test.ts", "**/*.spec.js", "**/*.spec.ts",
    "**/jest.config.js", "**/pytest.ini", "**/conftest.py", "**/unittest/**", "**/jasmine/**",
    "**/karma.conf.js"]

/-- Patterns of documentation. -/
def documentationPatterns : List String :=
  ["**/docs/**", "**/doc/**", "**/documentation/**", "**/*.md", "**/*.rst", "**/*.txt", "**/man/**",
    "**/examples/**", "**/README*", "**/CHANGELOG*", "**/LICENSE*", "**/CONTRIBUTING*"]

/-- Patterns of what belongs to version control. -/
def versionControlPatterns : List String :=
  ["**/.git/**", "**/.github/**", "**/.gitignore", "**/.gitattributes", "**/.gitmodules", "**/CODEOWNERS"]

/-- The groups of files that are skipped. -/
structure Skip where
  tests : Bool := false
  documentation : Bool := false
  versionControl : Bool := false
  deriving DecidableEq, Repr

/-- The patterns of the groups that are skipped. -/
def Skip.patterns (s : Skip) : List String :=
  (if s.tests then testPatterns else []) ++ (if s.documentation then documentationPatterns else []) ++
    (if s.versionControl then versionControlPatterns else [])

/-- Whether a failure says that a pattern cannot be used, so that it matches nothing. -/
def saysUnusable : Error → Bool
  | .emptyPathPattern | .unacceptablePathPattern _ | .mixedDoubleStar => true
  | _ => false

/-- Whether something matches a pattern with two stars: by the end of its path, or because the pattern
leads to it from the root. -/
def matchesDeep (d : Disk) (path pattern root : String) : Except Error Bool :=
  let file := Path.Pure.ofString path
  let outcome : Except Error Bool := do
    if ← Glob.matchesPath file pattern then return true
    else (← Glob.select d (Path.Pure.ofString root) pattern).finds file
  match outcome with
  | .ok b => .ok b
  | .error e => if saysUnusable e then .ok false else .error e

/-- Whether a file or directory matches a pattern: by its name, by its path from the root, or, with two
stars, by its place. -/
def matchesPattern (d : Disk) (path name pattern root : String) : Except Error Bool := do
  let rel ← d.relative root path
  if Glob.accepts pattern name || Glob.accepts pattern rel then return true
  else if Text.contains pattern "**" then matchesDeep d path pattern root
  else return false

/-- Whether a file or directory matches one of some patterns. -/
def matchesAny (d : Disk) (patterns : List String) (root path name : String) : Except Error Bool :=
  patterns.anyM fun pattern => matchesPattern d path name pattern root

/-- The files at and below a directory, where what `ignored` holds of is left out.  There is nothing in a
directory whose path is too long to be opened. -/
def filesBelow (ignored : (path name : String) → Except Error Bool) (path : String) :
    Tree → Except Error (List String)
  | .file _ _ => .ok []
  | .directory es =>
    if Disk.maxPath < path.utf8ByteSize then .ok []
    else do
      let kept ← es.filterM fun (name, _) => (!·) <$> ignored (Path.join path name) name
      let own := (kept.filter fun (_, t) => !t.isDirectory).map fun (name, _) => Path.join path name
      return own ++ (← below (kept.map Prod.fst) es)
where
  /-- The files below those entries whose names are kept. -/
  below (kept : List String) : List (String × Tree) → Except Error (List String)
    | [] => .ok []
    | (name, t) :: rest => do
      let inner ← if kept.contains name then filesBelow ignored (Path.join path name) t else .ok []
      return inner ++ (← below kept rest)

/-- The source files below a directory. -/
def sources (d : Disk) (root : String) (skip : Skip) (ignored : List String := defaultIgnored) :
    Except Error (List String) :=
  if root.toList.contains '\x00' then .error .nullInPath
  else
    match d.get? root with
    | some t => filesBelow (matchesAny d (ignored ++ skip.patterns) root) root t
    | none => .ok []

end CodeAtlas.Files
