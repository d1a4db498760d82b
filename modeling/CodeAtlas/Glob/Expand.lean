import CodeAtlas.Disk.Walk
import CodeAtlas.Glob.Basic

/-!
# Expanding patterns to paths

The paths that match a pattern, spelled as the pattern is: names without wildcards are kept as they are.
Wildcards do not match names that start with a dot unless the pattern does so too.  If a pattern is read
in depth, a component of two stars leads to everything below; otherwise it is like a single star.
-/

namespace CodeAtlas.Glob

/-- A name that starts with a dot. -/
def isHidden (name : String) : Bool := name.toList.head? == some '.'

/-- A path followed by another one, where either may be missing. -/
def joinLoose (a b : String) : String := if a.isEmpty || b.isEmpty then a ++ b else Path.join a b

/-- The entries of a directory; no path stands for the current one. -/
def listing (d : Disk) (directory : String) (directoriesOnly : Bool) : List (String × Tree) :=
  match d.get? (if directory.isEmpty then "." else directory) with
  | some t => t.entries.filter fun (_, u) => !directoriesOnly || u.isDirectory
  | none => []

/-- Everything below a tree under a path that is not hidden, spelled from the tree on.  There is nothing in
a directory whose path is too long to be opened. -/
def visibleBelow (directoriesOnly : Bool) (path : String) : Tree → List String
  | .file _ _ => []
  | .directory es => if Disk.maxPath < path.utf8ByteSize then [] else go es
where
  /-- The visible entries and what is below them. -/
  go : List (String × Tree) → List String
    | [] => []
    | (name, t) :: rest =>
      (if isHidden name || (directoriesOnly && !t.isDirectory) then []
        else name :: (visibleBelow directoriesOnly (joinLoose path name) t).map (joinLoose name)) ++ go rest

/-- The names in a directory that match the last component of a pattern. -/
def namesIn (d : Disk) (deep : Bool) (directory pattern : String) (directoriesOnly : Bool) : List String :=
  if deep && pattern == "**" then
    (if directory.isEmpty || d.isDirectory directory then [""] else []) ++
      (match d.get? (if directory.isEmpty then "." else directory) with
        | some t => visibleBelow directoriesOnly directory t
        | none => [])
  else if hasWildcard pattern then
    ((listing d directory directoriesOnly).filter fun (name, _) =>
      (isHidden pattern || !isHidden name) && accepts pattern name).map Prod.fst
  else if pattern.isEmpty then if d.isDirectory directory then [""] else []
  else if d.exists? (joinLoose directory pattern) then [pattern] else []

/-- The paths that match a pattern, at most `depth` of whose components have wildcards before the last
one. -/
def expandFrom (d : Disk) (deep : Bool) : (depth : Nat) → (pattern : String) → (directoriesOnly : Bool) → List String
  | 0, _, _ => []
  | depth + 1, pattern, directoriesOnly =>
    let directory := Path.directory pattern
    let base := Path.baseName pattern
    if !hasWildcard pattern then
      if if base.isEmpty then d.isDirectory directory else d.exists? pattern then [pattern] else []
    else if directory.isEmpty then namesIn d deep "" base directoriesOnly
    else
      let directories :=
        if directory != pattern && hasWildcard directory then expandFrom d deep depth directory true
        else [directory]
      directories.flatMap fun dir => (namesIn d deep dir base directoriesOnly).map (Path.join dir)

/-- The paths that match a pattern.  Two stars at its start also stand for no component at all, which is
left out. -/
def expand (d : Disk) (deep : Bool) (pattern : String) : List String :=
  let found := expandFrom d deep (pattern.length + 1) pattern false
  if pattern.isEmpty || (deep && pattern.toList.take 2 == ['*', '*']) then
    match found with
    | "" :: rest => rest
    | found => found
  else found

/-- The directory where the search for what matches a pattern begins: all before the first component with
wildcards. -/
def stem (pattern : String) : String :=
  Path.directory (String.ofList (pattern.toList.takeWhile fun c => !(c == '*' || c == '?' || c == '[')))

/-- The paths that match a pattern that is read in depth.  A directory whose path holds a character that no
path can hold is refused when it is searched. -/
def search (d : Disk) (pattern : String) : Except Error (List String) :=
  if hasWildcard pattern && (stem pattern).toList.contains '\x00' then .error .nullInPath
  else .ok (expand d true pattern)

end CodeAtlas.Glob
