import CodeAtlas.Disk.Change

/-!
# Common directories
-/

namespace CodeAtlas.Files

/-- A path as seen from the root.  If the current directory is gone, the home directory is meant. -/
def resolved (d : Disk) (home path : String) : Except Error String :=
  let here := match d.herePath with
    | .ok here => here
    | .error _ => home
  let full := if Path.isAbsolute path then path else Path.join here path
  if full.toList.contains '\x00' then .error .nullInPath
  else .ok ("/" ++ Text.joined "/" (Path.normalComponents true (Text.fields '/' full)))

/-- The start that two lists have in common. -/
def commonStart : List String → List String → List String
  | a :: as, b :: bs => if a == b then a :: commonStart as bs else []
  | _, _ => []

/-- The start that all lists have in common. -/
def commonStartOf : List (List String) → List String
  | [] => []
  | first :: rest => rest.foldl commonStart first

/-- The longest path above all the given ones, which must all start at the root or all not do so. -/
def commonPath (paths : List String) : Except Error String :=
  let rooted := paths.all Path.isAbsolute
  if !rooted && paths.any Path.isAbsolute then .error .mixedRoots
  else .ok ((if rooted then "/" else "") ++ Text.joined "/" (commonStartOf (paths.map Path.Pure.plainComponents)))

/-- The directory that paths have in common, by their spelling: that of a single path is the one it is
in, and no paths have the current one in common. -/
def commonDirectory (d : Disk) (home : String) (paths : List String) : Except Error String :=
  match paths with
  | [] => do resolved d home (← d.herePath)
  | [path] => resolved d home (Path.directory path)
  | paths => do resolved d home (← commonPath paths)

/-- The deepest path above all the given ones, or the directory it is in if it is a file. -/
def commonRoot (d : Disk) (paths : List String) : Except Error String := do
  if paths.isEmpty then d.herePath
  else
    let full ← paths.mapM d.absolute
    match commonStartOf (full.map fun p => (Path.Pure.ofString p).allParts) with
    | [] => d.herePath
    | first :: rest =>
      let common := rest.foldl Path.join first
      return if d.isFile common then Path.directory common else common

end CodeAtlas.Files
