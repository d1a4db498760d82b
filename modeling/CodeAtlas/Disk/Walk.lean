import CodeAtlas.Disk.Change

/-!
# Walking through directories
-/

namespace CodeAtlas

/-- The entries of a directory that are directories, or those that are not. -/
def Tree.entriesThat (isDirectory : Bool) (t : Tree) : List (String × Tree) :=
  t.entries.filter fun (_, u) => u.isDirectory == isDirectory

/-- The directories at and below a tree under a path, each before those below it, as far as `enter`
lets one go: it is asked with the path of a directory and the name of an entry. -/
def Tree.walk (enter : (directory name : String) → Bool) (path : String) : Tree → List (String × Tree)
  | .file _ _ => []
  | t@(.directory es) => (path, t) :: below es
where
  /-- The directories below some entries. -/
  below : List (String × Tree) → List (String × Tree)
    | [] => []
    | (name, t) :: rest =>
      (if t.isDirectory && enter path name then t.walk enter (Path.join path name) else []) ++ below rest

namespace Disk

/-- The directories at and below a path, as far as `enter` lets one go.  Where there is no directory
there is nothing. -/
def walk (d : Disk) (enter : (directory name : String) → Bool) (path : String) : List (String × Tree) :=
  match d.get? path with
  | some t => t.walk enter path
  | none => []

/-- The paths of the files directly in a directory that is found under a path. -/
def filePaths (path : String) (t : Tree) : List String :=
  (t.entriesThat false).map fun (name, _) => Path.join path name

/-- Whether an entry of a directory has a path that is not too long to be opened. -/
def withinReach (directory name : String) : Bool := (Path.join directory name).utf8ByteSize ≤ maxPath

/-- The paths of all files below a directory.  There is nothing in a directory whose path is too long to
be opened. -/
def walkFiles (d : Disk) (path : String) : List String :=
  (d.walk withinReach path).flatMap fun (p, t) => filePaths p t

end Disk

end CodeAtlas
