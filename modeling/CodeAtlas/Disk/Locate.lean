import CodeAtlas.Disk.Tree
import CodeAtlas.Error
import CodeAtlas.Path

/-!
# Finding one's way on a disk

A path is followed one component after another.  Everything that is passed through has to be there
and to be a directory, also where two dots lead back at once.
-/

namespace CodeAtlas

/-- Everything that is stored, from the root on, with the current directory, which is unknown once it
has been removed. -/
structure Disk where
  root : Tree := .empty
  here : Option (List String) := some []

/-- Where a path leads. -/
inductive Place
  /-- To something that is there. -/
  | found (path : List String) (tree : Tree)
  /-- To a name that a directory does not have. -/
  | absent (parent : List String) (name : String)

namespace Disk

/-- The most bytes that a name can have. -/
def maxName : Nat := 255

/-- The most bytes that a path can have. -/
def maxPath : Nat := 4095

/-- Follows components from a place, given by the names that lead to it. -/
def follow (root : Tree) : List String → List String → Except DiskCause Place
  | path, [] =>
    match root.get? path with
    | some t => .ok (.found path t)
    | none => .error .notFound
  | path, c :: rest =>
    match root.get? path with
    | none => .error .notFound
    | some (.file _ _) => .error .notADirectory
    | some t =>
      if c == "" || c == "." then follow root path rest
      else if c == ".." then follow root path.dropLast rest
      else if maxName < c.utf8ByteSize then .error .nameTooLong
      else
        match t.child? c with
        | some _ => follow root (path ++ [c]) rest
        | none => if rest.all (· == "") then .ok (.absent path c) else .error .notFound

/-- The components to follow.  A slash at the end demands a directory, which an empty component
stands for. -/
def steps (p : String) : List String :=
  let cs := Path.components p
  if p.toList.getLast? == some '/' then cs ++ [""] else cs

/-- What a path leads to, without the name of the path in the error. -/
def locateCause (d : Disk) (p : String) : Except DiskCause Place :=
  if p.isEmpty then .error .notFound
  else if maxPath < p.utf8ByteSize then .error .nameTooLong
  else if Path.isAbsolute p then follow d.root [] (steps p)
  else
    match d.here with
    | some here => follow d.root here (steps p)
    | none => .error .notFound

/-- What a path leads to, or the place where it could be made. -/
def locate (d : Disk) (p : String) : Except Error Place :=
  if p.toList.contains '\x00' then .error .nullInPath
  else (d.locateCause p).mapError fun cause => .disk cause (some p)

/-- What a path leads to, if it is there. -/
def look (d : Disk) (p : String) : Except Error (List String × Tree) := do
  match ← d.locate p with
  | .found path t => .ok (path, t)
  | .absent _ _ => .error (.disk .notFound (some p))

/-- What a path leads to, if anything. -/
def get? (d : Disk) (p : String) : Option Tree := (d.look p).toOption.map Prod.snd

/-- Whether there is something at a path. -/
def exists? (d : Disk) (p : String) : Bool := (d.get? p).isSome

/-- Whether there is a file at a path. -/
def isFile (d : Disk) (p : String) : Bool := (d.get? p).any (!·.isDirectory)

/-- Whether there is a directory at a path. -/
def isDirectory (d : Disk) (p : String) : Bool := (d.get? p).any Tree.isDirectory

/-- The current directory as a path. -/
def herePath (d : Disk) : Except Error String :=
  match d.here with
  | some [] => .ok "/"
  | some path => .ok (path.foldl (· ++ "/" ++ ·) "")
  | none => .error (.disk .notFound none)

/-- A path as seen from the root. -/
def absolute (d : Disk) (p : String) : Except Error String :=
  if Path.isAbsolute p then .ok (Path.normalize p)
  else return Path.absolute (← d.herePath) p

/-- The way from a directory to a path. -/
def relative (d : Disk) (start p : String) : Except Error String :=
  if p.isEmpty then .error .emptyPath
  else return Path.relativeTo (← d.absolute start) (← d.absolute p)

end Disk

end CodeAtlas
