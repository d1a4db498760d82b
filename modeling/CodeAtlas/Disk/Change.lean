import CodeAtlas.Disk.Locate
import CodeAtlas.Text.Lines

/-!
# Reading and changing a disk
-/

namespace CodeAtlas.Disk

/-- The content of a file. -/
def readContent (d : Disk) (p : String) : Except Error Content := do
  match ← d.look p with
  | (_, .file content _) => .ok content
  | (_, .directory _) => .error (.disk .isADirectory (some p))

/-- The bytes of a file. -/
def readBytes (d : Disk) (p : String) : Except Error (List UInt8) := Content.toBytes <$> d.readContent p

/-- The text of a file, in which every line end is a line feed. -/
def readText (d : Disk) (p : String) : Except Error String := do
  match Text.decode (← d.readBytes p) with
  | .ok text => .ok (Text.foldNewlines text)
  | .error fault => .error (.notText fault)

/-- The text of a file, in which every line end is a line feed and what is no text is replaced. -/
def readLossy (d : Disk) (p : String) : Except Error String :=
  (fun bytes => Text.foldNewlines (Text.decodeLossy bytes)) <$> d.readBytes p

/-- The time of the last change of a file in nanoseconds.  Directories have the time zero. -/
def modified (d : Disk) (p : String) : Except Error Int := do
  match ← d.look p with
  | (_, .file _ time) => .ok time
  | (_, .directory _) => .ok 0

/-- A time in nanoseconds as seconds with a fraction. -/
def secondsOf (time : Int) : Float :=
  Float.ofInt (Int.fdiv time 1000000000) + 1e-9 * Float.ofInt (Int.fmod time 1000000000)

/-- The time of the last change of a file in seconds; what is not there has the time zero. -/
def modifiedSeconds (d : Disk) (p : String) : Except Error Float :=
  match d.modified p with
  | .ok time => .ok (secondsOf time)
  | .error (.disk _ _) => .ok 0
  | .error e => .error e

/-- A path without the slashes at its end. -/
def dropSlashes (p : String) : String := String.ofList (p.toList.reverse.dropWhile (· == '/')).reverse

/-- Puts a tree at a place given by names. -/
def putAt (d : Disk) (path : List String) (t : Tree) : Disk := { d with root := Tree.put path t d.root }

/-- Writes a file, in the place of an earlier one if there is one. -/
def writeContent (d : Disk) (p : String) (content : Content) (time : Int) : Except Error Disk := do
  let slashed := p.toList.getLast? == some '/'
  let fail {α : Type} (cause : DiskCause) : Except Error α := .error (.disk cause (some p))
  let place ←
    if slashed && dropSlashes p != "" then
      match d.locate (dropSlashes p) with
      | .error (.disk cause _) => fail cause
      | other => other
    else d.locate p
  match place with
  | .found path (.file _ _) => if slashed then fail .isADirectory else .ok (d.putAt path (.file content time))
  | .found _ (.directory _) => fail .isADirectory
  | .absent parent name =>
    if slashed then fail .isADirectory else .ok (d.putAt (parent ++ [name]) (.file content time))

/-- Writes a text. -/
def write (d : Disk) (p text : String) (time : Int) : Except Error Disk :=
  d.writeContent p (.bytes (Text.encode text)) time

/-- Makes a directory. -/
def makeDirectory (d : Disk) (p : String) : Except Error Disk := do
  match ← d.locate p with
  | .found _ _ => .error (.disk .alreadyExists (some p))
  | .absent parent name => .ok (d.putAt (parent ++ [name]) .empty)

/-- The part of a path before its last component and that component; slashes at the end are passed
over once. -/
def parentAndName (p : String) : String × String :=
  if Path.baseName p == "" then (Path.directory (Path.directory p), Path.baseName (Path.directory p))
  else (Path.directory p, Path.baseName p)

/-- Makes the last directory of a path.  One that is there already is no error if `tolerant`. -/
def makeLast (tolerant : Bool) (d : Disk) (p : String) : Disk × Except Error Unit :=
  match d.makeDirectory p with
  | .ok d' => (d', .ok ())
  | .error e => (d, if tolerant && d.isDirectory p then .ok () else .error e)

/-- Makes a directory and those above it that are missing, up to the first one that cannot be made. -/
def makeDirectoriesFrom (tolerant : Bool) : Nat → Disk → String → Disk × Except Error Unit
  | 0, d, _ => (d, .ok ())
  | fuel + 1, d, p =>
    let (head, tail) := parentAndName p
    if head != "" && tail != "" && !d.exists? head then
      let (d', above) := makeDirectoriesFrom tolerant fuel d head
      match above with
      | .ok () | .error (.disk .alreadyExists _) =>
        if tail == "." then (d', .ok ()) else makeLast tolerant d' p
      | .error e => (d', .error e)
    else makeLast tolerant d p

/-- The disk with a directory and those above it, as far as they can be made, and why not all can. -/
def withDirectories (d : Disk) (p : String) : Disk × Except Error Unit :=
  makeDirectoriesFrom true (p.length + 1) d p

/-- Makes a directory and those above it that are missing.  One that is there already is no error. -/
def makeDirectories (d : Disk) (p : String) : Except Error Disk :=
  (d.withDirectories p).2.map fun _ => (d.withDirectories p).1

/-- Takes a file away. -/
def remove (d : Disk) (p : String) : Except Error Disk := do
  match ← d.look p with
  | (path, .file _ _) => .ok { d with root := Tree.erase path d.root }
  | (_, .directory _) => .error (.disk .isADirectory (some p))

/-- The entries of a directory. -/
def entries (d : Disk) (p : String) : Except Error (List (String × Tree)) := do
  match ← d.look p with
  | (_, .directory es) => .ok es
  | (_, .file _ _) => .error (.disk .notADirectory (some p))

end CodeAtlas.Disk
