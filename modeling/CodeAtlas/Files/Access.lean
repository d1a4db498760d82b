import CodeAtlas.Value.Members
import CodeAtlas.Workspace

/-!
# Access to files

Files are read and written by name, and what was read or written once is remembered under that name.
Failures are told to the user, not passed on.
-/

namespace CodeAtlas

/-- Access to files, with the texts that are remembered, the oldest first. -/
structure Access where
  /-- Whether plain output is left away. -/
  quiet : Bool := false
  remembered : List (String × String) := []

namespace Access

/-- Remembers a text in the place of an earlier one under the same name. -/
def remember (a : Access) (path text : String) : Access :=
  { a with remembered := a.remembered.filter (·.1 != path) ++ [(path, text)] }

/-- The text of a file, if it can be read. -/
def read (a : Access) (path : String) : Job (Option String × Access) := do
  match a.remembered.lookup path with
  | some text => return (some text, a)
  | none =>
    match (← Job.disk).readLossy path with
    | .ok text => return (some text, a.remember path text)
    | .error e => do
      Job.tell a.quiet (.error s!"Failed to read {path}: {e.message}")
      return (none, a)

/-- Opens a file for writing, with the directories above it.  What it held is gone. -/
def clear (path : String) : Job Unit := do
  Job.makeDirectories (Path.directory (← Job.look (·.absolute path)))
  Job.write path ""

/-- Writes a file.  Whether its text has bytes shows only when the file is open. -/
def put (path : String) (draft : Text.Draft) : Job String := do
  clear path
  match draft.text with
  | .ok text => do
    Job.write path text
    return text
  | .error fault => throw (.notStorable fault)

/-- Writes a file, and tells whether that went well. -/
def write (a : Access) (path : String) (draft : Text.Draft) : Job (Bool × Access) := do
  match ← Job.attempt (put path draft) with
  | .ok text => return (true, a.remember path text)
  | .error e => do
    Job.tell a.quiet (.error s!"Failed to write to {path}: {e.message}")
    return (false, a)

/-- The answer to a question.  Nobody is there to be asked, so it is always yes. -/
def confirm (_ : Access) (_question : String) : Bool := true

end Access

namespace Files

/-- Whether a path ends with one of some extensions, which are looked at in order. -/
def endsWithAny (path : String) : List Value → Except Error Bool
  | [] => .ok false
  | .str e :: rest => if Text.endsWith path e then .ok true else endsWithAny path rest
  | v :: _ => .error (.extensionNotText v.typeName)

/-- Whether a path has one of the wanted extensions; without any, every path has. -/
def isWanted (extensions : Option Value) (path : String) : Except Error Bool :=
  match extensions with
  | none => .ok true
  | some v => do endsWithAny path (← v.members)

/-- The files in a directory, and below it if `deep`. -/
def filesIn (d : Disk) (directory : Path.Pure) (deep : Bool) : List String :=
  if deep then d.walkFiles directory.toString
  else
    match d.get? directory.toString with
    | some t => (t.entriesThat false).map fun (name, _) => (directory.append ⟨"", [name]⟩).toString
    | none => []

/-- The wanted files of a directory, or nothing if there is no such directory. -/
def list? (d : Disk) (directory : String) (extensions : Option Value) (deep : Bool) :
    Except Error (Option (List String)) :=
  let path := Path.Pure.ofString directory
  match d.look path.toString with
  | .ok (_, .directory _) => some <$> (filesIn d path deep).filterM (isWanted extensions)
  | .error (.disk .nameTooLong p) => .error (.disk .nameTooLong p)
  | _ => .ok none

/-- The wanted files of a directory. -/
def list (directory : String) (extensions : Option Value) (deep : Bool) : Job (List String) := do
  match list? (← Job.disk) directory extensions deep with
  | .ok (some paths) => return paths
  | .ok none => do
    Job.tell false (.warning s!"Directory does not exist: {directory}")
    return []
  | .error e => do
    Job.tell false (.error s!"Error listing files in {directory}: {e.message}")
    return []

end Files

end CodeAtlas
