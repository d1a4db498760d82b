import CodeAtlas.Workspace

/-!
# Making and leaving directories
-/

namespace CodeAtlas

/-- Takes away whatever is at a path.  A current directory that goes with it is gone. -/
def Disk.removeTree (d : Disk) (p : String) : Disk :=
  match d.look p with
  | .ok (path, _) =>
    { root := Tree.erase path d.root
      here := d.here.filter fun here => !path.isPrefixOf here }
  | .error _ => d

/-- Makes a directory the current one. -/
def Disk.enter (d : Disk) (p : String) : Except Error Disk := do
  match ← d.look p with
  | (path, .directory _) => .ok { d with here := some path }
  | (_, .file _ _) => .error (.disk .notADirectory (some p))

namespace Files

/-- Makes a directory, and those above it if they are missing; one that is there is no error. -/
def makePathFrom (d : Disk) : Nat → Path.Pure → Except Error Disk
  | 0, _ => .ok d
  | fuel + 1, path =>
    let text := path.toString
    match d.makeDirectory text with
    | .ok d => .ok d
    | .error (.disk .notFound p) =>
      if path.parts.isEmpty then .error (.disk .notFound p)
      else do
        let d ← makePathFrom d fuel path.parent
        match d.makeDirectory text with
        | .ok d => .ok d
        | .error e => if d.isDirectory text then .ok d else .error e
    | .error e => if d.isDirectory text then .ok d else .error e

/-- Makes a file unless there is something, with the directories above it. -/
def touch (d : Disk) (p : String) (time : Int) : Except Error Disk := do
  let path := Path.Pure.ofString p
  let d ← makePathFrom d (path.parts.length + 1) path.parent
  match d.look path.toString with
  | .ok (place, .file content _) => .ok (d.putAt place (.file content time))
  | .ok (_, .directory _) => .ok d
  | .error _ => d.writeContent path.toString (.bytes []) time

/-- What is done with a temporary directory: it is only there, one goes into it, or a repository is made
in it too. -/
inductive ScratchKind
  | plain | entered | repository
  deriving DecidableEq, Repr

/-- A temporary directory, with the directory to go back to. -/
structure Scratch where
  kind : ScratchKind
  path : String
  back : String

namespace Scratch

/-- Makes a temporary directory.  If the current directory is gone, one will go back to the home
directory. -/
def make (kind : ScratchKind) : Job Scratch := do
  let w ← get
  let path := Path.join w.temporary (← Job.freshName)
  Job.change (·.makeDirectory path)
  let back := match w.disk.herePath with
    | .ok here => here
    | .error _ => w.home
  return ⟨kind, path, back⟩

/-- Begins to use a temporary directory. -/
def start (s : Scratch) : Job Unit := do
  if s.kind != .plain then
    match ← Job.attempt (Job.change (·.enter s.path)) with
    | .ok () => pure ()
    | .error _ => Job.printLine s!"Warning: Could not change to directory {s.path}"
  if s.kind == .repository then throw (.missingModule "git")

/-- Takes the directory away. -/
def remove (s : Scratch) : Job Unit := modify fun w => { w with disk := w.disk.removeTree s.path }

/-- Ends the use of a temporary directory. -/
def finish (s : Scratch) : Job Unit := do
  if s.kind != .plain then
    let _ ← Job.attempt (Job.change (·.enter s.back))
  s.remove

end Scratch

end Files

end CodeAtlas
