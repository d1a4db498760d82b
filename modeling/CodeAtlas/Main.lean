import CodeAtlas.CommandLine.Launcher
import CodeAtlas.Moment

/-!
# The command line

The outer layer of the tools: the files that a run can see are taken from the file system into a
`Workspace`, the tool runs on it, and then its output is printed and the files that it changed are written.
The database of tags is not kept between runs.
-/

namespace CodeAtlas.Main

/-- The tool that a program of some name runs. -/
def toolNamed (name : String) : Tool := if name == "ast_parser" then .outline else .map

/-- The names that lead from the root to a path. -/
def namesOf (path : String) : List String := Path.normalComponents true (Path.components path)

/-- The files that are new or hold other bytes than before. -/
def changedFiles (before after : Tree) : List (String × List UInt8) :=
  after.files.filterMap fun (path, content, _) =>
    match content, before.get? path with
    | .bytes data, some (.file (.bytes old) _) =>
      if data == old then none else some ("/" ++ "/".intercalate path, data)
    | .bytes data, _ => some ("/" ++ "/".intercalate path, data)
    | .database _, _ => none

/-- A time of the file system in nanoseconds. -/
def nanoseconds (t : IO.FS.SystemTime) : Int := t.sec * 1000000000 + t.nsec.toNat

/-- What an entry of a directory is, with everything below it.  What cannot be read is left out, and links to
directories are not followed. -/
partial def load (entry : IO.FS.DirEntry) : IO (Option Tree) := do
  try
    match (← entry.path.symlinkMetadata).type with
    | .dir =>
      let below ← (← entry.path.readDir).toList.filterMapM fun e => do
        return (← load e).map fun t => (e.fileName, t)
      return some (.directory below)
    | _ =>
      let data ← IO.FS.readBinFile entry.path
      return some (.file (.bytes data.toList) (nanoseconds (← entry.path.metadata).modified))
  catch _ => return none

/-- Takes what a path leads to into a disk, or else the directory in which it would be. -/
def take (d : Disk) (path : String) : IO Disk := do
  let entry : IO.FS.DirEntry := ⟨Path.directory path, Path.baseName path⟩
  if d.exists? path then return d
  else
    match ← load entry with
    | some t => return d.putAt (namesOf path) t
    | none =>
      if d.exists? (Path.directory path) || !(← entry.root.isDir) then return d
      else return d.putAt (namesOf (Path.directory path)) .empty

/-- The current time. -/
def currentTime : IO IO.FS.SystemTime := do
  let (_, path) ← IO.FS.createTempFile
  let time := (← path.metadata).modified
  IO.FS.removeFile path
  return time

/-- The workspace for a run with some arguments. -/
def surroundings (arguments : List String) : IO Workspace := do
  let here := (← IO.currentDir).toString
  let home := (← IO.getEnv "HOME").getD "/"
  let temporary := (← IO.getEnv "TMPDIR").getD "/tmp"
  let time ← currentTime
  let bare : Disk := { here := some (namesOf here) }
  let disk ← (here :: arguments.map (Path.absolute here)).foldlM take bare
  return {
    disk := if disk.exists? temporary then disk else disk.putAt (namesOf temporary) .empty
    home, temporary
    now := nanoseconds time
    stamp := (Moment.ofSeconds time.sec.toNat).stamp }

/-- Writes a file, and makes the directories above it that are missing. -/
def save (file : String × List UInt8) : IO Unit := do
  IO.FS.createDirAll (Path.directory file.1)
  IO.FS.writeBinFile file.1 ⟨file.2.toArray⟩

end CodeAtlas.Main

open CodeAtlas in
/-- Runs the tool that the program is named for.  The status 2 tells that the tool was not called as it should
be; then it is shown how to. -/
def main (arguments : List String) : IO UInt32 := do
  let tool := Main.toolNamed ((← IO.appPath).fileStem.getD "")
  let name := match tool with
    | .map => "repomap"
    | .outline => "ast_parser"
  let before ← Main.surroundings arguments
  let (result, after) := (tool.run name arguments).run.run before
  (Main.changedFiles before.disk.root after.disk.root).forM Main.save
  IO.print after.console.out
  IO.eprint after.console.err
  match result with
  | .ok status =>
    if status == 2 then (tool.program.callLines name).forM IO.eprintln
    return UInt32.ofNat status
  | .error e =>
    IO.eprintln e.message
    return 1
