import CodeAtlas.Disk.Walk
import CodeAtlas.Notice
import CodeAtlas.Tokens.Counter

/-!
# The workspace

Everything that a run of the program depends on and changes: the disk, the console, the places and
names that the system provides, and the tools that may be at hand.
-/

namespace CodeAtlas

/-- What a tagger reports for one definition; every entry may be missing. -/
structure TagMatch where
  name : Option String := none
  kind : Option String := none
  line : Option Int := none

/-- What a tagger does when it is asked for the tags of a file. -/
inductive Tagger.Reply
  /-- It reports what it finds, file by file. -/
  | reports (found : List (String × List TagMatch))
  | fails (text : String)
  /-- It cannot be asked at all. -/
  | unable

/-- A tool that finds the tags of a file by the grammar of its language, and the languages it knows if it
can tell. -/
structure Tagger where
  reply : Tagger.Reply
  languages : Option (List String) := none

/-- The surroundings of a run. -/
structure Workspace where
  disk : Disk := {}
  console : Console := {}
  /-- The home directory. -/
  home : String := "/"
  /-- The directory for temporary files. -/
  temporary : String := "/tmp"
  /-- The directory of the program itself. -/
  program : String := "/"
  /-- The current time in nanoseconds. -/
  now : Int := 0
  /-- The current date and time as they are written in file names. -/
  stamp : String := ""
  /-- The names of temporary directories that are still to be given out. -/
  freshNames : Nat → String := toString
  namesUsed : Nat := 0
  /-- The repositories that can be fetched, by host and path, with their files. -/
  remotes : List (String × List (String × String)) := []
  tagger : Option Tagger := none
  encoder : Option Encoder := none
  /-- Whether the program is being tested. -/
  underTest : Bool := false

/-- What reads and changes a workspace and may fail.  What was changed before a failure stays changed. -/
abbrev Job := ExceptT Error (StateM Workspace)

namespace Job

/-- The disk. -/
def disk : Job Disk := return (← get).disk

/-- The outcome of looking at the disk. -/
def look {α : Type} (f : Disk → Except Error α) : Job α := do
  match f (← get).disk with
  | .ok a => return a
  | .error e => throw e

/-- Changes the disk. -/
def change (f : Disk → Except Error Disk) : Job Unit := do
  let d ← look f
  modify fun w => { w with disk := d }

/-- Makes a directory and those above it that are missing.  Those that were made before a failure stay. -/
def makeDirectories (path : String) : Job Unit := do
  let (d, made) := (← get).disk.withDirectories path
  modify fun w => { w with disk := d }
  match made with
  | .ok () => return ()
  | .error e => throw e

/-- Prints a text. -/
def print (text : String) : Job Unit := modify fun w => { w with console := w.console.print text }

/-- Prints a line. -/
def printLine (text : String) : Job Unit := print (text ++ "\n")

/-- Tells the user something. -/
def tell (quiet : Bool) (n : Notice) : Job Unit := modify fun w => { w with console := w.console.tell quiet n }

/-- Writes a text to a file. -/
def write (path text : String) : Job Unit := do
  let time := (← get).now
  change fun d => d.write path text time

/-- A name for a temporary directory that was not given out before. -/
def freshName : Job String := do
  let w ← get
  set { w with namesUsed := w.namesUsed + 1 }
  return w.freshNames w.namesUsed

/-- The outcome of a job with its failure as a value. -/
def attempt {α : Type} (job : Job α) : Job (Except Error α) := do
  try return .ok (← job) catch e => return .error e

end Job

end CodeAtlas
