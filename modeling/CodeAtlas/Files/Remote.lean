import CodeAtlas.Glob.Expand
import CodeAtlas.Pattern.Basic
import CodeAtlas.Sorting
import CodeAtlas.Value.Display
import CodeAtlas.Workspace

/-!
# Files by name, pattern or address

An argument of the program names a file, a directory, a pattern or a repository that is to be fetched.
-/

namespace CodeAtlas.Files

open Pattern

/-- The hosts of repositories. -/
def hosts : List String := ["github.com", "gitlab.com", "bitbucket.org"]

/-- The name of an owner or a repository. -/
def namePart : Pattern := many1 (one fun c => Text.isWord c || c == '-')

/-- An owner and a repository. -/
def ownerAndName : Pattern := concat [namePart, literal "/", namePart]

/-- The pattern of addresses on the web, whose ending may be missing. -/
def webAddress : Pattern :=
  concat [oneOf ["https://", "http://"], oneOf hosts, literal "/", ownerAndName, optional (literal ".git"),
    finalLineEnd]

/-- The pattern of addresses with a user. -/
def userAddress : Pattern :=
  concat [literal "git@", oneOf hosts, literal ":", ownerAndName, literal ".git", finalLineEnd]

/-- Whether a text is the address of a repository.  A line feed at its end is overlooked. -/
def isAddress (text : String) : Bool :=
  let start := Spot.start text.toList
  (webAddress.matchAt start).isSome || (userAddress.matchAt start).isSome

/-- The host and the path of an address. -/
def addressKey? (address : String) : Option String :=
  hosts.findSome? fun host =>
    [("https://" ++ host ++ "/"), ("http://" ++ host ++ "/"), ("git@" ++ host ++ ":")].findSome? fun start =>
      if Text.startsWith address start then some (host ++ "/" ++ Text.dropFirst address start.length) else none

/-- Whether a fetched repository can be put at a path: nothing is there but perhaps an empty directory. -/
def isVacant (d : Disk) (path : String) : Bool :=
  match d.get? path with
  | some t => t.isDirectory && t.entries.isEmpty
  | none => true

/-- Puts files below a directory. -/
def putFiles (target : String) (files : List (String × String)) (time : Int) (d : Disk) : Except Error Disk := do
  let d ← d.makeDirectories target
  let d ← d.makeDirectories (Path.join target ".git")
  files.foldlM (fun d (path, text) => do
    let full := Path.join target path
    let d ← d.makeDirectories (Path.directory full)
    d.write full text time) d

/-- The command that fetches a repository. -/
def fetchCommand (address target : String) : List String := ["git", "clone", "--depth", "1", address, target]

/-- The complaint that a command has failed. -/
def commandFailed (command : List String) (status : Nat) : String :=
  let shown := (Value.list (command.map .str)).shown
  s!"Command '{shown}' returned non-zero exit status {status}."

/-- Fetches a repository into a directory, which is a new temporary one if none is given.  Nothing is
returned if that fails. -/
def fetch (address : String) (target : Option String) : Job (Option String) := do
  let directory ←
    match target with
    | some t => pure t
    | none => do
      let path := Path.join (← get).temporary ("repomap_clone_" ++ (← Job.freshName))
      Job.change (·.makeDirectory path)
      pure path
  let w ← get
  match (addressKey? address).bind (fun key => w.remotes.lookup key), isVacant w.disk directory with
  | some files, true => do
    Job.change (putFiles directory files w.now)
    return some directory
  | _, _ => do
    let complaint := commandFailed (fetchCommand address directory) 128
    Job.printLine s!"Error cloning repository: {complaint}"
    return none

/-- The files of a fetched repository, without those that belong to version control. -/
def fetchedFiles (d : Disk) (directory : String) : List String :=
  ((d.walk Disk.withinReach directory).filter fun (p, _) => !(Text.fields '/' p).contains ".git").flatMap
    fun (p, t) => Disk.filePaths p t

/-- The paths that a pattern stands for, also if it is meant from a root. -/
def expandPattern (d : Disk) (root pattern : String) : Except Error (List String) := do
  match ← Glob.search d pattern with
  | [] => if Path.isAbsolute pattern then return [] else Glob.search d (Path.join root pattern)
  | paths => return paths

/-- The paths that one argument stands for. -/
def expandOne (root argument : String) : Job (List String) := do
  if isAddress argument then
    Job.printLine s!"Cloning repository {argument}..."
    match ← fetch argument none with
    | some directory => return fetchedFiles (← Job.disk) directory
    | none => do
      Job.printLine s!"Failed to clone repository {argument}"
      return []
  else
    let d ← Job.disk
    if d.isDirectory argument then return d.walkFiles argument
    else if d.isFile argument then return [argument]
    else Job.look (expandPattern · root argument)

/-- The paths that arguments stand for, in order and each once.  The root is the current directory if none
is given. -/
def expand (arguments : List String) (root : Option String) : Job (List String) := do
  let root ← match root with
    | some r => pure r
    | none => Job.look Disk.herePath
  let found ← arguments.mapM (expandOne root)
  return sortTexts (distinct found.flatten)

end CodeAtlas.Files
