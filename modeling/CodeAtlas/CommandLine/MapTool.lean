import CodeAtlas.CommandLine.Help
import CodeAtlas.Files.Remote
import CodeAtlas.Map.Repository

/-!
# The tool that maps repositories
-/

namespace CodeAtlas.MapTool

open CommandLine

/-- What the tool understands. -/
def program : Program where
  description := "RepoMap: Generate maps of repositories for easy understanding."
  choices :=
    [⟨["-h", "--help"], .help, "show this help message and exit"⟩,
      ⟨["--verbose", "-v"], .switch, "Enable verbose output"⟩,
      ⟨["--debug"], .switch, "Enable debug output, including parser info"⟩,
      ⟨["--output", "-o"], .text "OUTPUT", "Write repository map to this file"⟩,
      ⟨["--tokens", "-t"], .whole "TOKENS", "Maximum number of tokens per section"⟩,
      ⟨["--no-splitting"], .switch, "Disable map splitting"⟩,
      ⟨["--skip-tests"], .switch, "Skip test files and directories"⟩,
      ⟨["--skip-docs"], .switch, "Skip documentation files"⟩,
      ⟨["--skip-git"], .switch, "Skip git-related files and directories"⟩]
  operands := [⟨"files", true, "Files or directories to include in the map"⟩]

/-- The tokens of a map if no other number is given. -/
def defaultTokens : Int := 4096

/-- The settings of the repository that a command line asks for. -/
def settings (r : Reading) : Settings where
  tokens := (r.number? "tokens").getD defaultTokens
  voice := .plain (r.has "verbose")
  unsplit := r.has "no-splitting"
  skip := ⟨r.has "skip-tests", r.has "skip-docs", r.has "skip-git"⟩

/-- Tells which languages the tagger knows. -/
def tellLanguages (t : Option Tagger) : Job Unit :=
  match t.bind Tagger.languages with
  | some languages => do
    Job.printLine "Available language parsers:"
    (sortTexts languages).forM fun l => Job.printLine s!"  - {l}"
    Job.printLine ""
  | none => Job.printLine "Warning: grep_ast.tsl not available, some features will be limited."

/-- Tells what a command line wants to know before anything is mapped. -/
def prelude (r : Reading) : Job Unit := do
  if r.has "debug" then tellLanguages (← get).tagger

/-- The file to which a command line sends the map, if there is one. -/
def output? (r : Reading) : Option String := (r.text? "output").join.filter (!·.isEmpty)

/-- Writes a map to a file, or prints it. -/
def deliver (output : Option String) (text : String) : Job Unit :=
  match output with
  | some path => do
    Job.write path text
    Job.printLine s!"Repository map written to {path}"
  | none => Job.printLine text

/-- Maps the files of a command line. -/
def mapFiles (r : Reading) (arguments : List String) : Job Nat := do
  let repository ← Repository.create (settings r)
  let files ← arguments.mapM fun a => Files.expand [a] (some repository.root)
  let files := files.flatten
  if files.isEmpty then
    let wanted := ", ".intercalate arguments
    Job.printLine s!"Error: No files found matching: {wanted}"
    return 1
  else
    let (text, _) ← repository.map files []
    deliver (output? r) text
    return 0

/-- Runs the tool under a name: the status with which it ends. -/
def run (name : String) (arguments : List String) : Job Nat := do
  match program.read arguments with
  | .error .help => do
    Job.print (program.help name)
    return 0
  | .error .misuse => return 2
  | .ok r => do
    prelude r
    match r.operand "files" with
    | [] => do
      Job.print (program.help name)
      return 1
    | arguments => mapFiles r arguments

end CodeAtlas.MapTool
