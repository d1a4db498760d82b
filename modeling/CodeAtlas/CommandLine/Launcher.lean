import CodeAtlas.CommandLine.MapTool
import CodeAtlas.CommandLine.OutlineTool

/-!
# Launching the tools

The tools can be launched under several names.  A launcher that does not find its tool says so.
-/

namespace CodeAtlas

/-- The tools. -/
inductive Tool
  | map | outline
  deriving DecidableEq, Repr

/-- What a tool understands. -/
def Tool.program : Tool → CommandLine.Program
  | .map => MapTool.program
  | .outline => OutlineTool.program

/-- Runs a tool under a name. -/
def Tool.run (t : Tool) (name : String) (arguments : List String) : Job Nat :=
  match t with
  | .map => MapTool.run name arguments
  | .outline => OutlineTool.run name arguments

/-- A way to launch a tool: the name of the launcher, and what is said if the tool is missing. -/
structure Launcher where
  path : String
  tool : Tool
  missing : String
  /-- The name under which the tool shows itself. -/
  shownName : String := Path.baseName path
  deriving DecidableEq, Repr

namespace Launcher

/-- What the launchers of the top directory say if the tool is missing. -/
def packageMissing : String := "Error: RepoMap package not found. Please install it first."

/-- The launchers. -/
def all : List Launcher :=
  [{ path := "repomap.py", tool := .map, missing := packageMissing },
    { path := "ast_parser.py", tool := .outline, missing := packageMissing },
    { path := "scripts/repomap.py", tool := .map
      missing := "Error: Could not import RepoMap. Please ensure it's installed." },
    { path := "scripts/ast_parser.py", tool := .outline
      missing := "Error: Could not import AST Parser. Please ensure RepoMap is installed." },
    { path := "-m repomap", tool := .map, missing := packageMissing, shownName := "__main__.py" }]

/-- Launches a tool, if it is there. -/
def run (l : Launcher) (present : Bool) (arguments : List String) : Job Nat := do
  if present then l.tool.run l.shownName arguments
  else
    Job.printLine l.missing
    return 1

end Launcher

end CodeAtlas
