import CodeAtlas.CommandLine.Help
import CodeAtlas.Outline.Report
import CodeAtlas.Workspace

/-!
# The tool that searches source files
-/

namespace CodeAtlas.OutlineTool

open CommandLine Outline

/-- The examples at the end of the help. -/
def examples : List String :=
  ["Examples:",
    "  Find a specific function:",
    "    python-ast-parser myfile.py function_name",
    "  ",
    "  Find all callable elements:",
    "    python-ast-parser myfile.py \"*\" ",
    "  ",
    "  Get the source code of a class with line numbers:",
    "    python-ast-parser myfile.py MyClass --get-code --add-line-numbers",
    "  ",
    "  Find all elements (callable and non-callable) with 5 lines of context:",
    "    python-ast-parser myfile.py \"*\" --non-callables --get-code --add-context 5",
    "  ",
    "  Get only function/class signatures including decorators:",
    "    python-ast-parser myfile.py \"*\" --signature-only",
    "  ",
    "  Get a compact listing of all callable elements:",
    "    python-ast-parser myfile.py \"*\" --line-numbers-only"]

/-- The lines of context if no number is given. -/
def defaultContext : Int := 10

/-- What the tool understands. -/
def program : Program where
  description := "Advanced Python AST parser for code analysis."
  choices :=
    [⟨["-h", "--help"], .help, "show this help message and exit"⟩,
      ⟨["--non-callables"], .switch, "Include non-callable elements like variables and imports"⟩,
      ⟨["--line-numbers-only"], .switch, "Only print line number ranges, not full AST details"⟩,
      ⟨["--get-code"], .switch, "Extract and print the source code of matching elements"⟩,
      ⟨["--signature-only"], .switch,
        "Only extract and print the signature (with decorators) of callable elements"⟩,
      ⟨["--add-context"], .wholeOr "LINES" defaultContext,
        "Add context lines before and after (default: 10 if flag used without value)"⟩,
      ⟨["--add-line-numbers"], .switch,
        "Add line numbers to extracted code (works with --get-code and --signature-only)"⟩,
      ⟨["--version"], .text "VERSION", "Python language version to use for parsing (e.g., 3.9, 3.10)"⟩]
  operands :=
    [⟨"filename", false, "Python source file to analyze"⟩,
      ⟨"pattern", false, "Name pattern to search for (supports wildcards * and ?)"⟩]
  ending := "\n" ++ "\n".intercalate examples ++ "\n"

/-- The version that a text names, or the usual one.  A text that was left out names none. -/
def versionOf (text : Option String) : Except Error Element.Version :=
  match text with
  | none => .error (.noAttribute "list" "split")
  | some text =>
    match (Text.fields '.' text).map Number.whole? with
    | [some major, some minor] => .ok ⟨major, minor⟩
    | _ => .ok {}

/-- A pattern that was left out: it is shown like an empty list. -/
def noPattern : NamePattern := ⟨"[]"⟩

/-- What a command line asks for. -/
def request (r : Reading) : Except Error Request := do
  let version ← ((r.text? "version").map versionOf).getD (.ok {})
  let withCode := r.has "get-code"
  let signatureOnly := r.has "signature-only"
  let pattern := (((r.operand "pattern").head?).map NamePattern.mk).getD noPattern
  return {
    pattern, withCode, signatureOnly, version
    linesOnly := r.has "line-numbers-only"
    includeOthers := r.has "non-callables"
    context := if withCode then (r.number? "add-context").getD 0 else 0
    numbered := r.has "add-line-numbers" && (withCode || signatureOnly) }

/-- Searches a file, where a name cannot be compared with a pattern that was left out. -/
def searchWith (d : Disk) (r : Request) (leftOut : Bool) (file : String) : Except Error Outcome :=
  match search d r file, leftOut with
  | .error (.pattern _ _), true => .error (.noAttribute "list" "replace")
  | outcome, _ => outcome

/-- The line that tells where something was found. -/
def foundLine (f : Finding) : String := s!"Found Callable '{f.name}' at lines {f.start}-{f.finish}"

/-- Whether a finding can be called, as far as that is told. -/
def canBeCalled (f : Finding) : Bool :=
  match f.detail with
  | .callable isCallable _ => isCallable
  | _ => true

/-- The first finding of a name that can be called. -/
def firstNamed? (o : Outcome) (name : String) : Option Finding :=
  match o with
  | .found findings => findings.find? fun f => canBeCalled f && f.name == name
  | .complaint _ => none

/-- Searches a file, and tells about the second argument once more if it is the name of something that
was found. -/
def searchFile (r : Request) (leftOut : Bool) (file : String) (second : Option String) : Job Nat := do
  let outcome ← Job.look (searchWith · r leftOut file)
  Job.print (← Job.look fun _ => Outline.print r (outcome.toValue file))
  match second.bind fun name => if name == "*" then none else firstNamed? outcome name with
  | some f => Job.printLine (foundLine f)
  | none => pure ()
  return 0

/-- Runs the tool under a name: the status with which it ends. -/
def run (name : String) (arguments : List String) : Job Nat := do
  match program.read arguments with
  | .error .help => do
    Job.print (program.help name)
    return 0
  | .error .misuse => return 2
  | .ok r => do
    let wanted ← Job.look fun _ => request r
    searchFile wanted (r.operand "pattern").isEmpty ((r.operand "filename").headD "") arguments[1]?

/-- Runs the tool for a caller who gives just a file and a name, and in all other cases like `run`. -/
def runDirect (name : String) (arguments : List String) : Job Nat := do
  match arguments with
  | [file, wanted] =>
    if Text.startsWith wanted "--" || wanted == "*" then run name arguments
    else
      let outcome ← Job.look (search · { pattern := ⟨wanted⟩ } file)
      match firstNamed? outcome wanted with
      | some f => do
        Job.printLine (foundLine f)
        return 0
      | none => do
        Job.printLine s!"Callable '{wanted}' not found"
        return 1
  | _ => run name arguments

end CodeAtlas.OutlineTool
