import CodeAtlas.Text.Fields
import CodeAtlas.Value.Display
import CodeAtlas.Workspace

/-!
# Commands
-/

namespace CodeAtlas.Shell

/-- A character that needs no quotes. -/
def isSafe (c : Char) : Bool := c.isAlphanum || "_@%+=:,./-".toList.contains c

/-- An argument in single quotes if it needs them. -/
def quote (argument : String) : String :=
  if argument.isEmpty then "''"
  else if argument.toList.all isSafe then argument
  else "'" ++ Text.replaceAll argument "'" "'\"'\"'" ++ "'"

/-- The characters of an argument between double quotes: backslashes are doubled before a quote, and at the
end if the argument is quoted.  `held` counts the backslashes just before. -/
def escapeDouble (quoted : Bool) : (held : Nat) → List Char → List Char
  | held, [] => if quoted then List.replicate held '\\' else []
  | held, '\\' :: rest => '\\' :: escapeDouble quoted (held + 1) rest
  | held, '"' :: rest => List.replicate held '\\' ++ '\\' :: '"' :: escapeDouble quoted 0 rest
  | _, c :: rest => c :: escapeDouble quoted 0 rest

/-- An argument in double quotes if it needs them. -/
def quoteDouble (argument : String) : String :=
  let cs := argument.toList
  let quoted := cs.isEmpty || cs.contains ' ' || cs.contains '\t'
  let mark := if quoted then ['"'] else []
  String.ofList (mark ++ escapeDouble quoted 0 cs ++ mark)

/-- Whether a system uses double quotes. -/
def usesDoubleQuotes (system : String) : Bool := system == "Windows"

/-- A command as it is typed on a system. -/
def printable (system : String) (command : List String) : String :=
  " ".intercalate (command.map (if usesDoubleQuotes system then quoteDouble else quote))

/-- The command that installs packages with an interpreter. -/
def installCommand (interpreter : String) (arguments : List String) : List String :=
  [interpreter, "-m", "pip", "install", "--upgrade", "--upgrade-strategy", "only-if-needed"] ++ arguments

/-! ### Offering to install -/

/-- What an offer depends on. -/
structure Offer where
  /-- What is missing, if it has a name. -/
  module : Option String
  prompt : Option String
  arguments : List String
  interpreter : String
  system : String := "Linux"
  /-- Whether the program would replace itself. -/
  selfUpdate : Bool := false
  /-- Whether the user agrees. -/
  agreed : Bool := false
  /-- Whether installing succeeds, and what it prints. -/
  installed : Bool × String := (false, "")
  /-- Whether what was missing can be used afterwards. -/
  appears : Bool := false

/-- What comes of an offer. -/
structure OfferOutcome where
  /-- Whether what was missing can be used, if that is known. -/
  result : Option Bool
  /-- The command for which the user was asked. -/
  asked : Option String
  console : Console

/-- What can be used without being installed. -/
def presentModules : List String := ["os", "os.path"]

/-- The parts of a dotted name, each with those before it. -/
def dottedStarts (name : String) : List String :=
  let parts := Text.fields '.' name
  (List.range parts.length).map fun i => ".".intercalate (parts.take (i + 1))

/-- Why something cannot be used. -/
def missingReason (name : String) : Option String :=
  match (dottedStarts name).find? (!presentModules.contains ·) with
  | none => none
  | some part =>
    let above := ".".intercalate (Text.fields '.' part).dropLast
    if above.isEmpty then some s!"No module named {Text.quoted part}"
    else some s!"No module named {Text.quoted part}; {Text.quoted above} is not a package"

/-- Offers to install something that is missing. -/
def offerInstall (o : Offer) : OfferOutcome :=
  let wanted := o.module.filter (!·.isEmpty)
  if wanted.any fun name => (missingReason name).isNone then ⟨some true, none, {}⟩
  else
    let command := printable o.system (installCommand o.interpreter o.arguments)
    let tell (c : Console) (n : Notice) : Console := c.tell false n
    let console : Console :=
      match o.prompt.filter (!·.isEmpty) with
      | some text => tell {} (.warning text)
      | none => {}
    if o.selfUpdate && usesDoubleQuotes o.system then
      ⟨none, none, (tell console (.output "Run this command to update:")).print ("\n" ++ command ++ "\n")⟩
    else if !o.agreed then ⟨none, some command, console⟩
    else
      let (succeeded, log) := o.installed
      let failed (c : Console) : OfferOutcome :=
        ⟨none, some command, (tell c (.error log)).print
          ("\nInstall failed, try running this command manually:\n" ++ command ++ "\n")⟩
      if !succeeded then failed console
      else
        match wanted with
        | none => ⟨some true, some command, console⟩
        | some name =>
          if o.appears then ⟨some true, some command, console⟩
          else failed (tell console (.error ((missingReason name).getD "")))

end CodeAtlas.Shell
