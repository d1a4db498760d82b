import CodeAtlas.Shell.Command

/-!
# Running simple commands

The programs that print something or only succeed or fail, and scripts made of them.  Both output streams
are read together, so that sending output to the other one changes nothing.
-/

namespace CodeAtlas.Shell

/-- What a command prints, and the status with which it ends. -/
structure Ran where
  output : String := ""
  status : Nat := 0

/-- The character that a letter behind a backslash stands for. -/
def escapeOf? : Char → Option Char
  | 'n' => some '\n'
  | 't' => some '\t'
  | 'r' => some '\r'
  | 'a' => some '\x07'
  | 'b' => some '\x08'
  | 'f' => some '\x0c'
  | 'v' => some '\x0b'
  | '\\' => some '\\'
  | '"' => some '"'
  | _ => none

/-- A text in which letters behind backslashes are replaced. -/
def unescape : List Char → List Char
  | '\\' :: c :: rest =>
    match escapeOf? c with
    | some d => d :: unescape rest
    | none => '\\' :: c :: unescape rest
  | c :: rest => c :: unescape rest
  | [] => []

/-- Prints words, with a line end unless the first word says otherwise. -/
def echo (escapes : Bool) (words : List String) : Ran :=
  let (ending, words) := match words with
    | "-n" :: rest => ("", rest)
    | words => ("\n", words)
  let text := " ".intercalate words
  ⟨(if escapes then String.ofList (unescape text.toList) else text) ++ ending, 0⟩

/-- One pass over a format, with the arguments that are left. -/
def formatOnce : List Char → List String → List Char × List String
  | '%' :: '%' :: rest, args =>
    let (text, args) := formatOnce rest args
    ('%' :: text, args)
  | '%' :: 's' :: rest, args | '%' :: 'd' :: rest, args =>
    let (text, left) := formatOnce rest args.tail
    ((args.headD "").toList ++ text, left)
  | '\\' :: c :: rest, args =>
    let (text, args) := formatOnce rest args
    match escapeOf? c with
    | some d => (d :: text, args)
    | none => ('\\' :: c :: text, args)
  | c :: rest, args =>
    let (text, args) := formatOnce rest args
    (c :: text, args)
  | [], args => ([], args)

/-- Passes over a format until no arguments are left. -/
def formatAll (text : List Char) : Nat → List String → List Char
  | 0, _ => []
  | fuel + 1, args =>
    let (printed, left) := formatOnce text args
    if left.isEmpty || left.length == args.length then printed else printed ++ formatAll text fuel left

/-- Prints arguments by a format. -/
def format : List String → Ran
  | [] => ⟨"printf: missing operand\nTry 'printf --help' for more information.\n", 1⟩
  | text :: args => ⟨String.ofList (formatAll text.toList (args.length + 1) args), 0⟩

/-- A program that is given by its name. -/
def simple? (escapes : Bool) : List String → Option Ran
  | "true" :: _ => some {}
  | "false" :: _ => some { status := 1 }
  | "echo" :: words => some (echo escapes words)
  | "printf" :: words => some (format words)
  | _ => none

/-- A piece of a script. -/
inductive Piece
  | word (text : String)
  /-- The end of a command. -/
  | next
  /-- The end of a command that has to succeed, or to fail, for the next one to be run. -/
  | onlyIf (success : Bool)
  deriving DecidableEq, Repr

/-- Cuts a script into pieces.  `word` is the word that is being read, if there is one. -/
def pieces (word : Option (List Char)) (quote : Option Char) : List Char → List Piece
  | [] => flush
  | '\\' :: c :: rest =>
    if quote == some '\'' then pieces (some (word.getD [] ++ ['\\'])) quote (c :: rest)
    else if quote == some '"' && !(['"', '\\', '$'].contains c) then pieces (some (word.getD [] ++ ['\\', c])) quote
      rest
    else pieces (some (word.getD [] ++ [c])) quote rest
  | '&' :: '&' :: rest =>
    if quote.isNone then flush ++ .onlyIf true :: pieces none none rest
    else pieces (some (word.getD [] ++ ['&'])) quote ('&' :: rest)
  | '|' :: '|' :: rest =>
    if quote.isNone then flush ++ .onlyIf false :: pieces none none rest
    else pieces (some (word.getD [] ++ ['|'])) quote ('|' :: rest)
  | c :: rest =>
    match quote with
    | some q =>
      if c == q then pieces (some (word.getD [])) none rest else pieces (some (word.getD [] ++ [c])) quote rest
    | none =>
      if c == '\'' || c == '"' then pieces (some (word.getD [])) (some c) rest
      else if c == ' ' || c == '\t' then flush ++ pieces none none rest
      else if c == ';' || c == '\n' then flush ++ .next :: pieces none none rest
      else pieces (some (word.getD [] ++ [c])) none rest
where
  /-- The word that is being read. -/
  flush : List Piece :=
    match word with
    | some cs => [.word (String.ofList cs)]
    | none => []

/-- A word that sends output elsewhere. -/
def isRedirection (word : String) : Bool := [">&2", "1>&2", "2>&1", ">&1"].contains word

/-- Runs one command of a script.  Some status means that the script ends with it. -/
def command (words : List String) (before : Ran) : Ran × Bool :=
  match words.filter (!isRedirection ·) with
  | [] => (before, false)
  | ["exit"] => (before, true)
  | "exit" :: status :: _ => ({ before with status := status.toNat?.getD 2 % 256 }, true)
  | ":" :: _ => ({ before with status := 0 }, false)
  | words =>
    match simple? true words with
    | some ran => (⟨before.output ++ ran.output, ran.status⟩, false)
    | none =>
      let name := words.headD ""
      (⟨before.output ++ s!"sh: 1: {name}: not found\n", 127⟩, false)

/-- Runs the pieces of a script.  `skip` says that the current command is passed over. -/
def commands (before : Ran) (skip : Bool) (words : List String) : List Piece → Ran
  | [] => if skip then before else (command words before).1
  | .word text :: rest => commands before skip (words ++ [text]) rest
  | .next :: rest =>
    if skip then commands before false [] rest
    else
      let (ran, ended) := command words before
      if ended then ran else commands ran false [] rest
  | .onlyIf success :: rest =>
    let (ran, ended) := if skip then (before, false) else command words before
    if ended then ran else commands ran ((ran.status == 0) != success) [] rest

/-- Runs a script. -/
def script (text : String) : Ran := commands {} false [] (pieces none none text.toList)

/-- Runs a command. -/
def run : List String → Except Error Ran
  | [] => .error .noSuchIndex
  | "sh" :: "-c" :: text :: _ => .ok (script text)
  | name :: words =>
    match simple? false (name :: words) with
    | some ran => .ok ran
    | none => .error (.disk .notFound (some name))

/-- Runs a command that installs something: whether it succeeds, what it prints, and what is told about
it. -/
def install (system : String) (words : List String) : Except Error (Bool × String × String) := do
  let ran ← run words
  let succeeded := ran.status == 0
  let ending := if succeeded then "Installation complete.\n\n" else "\nInstallation failed.\n\n"
  return (succeeded, ran.output, s!"\nInstalling: {printable system words}\n" ++ ending)

end CodeAtlas.Shell
