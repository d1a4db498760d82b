import CodeAtlas.Number.Whole
import CodeAtlas.Text.Fields

/-!
# Reading a command line

A command line has options, which start with a dash, and operands.  Options may be written in short, as
long as it is clear which one is meant, a value may follow an equals sign, and options of one letter may
share a dash.  Two dashes alone make operands of all that follows.
-/

namespace CodeAtlas.CommandLine

/-- What an option does. -/
inductive Effect
  /-- Shows the help. -/
  | help
  /-- Switches something on. -/
  | switch
  /-- Takes a text. -/
  | text (label : String)
  /-- Takes a whole number. -/
  | whole (label : String)
  /-- Takes a whole number, or stands for a given one. -/
  | wholeOr (label : String) (default : Int)
  deriving DecidableEq, Repr

/-- An option: the ways to write it, the first long one being its name, and what it does. -/
structure Choice where
  spellings : List String
  effect : Effect
  help : String
  deriving DecidableEq, Repr

/-- An operand: one argument, or as many as there are. -/
structure Operand where
  name : String
  many : Bool := false
  help : String
  deriving DecidableEq, Repr

/-- What a program understands, and the texts of its help. -/
structure Program where
  description : String
  choices : List Choice
  operands : List Operand
  ending : String := ""

/-- The name of an option: its first spelling with two dashes, without them. -/
def Choice.name (c : Choice) : String :=
  ((c.spellings.find? (Text.startsWith · "--")).map (Text.dropFirst · 2)).getD ""

/-- Why a command line is not carried out. -/
inductive Stop
  /-- Help was asked for. -/
  | help
  /-- It is not understood. -/
  | misuse
  deriving DecidableEq, Repr

/-- What has been understood: options with their values, the latest first, and operands.  Two dashes in the
place of a value leave it out. -/
structure Reading where
  options : List (String × Option String) := []
  numbers : List (String × Int) := []
  operands : List (String × List String) := []
  deriving DecidableEq, Repr

namespace Reading

/-- Whether an option was given. -/
def has (r : Reading) (name : String) : Bool := r.options.any (·.1 == name)

/-- The text that an option was given, which may have been left out. -/
def text? (r : Reading) (name : String) : Option (Option String) := r.options.lookup name

/-- The number that an option was given. -/
def number? (r : Reading) (name : String) : Option Int := r.numbers.lookup name

/-- The arguments that an operand was given. -/
def operand (r : Reading) (name : String) : List String := (r.operands.lookup name).getD []

end Reading

/-! ### Words -/

/-- An option as it was written: the option that is meant, the spelling, and a value that was written
together with it. -/
structure Written where
  choice : Choice
  spelling : String
  value : Option String := none

/-- An argument, classified. -/
inductive Word
  | operand (text : String)
  | divider
  | option (written : Written)
  /-- What looks like an option, but is none. -/
  | unknown (text : String)

/-- The part before an equals sign and the part behind it, if there is one. -/
def splitEquals (text : String) : Option (String × String) :=
  match text.toList.span (· != '=') with
  | (a, _ :: b) => some (String.ofList a, String.ofList b)
  | _ => none

/-- All ways to write options. -/
def Program.written (p : Program) : List Written :=
  p.choices.flatMap fun c => c.spellings.map fun s => ⟨c, s, none⟩

/-- The option that is written exactly like this. -/
def Program.exactly (p : Program) (text : String) : Option Written := p.written.find? (·.spelling == text)

/-- Whether a text is a negative number.  A line feed at its end is overlooked. -/
def isNegativeNumber (text : String) : Bool :=
  match if text.toList.getLast? == some '\n' then text.toList.dropLast else text.toList with
  | '-' :: rest =>
    let whole := rest.takeWhile (fun c => (Text.decimalValue c).isSome)
    match rest.drop whole.length with
    | [] => !whole.isEmpty
    | '.' :: decimals => !decimals.isEmpty && decimals.all (fun c => (Text.decimalValue c).isSome)
    | _ => false
  | _ => false

/-- The options that a text may be short for. -/
def Program.shortened (p : Program) (text : String) : List Written :=
  if Text.startsWith text "--" then
    let (start, value) := match splitEquals text with
      | some (a, b) => (a, some b)
      | none => (text, none)
    (p.written.filter (Text.startsWith ·.spelling start)).map fun w => { w with value }
  else
    let letter := String.ofList (text.toList.take 2)
    p.written.filterMap fun w =>
      if w.spelling == letter then some { w with value := some (Text.dropFirst text 2) }
      else if Text.startsWith w.spelling text then some w
      else none

/-- Classifies an argument before the divider. -/
def Program.classify (p : Program) (text : String) : Except Stop Word :=
  if !Text.startsWith text "-" then .ok (.operand text)
  else
    match p.exactly text with
    | some w => .ok (.option w)
    | none =>
      if text.length == 1 then .ok (.operand text)
      else
        match (splitEquals text).bind fun (a, b) => (p.exactly a).map fun w => { w with value := some b } with
        | some w => .ok (.option w)
        | none =>
          match p.shortened text with
          | [w] => .ok (.option w)
          | [] =>
            .ok (if isNegativeNumber text || text.toList.contains ' ' then .operand text else .unknown text)
          | _ => .error .misuse

/-- Classifies the arguments. -/
def Program.classifyAll (p : Program) : List String → Except Stop (List Word)
  | [] => .ok []
  | "--" :: rest => .ok (.divider :: rest.map .operand)
  | text :: rest => do
    let w ← p.classify text
    return w :: (← p.classifyAll rest)

/-! ### Operands -/

/-- The arguments at the start of words, with dividers as they are written, and the other words. -/
def takeOperands : List Word → List String × List Word
  | .operand text :: rest =>
    let (taken, left) := takeOperands rest
    (text :: taken, left)
  | .divider :: rest =>
    let (taken, left) := takeOperands rest
    ("--" :: taken, left)
  | words => ([], words)

/-- Dividers at the start of words. -/
def takeDividers : List Word → List String × List Word
  | .divider :: rest =>
    let (taken, left) := takeDividers rest
    ("--" :: taken, left)
  | words => ([], words)

/-- The arguments for one operand, and the other words. -/
def Operand.take? (o : Operand) (words : List Word) : Option (List String × List Word) :=
  if o.many then some (takeOperands words)
  else
    match takeDividers words with
    | (before, .operand text :: rest) =>
      let (after, left) := takeDividers rest
      some (before ++ [text] ++ after, left)
    | _ => none

/-- A list without its first divider. -/
def dropDivider (texts : List String) : List String := texts.erase "--"

/-- Gives words to operands as long as there are enough: what has been understood, the operands that are
still open, and the words that are left. -/
def giveOperands (r : Reading) : List Operand → List Word → Reading × List Operand × List Word
  | [], words => (r, [], words)
  | o :: rest, words =>
    match o.take? words with
    | none => (r, o :: rest, words)
    | some (texts, left) =>
      giveOperands { r with operands := r.operands ++ [(o.name, dropDivider texts)] } rest left

/-! ### Options -/

/-- Whether an option takes a value that is written together with it. -/
def Effect.takesValue : Effect → Bool
  | .help | .switch => false
  | _ => true

/-- Carries out an option with its value, if it has one. -/
def Choice.apply (c : Choice) (value : Option String) (r : Reading) : Except Stop Reading :=
  let withText (text : Option String) : Reading := { r with options := (c.name, text) :: r.options }
  let withNumber (n : Int) : Reading := { r with numbers := (c.name, n) :: r.numbers }
  let number (text : String) : Except Stop Reading :=
    match Number.whole? text with
    | some n => .ok (withNumber n)
    | none => .error .misuse
  match c.effect, value with
  | .help, _ => .error .help
  | .switch, _ => .ok (withText none)
  | .wholeOr _ default, none => .ok (withNumber default)
  | _, none => .error .misuse
  | .text _, some text => .ok (withText (if text == "--" then none else some text))
  | .whole _, some text => if text == "--" then .ok (withNumber 0) else number text
  | .wholeOr _ default, some text => if text == "--" then .ok (withNumber default) else number text

/-- Takes an option apart: the options that share its dash, and the value of the last one if it was
written together with it.  Nothing may be left over. -/
def Program.unpack (p : Program) (c : Choice) (spelling : String) :
    (value : Option (List Char)) → Except Stop (List Choice × Option String)
  | none => .ok ([c], none)
  | some cs =>
    if c.effect.takesValue then .ok ([c], some (String.ofList cs))
    else if Text.startsWith spelling "--" then .error .misuse
    else
      match cs with
      | [] => .error .misuse
      | letter :: rest => shared [c] letter rest
where
  /-- The options from a letter on, after those that have been found. -/
  shared (found : List Choice) (letter : Char) : List Char → Except Stop (List Choice × Option String)
    | [] =>
      match p.exactly (String.ofList ['-', letter]) with
      | some w => .ok (found ++ [w.choice], none)
      | none => .error .misuse
    | next :: rest =>
      match p.exactly (String.ofList ['-', letter]) with
      | some w =>
        if w.choice.effect.takesValue then .ok (found ++ [w.choice], some (String.ofList (next :: rest)))
        else shared (found ++ [w.choice]) next rest
      | none => .error .misuse

/-- The value for an option from the words behind it, and the words that are left. -/
def Effect.takeValue (e : Effect) (words : List Word) : Except Stop (Option String × List Word) :=
  match e, words with
  | .help, words | .switch, words => .ok (none, words)
  | _, .operand value :: rest => .ok (some value, rest)
  | .wholeOr _ _, words => .ok (none, words)
  | _, _ => .error .misuse

/-- Carries out options, of which the last has a value if one is given. -/
def applyAll (value : Option String) : List Choice → Reading → Except Stop Reading
  | [], r => .ok r
  | [c], r => c.apply value r
  | c :: rest, r => do applyAll value rest (← c.apply none r)

/-- Carries out an option, with the words behind it if it needs one: what has been understood, and the
words that are left. -/
def Program.carryOut (p : Program) (w : Written) (r : Reading) (words : List Word) :
    Except Stop (Reading × List Word) := do
  let (choices, value) ← p.unpack w.choice w.spelling (w.value.map String.toList)
  match value, choices.getLast? with
  | none, some last => do
    let (value, left) ← last.effect.takeValue words
    return (← applyAll value choices r, left)
  | value, _ => return (← applyAll value choices r, words)

/-! ### The whole line -/

/-- Whether a word is written like an option. -/
def Word.isDashed : Word → Bool
  | .option _ | .unknown _ => true
  | _ => false

/-- What has come of a command line so far. -/
structure State where
  reading : Reading := {}
  /-- The operands that are still open. -/
  wanted : List Operand
  /-- Whether something was left over. -/
  excess : Bool := false

/-- Ends a command line with the words behind its last option. -/
def State.finish (s : State) (words : List Word) : Except Stop Reading :=
  let (r, wanted, left) := giveOperands s.reading s.wanted words
  if s.excess || !left.isEmpty || !wanted.isEmpty then .error .misuse else .ok r

/-- Reads words, options and operands in turn.  Each step takes at least one word away, so that as many steps
as there are words suffice. -/
def Program.readWords (p : Program) : (steps : Nat) → State → List Word → Except Stop Reading
  | 0, s, words => s.finish words
  | steps + 1, s, words =>
    if !words.any Word.isDashed then s.finish words
    else
      match words with
      | .unknown _ :: rest => p.readWords steps { s with excess := true } rest
      | .option w :: rest => do
        let (r, left) ← p.carryOut w s.reading rest
        p.readWords steps { s with reading := r } left
      | words =>
        let (r, wanted, left) := giveOperands s.reading s.wanted words
        if left.length < words.length then p.readWords steps { s with reading := r, wanted } left
        else p.readWords steps { s with excess := true } (words.dropWhile (!·.isDashed))

/-- Reads a command line. -/
def Program.read (p : Program) (arguments : List String) : Except Stop Reading := do
  let words ← p.classifyAll arguments
  p.readWords (words.length + 1) { wanted := p.operands } words

end CodeAtlas.CommandLine
