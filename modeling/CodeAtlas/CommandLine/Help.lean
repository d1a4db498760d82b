import CodeAtlas.CommandLine.Reading
import CodeAtlas.Text.Word

/-!
# The help of a program

The help shows how a program is called, what it is for, and its operands and options in two columns.  Lines
are filled up to a width; words with a hyphen may be broken behind it.
-/

namespace CodeAtlas.CommandLine

/-- The width of the help. -/
def helpWidth : Nat := 78

/-- The column of the explanations. -/
def helpColumn : Nat := 24

/-- A number of blanks. -/
def blanks (n : Nat) : String := "".pushn ' ' n

/-! ### Filling lines -/

/-- Whether a character is a letter. -/
def isLetter (c : Char) : Bool := Text.isWord c && (Text.decimalValue c).isNone && c != '_'

/-- The pieces of a word: it may be broken behind a hyphen with two letters on either side.  `done` holds
the current piece in reverse. -/
def wordPieces (done : List Char) : List Char → List String
  | [] => if done.isEmpty then [] else [String.ofList done.reverse]
  | '-' :: rest =>
    match done, rest with
    | b :: a :: _, x :: y :: _ =>
      if isLetter a && isLetter b && isLetter x && isLetter y then
        String.ofList ('-' :: done).reverse :: wordPieces [] rest
      else wordPieces ('-' :: done) rest
    | _, _ => wordPieces ('-' :: done) rest
  | c :: rest => wordPieces (c :: done) rest

/-- The pieces of a text, each with a mark whether a blank stands before it. -/
def pieces (text : String) : List (Bool × String) :=
  ((Text.fields ' ' text).filter (!·.isEmpty)).flatMap fun word =>
    match wordPieces [] word.toList with
    | [] => []
    | first :: rest => (true, first) :: rest.map fun piece => (false, piece)

/-- Lines of at most a width; `line` is the current one. -/
def fillPieces (width : Nat) (line : String) : List (Bool × String) → List String
  | [] => if line.isEmpty then [] else [line]
  | (gap, piece) :: rest =>
    let next := line ++ (if gap && !line.isEmpty then " " else "") ++ piece
    if next.length ≤ width || line.isEmpty then fillPieces width next rest
    else line :: fillPieces width piece rest

/-- A text in lines of at most a width. -/
def filled (width : Nat) (text : String) : List String := fillPieces width "" (pieces text)

/-! ### The call -/

/-- How an option is written with its value. -/
def Effect.withValue (e : Effect) (spelling : String) : String :=
  match e with
  | .help | .switch => spelling
  | .text label | .whole label => s!"{spelling} {label}"
  | .wholeOr label _ => s!"{spelling} [{label}]"

/-- An option as part of a call. -/
def Choice.inCall (c : Choice) : String := "[" ++ c.effect.withValue (c.spellings.headD "") ++ "]"

/-- An operand as part of a call. -/
def Operand.inCall (o : Operand) : String := if o.many then s!"[{o.name} ...]" else o.name

/-- Lines of whole parts behind an indent; `line` is the current one, with its indent. -/
def fillParts (indent line : String) (started : Bool) : List String → List String
  | [] => if started then [line] else []
  | part :: rest =>
    let next := if started then line ++ " " ++ part else line ++ part
    if next.length ≤ helpWidth || !started then fillParts indent next true rest
    else line :: fillParts indent (indent ++ part) true rest

/-- The lines that show how a program is called. -/
def Program.callLines (p : Program) (name : String) : List String :=
  let start := s!"usage: {name}"
  let choices := p.choices.map Choice.inCall
  let operands := p.operands.map Operand.inCall
  let whole := " ".intercalate (start :: choices ++ operands)
  if whole.length ≤ helpWidth then [whole]
  else
    let indent := blanks (start.length + 1)
    fillParts indent start true choices ++ fillParts indent indent false operands

/-! ### The columns -/

/-- The lines of an entry: what it is about, and the explanation in its column. -/
def entryLines (subject help : String) : List String :=
  let lines := filled (helpWidth - helpColumn) help
  let indented := lines.map (blanks helpColumn ++ ·)
  let head := "  " ++ subject
  if head.length + 2 ≤ helpColumn then
    (head ++ blanks (helpColumn - head.length) ++ lines.headD "") :: indented.tail
  else head :: indented

/-- An option in all its spellings. -/
def Choice.subject (c : Choice) : String := ", ".intercalate (c.spellings.map c.effect.withValue)

/-- The help of a program that is called by a name. -/
def Program.help (p : Program) (name : String) : String :=
  let lines := p.callLines name ++ ["", p.description, "", "positional arguments:"] ++
    p.operands.flatMap (fun o => entryLines o.name o.help) ++ ["", "options:"] ++
    p.choices.flatMap fun c => entryLines c.subject c.help
  "\n".intercalate lines ++ "\n" ++ p.ending

end CodeAtlas.CommandLine
