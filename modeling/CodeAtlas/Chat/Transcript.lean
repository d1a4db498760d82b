import CodeAtlas.Text.Case
import CodeAtlas.Text.Lines
import CodeAtlas.Value.Display
import CodeAtlas.Value.Json
import CodeAtlas.Value.Members

/-!
# Transcripts of messages

Messages are records with a role and a content, and perhaps a call of a function.  They are written
down line by line, each line with the role in front.
-/

namespace CodeAtlas.Transcript

/-- A text with a role in front of every line. -/
def prefixed (role content : String) : String :=
  Text.unlines ((Text.lines content).map fun line => s!"{role} {line}")

/-- The role of a message in capitals. -/
def roleOf (message : Value) : Except Error String :=
  match message with
  | .record _ =>
    match message.get? "role" with
    | some (.str role) => .ok (Text.upper role)
    | some v => .error (.noAttribute v.typeName "upper")
    | none => .error (.missingEntry "role")
  | .str _ => .error .textHasNoEntries
  | .list _ => .error .listHasNoEntries
  | v => .error (.noEntries v.typeName)

/-- The line for an entry of a part of a message; places in the net are shown by themselves. -/
def entryLine (role key : String) (value : Value) : String :=
  match value with
  | .record _ =>
    match value.get? "url" with
    | some url => s!"{role} {Text.capitalize key} URL: {url.display}"
    | none => s!"{role} {key}: {value.display}"
  | _ => s!"{role} {key}: {value.display}"

/-- The lines for a part of a message. -/
def partLines (role : String) : Value → List String
  | .record entries => entries.map fun (key, value) => entryLine role key value
  | item => [s!"{role} {item.display}"]

/-- The lines for the content of a message. -/
def contentLines (role : String) : Option Value → List String
  | some (.list items) => items.flatMap (partLines role)
  | some (.str text) => [prefixed role text]
  | _ => []

/-- The lines for a message. -/
def messageLines (message : Value) : Except Error (List String) := do
  let role ← roleOf message
  let call :=
    match message.get? "function_call" with
    | some v => if v.isTrue then [s!"{role} Function Call: {v.display}"] else []
    | none => []
  return "-------" :: contentLines role (message.get? "content") ++ call

/-- The line for the title. -/
def titleLines : Value → Except Error (List String)
  | .str title => .ok (if title.isEmpty then [] else [Text.upper title ++ " " ++ "".pushn '*' 50])
  | v => if v.isTrue then .error (.noAttribute v.typeName "upper") else .ok []

/-- The transcript of messages under a title. -/
def ofMessages (messages title : Value) : Except Error String := do
  let head ← titleLines title
  let lines ← (← messages.members).mapM messageLines
  return Text.unlines (head ++ lines.flatten)

/-- A value in a readable form: texts as they are, everything else as indented data. -/
def readable : Value → String
  | .str s => s
  | v => v.toIndentedJson

/-- The readable form of a set, which is no data. -/
def readableSet (items : List Value) : String :=
  if items.isEmpty then "set()" else "\x7b" ++ ", ".intercalate (items.map Value.shown) ++ "\x7d"

/-- Values under a name; values that take several lines begin on a line of their own. -/
def dumped (name : String) (values : List Value) : String :=
  let texts := values.map readable
  let gap := if texts.any (·.toList.contains '\n') then "\n" else " "
  s!"{name}:{gap}" ++ ", ".intercalate texts ++ "\n"

/-- A printed transcript, with the functions that can be called. -/
def shown (messages title functions : Value) : Except Error String := do
  let text ← ofMessages messages title
  return text ++ "\n" ++ (if functions.isTrue then dumped "functions" [functions] else "")

end CodeAtlas.Transcript
