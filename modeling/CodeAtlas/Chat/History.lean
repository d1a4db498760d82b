import CodeAtlas.Text.Blank
import CodeAtlas.Text.Fields
import CodeAtlas.Text.Lines

/-!
# Chat history

A chat is written down as text: lines of the user are marked with four hashes, lines of tools as
quotations, and everything else comes from the assistant.  Headings are left out.
-/

namespace CodeAtlas.Chat

/-- Who speaks. -/
inductive Speaker
  | user | assistant | tool
  deriving DecidableEq, Repr

/-- The name of a speaker. -/
def Speaker.name : Speaker → String
  | user => "user"
  | assistant => "assistant"
  | tool => "tool"

/-- What somebody says. -/
structure Message where
  speaker : Speaker
  content : String
  deriving DecidableEq, Repr

/-- The speaker of a line and the line without its mark.  Headings belong to nobody. -/
def readLine (line : String) : Option (Speaker × String) :=
  if Text.startsWith line "# " then none
  else if Text.startsWith line "> " then some (.tool, Text.dropFirst line 2)
  else if Text.startsWith line "#### " then some (.user, Text.dropFirst line 5)
  else some (.assistant, line)

/-- What somebody says in some lines, unless they are blank. -/
def said (speaker : Speaker) (lines : List String) : List Message :=
  let content := String.join lines
  if Text.isBlankText content then [] else [⟨speaker, content⟩]

/-- The messages read so far, and the lines of each speaker that are in no message yet. -/
structure Reading where
  messages : List Message := []
  user : List String := []
  assistant : List String := []
  tool : List String := []

namespace Reading

/-- The lines of a speaker that are in no message yet. -/
def pending (r : Reading) : Speaker → List String
  | .user => r.user
  | .assistant => r.assistant
  | .tool => r.tool

/-- Puts other lines in the place of those of a speaker. -/
def setPending (r : Reading) (speaker : Speaker) (lines : List String) : Reading :=
  match speaker with
  | .user => { r with user := lines }
  | .assistant => { r with assistant := lines }
  | .tool => { r with tool := lines }

/-- Makes a message of the lines of a speaker. -/
def flush (r : Reading) (speaker : Speaker) : Reading :=
  { r.setPending speaker [] with messages := r.messages ++ said speaker (r.pending speaker) }

/-- Adds a line to those of a speaker. -/
def hear (r : Reading) (speaker : Speaker) (text : String) : Reading :=
  r.setPending speaker (r.pending speaker ++ [text])

/-- Reads one line: before a speaker is heard, messages are made of the lines of the two others. -/
def add (r : Reading) (line : String) : Reading :=
  match readLine line with
  | none => r
  | some (.tool, text) => ((r.flush .assistant).flush .user).hear .tool text
  | some (.user, text) => ((r.flush .assistant).flush .tool).hear .user text
  | some (.assistant, text) => ((r.flush .user).flush .tool).hear .assistant text

/-- All messages.  Lines of a tool that nobody else follows are left out. -/
def finish (r : Reading) : List Message := ((r.flush .assistant).flush .user).messages

end Reading

/-- The messages of a text, with those of tools on request. -/
def history (text : String) (includeTools : Bool) : List Message :=
  let all := ((Text.linesKeep text).foldl Reading.add {}).finish
  if includeTools then all else all.filter (·.speaker != .tool)

end CodeAtlas.Chat
