import CodeAtlas.Value.Basic
import CodeAtlas.Number.Binary
import CodeAtlas.Text.Quoted

/-!
# Values as text

How a value is shown to a reader: a text as it is, and inside of lists and records between
quotes.
-/

namespace CodeAtlas.Value

/-- A value as a member of a list or a record. -/
def shown : Value → String
  | null => "None"
  | bool b => if b then "True" else "False"
  | int n => toString n
  | float x => Number.display x
  | str s => Text.quoted s
  | list items => "[" ++ ", ".intercalate (shownAll items) ++ "]"
  | record entries => "\x7b" ++ ", ".intercalate (shownEntries entries) ++ "\x7d"
where
  /-- The members of a list. -/
  shownAll : List Value → List String
    | [] => []
    | v :: rest => shown v :: shownAll rest
  /-- The entries of a record. -/
  shownEntries : List (String × Value) → List String
    | [] => []
    | (k, v) :: rest => (Text.quoted k ++ ": " ++ shown v) :: shownEntries rest

/-- A value on its own. -/
def display : Value → String
  | str s => s
  | v => shown v

end CodeAtlas.Value
