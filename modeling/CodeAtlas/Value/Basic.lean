/-!
# Values of no fixed type

Messages and dumped variables hold values whose shape is not known beforehand: numbers, texts, lists
and records, nested in any way.  Records keep the order in which their keys came in.
-/

namespace CodeAtlas

/-- A value of no fixed type. -/
inductive Value
  | null
  | bool (b : Bool)
  | int (n : Int)
  | float (x : Float)
  | str (s : String)
  | list (items : List Value)
  | record (entries : List (String × Value))

namespace Value

/-- Whether a value counts as true: it is neither zero nor empty. -/
def isTrue : Value → Bool
  | null => false
  | bool b => b
  | int n => n != 0
  | float x => !(x == 0)
  | str s => !s.isEmpty
  | list items => !items.isEmpty
  | record entries => !entries.isEmpty

/-- The name of a value's type, as it is written in error messages. -/
def typeName : Value → String
  | null => "NoneType"
  | bool _ => "bool"
  | int _ => "int"
  | float _ => "float"
  | str _ => "str"
  | list _ => "list"
  | record _ => "dict"

/-- The entry of a record. -/
def get? (v : Value) (key : String) : Option Value :=
  match v with
  | record entries => (entries.find? (·.1 == key)).map Prod.snd
  | _ => none

/-- Sets an entry of a record: a known key keeps its place. -/
def insert (entries : List (String × Value)) (key : String) (value : Value) : List (String × Value) :=
  if entries.any (·.1 == key) then entries.map fun (k, v) => if k == key then (k, value) else (k, v)
  else entries ++ [(key, value)]

end Value

end CodeAtlas
