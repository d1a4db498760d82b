import CodeAtlas.Error
import CodeAtlas.Value.Basic

/-!
# Members of a value
-/

namespace CodeAtlas.Value

/-- The members of a collection: the items of a list, the keys of a record, the characters of a
text. -/
def members : Value → Except Error (List Value)
  | .list items => .ok items
  | .record entries => .ok (entries.map fun (k, _) => .str k)
  | .str s => .ok (s.toList.map fun c => .str (String.singleton c))
  | v => .error (.notIterable v.typeName)

end CodeAtlas.Value
