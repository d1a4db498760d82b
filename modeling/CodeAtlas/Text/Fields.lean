/-!
# Cutting a text at separators
-/

namespace CodeAtlas.Text

/-- Puts an element in front of the first field. -/
def consField (c : Char) : List (List Char) → List (List Char)
  | [] => [[c]]
  | field :: rest => (c :: field) :: rest

/-- The fields between the separators. -/
def fieldsOf (separator : Char) : List Char → List (List Char)
  | [] => [[]]
  | c :: rest => if c == separator then [] :: fieldsOf separator rest else consField c (fieldsOf separator rest)

/-- The fields of a text between the separators. -/
def fields (separator : Char) (s : String) : List String :=
  (fieldsOf separator s.toList).map String.ofList

/-- Fields with a separator between neighbours. -/
def joined (separator : String) (parts : List String) : String := separator.intercalate parts

/-- Whether the first list occurs in the second one. -/
def occursIn (part : List Char) : List Char → Bool
  | [] => part.isEmpty
  | c :: rest => part.isPrefixOf (c :: rest) || occursIn part rest

/-- Whether a text occurs in another one. -/
def contains (s part : String) : Bool := occursIn part.toList s.toList

/-- The text from the first occurrence of another one on, with the characters before it counted from `n`. -/
def fromFirst? (part : List Char) : (n : Nat) → List Char → Option (Nat × List Char)
  | n, [] => if part.isEmpty then some (n, []) else none
  | n, c :: rest => if part.isPrefixOf (c :: rest) then some (n, c :: rest) else fromFirst? part (n + 1) rest

/-- The text in which every occurrence of `old`, from left to right, gives way to `new`; characters
that belong to an occurrence are skipped. -/
def replaceChars (old new : List Char) : (skip : Nat) → List Char → List Char
  | _, [] => []
  | skip + 1, _ :: rest => replaceChars old new skip rest
  | 0, c :: rest =>
    if old.isPrefixOf (c :: rest) then new ++ replaceChars old new (old.length - 1) rest
    else c :: replaceChars old new 0 rest

/-- The text in which every occurrence of a text that is not empty gives way to another one. -/
def replaceAll (s old new : String) : String :=
  String.ofList (replaceChars old.toList new.toList 0 s.toList)

/-- Whether a text starts with another one. -/
def startsWith (s start : String) : Bool := start.toList.isPrefixOf s.toList

/-- Whether a text ends with another one. -/
def endsWith (s finish : String) : Bool := finish.toList.isSuffixOf s.toList

/-- The text without its first `n` characters. -/
def dropFirst (s : String) (n : Nat) : String := String.ofList (s.toList.drop n)

end CodeAtlas.Text
