import CodeAtlas.Value.Basic
import CodeAtlas.Number.Binary
import CodeAtlas.Text.Quoted

/-!
# Values in JSON

Writing a value as JSON, on one line or indented, with every character beyond ASCII escaped, and
reading it back.  Integers of any size and the difference between `1` and `1.0` survive; a key that
occurs twice keeps its first place and its last value.
-/

namespace CodeAtlas.Value

/-- The two halves by which JSON escapes a code point beyond the first 65536. -/
def surrogates (n : Nat) : List Nat :=
  if n < 65536 then [n] else [0xD800 + (n - 65536) / 1024, 0xDC00 + (n - 65536) % 1024]

/-- One character of a JSON text. -/
def jsonChar (c : Char) : List Char :=
  match c with
  | '"' => ['\\', '"']
  | '\\' => ['\\', '\\']
  | '\n' => ['\\', 'n']
  | '\r' => ['\\', 'r']
  | '\t' => ['\\', 't']
  | c =>
    let n := c.toNat
    if n = 8 then ['\\', 'b']
    else if n = 12 then ['\\', 'f']
    else if 32 ≤ n && n < 127 then [c]
    else (surrogates n).flatMap fun h => ['\\', 'u'] ++ Text.hexDigits h 4

/-- A text in JSON. -/
def jsonText (s : String) : String :=
  String.ofList (['"'] ++ s.toList.flatMap jsonChar ++ ['"'])

/-- A double in JSON. -/
def jsonFloat (x : Float) : String :=
  match Number.Binary.ofFloat x with
  | .notANumber => "NaN"
  | .infinite negative => if negative then "-Infinity" else "Infinity"
  | _ => Number.display x

/-- A value on one line of JSON. -/
def toJson : Value → String
  | null => "null"
  | bool b => if b then "true" else "false"
  | int n => toString n
  | float x => jsonFloat x
  | str s => jsonText s
  | list items => "[" ++ ",".intercalate (items' items) ++ "]"
  | record entries => "\x7b" ++ ",".intercalate (entries' entries) ++ "\x7d"
where
  /-- The members of a list. -/
  items' : List Value → List String
    | [] => []
    | v :: rest => toJson v :: items' rest
  /-- The entries of a record. -/
  entries' : List (String × Value) → List String
    | [] => []
    | (k, v) :: rest => (jsonText k ++ ":" ++ toJson v) :: entries' rest

/-- A line end with the indentation of a level. -/
def newLine (level : Nat) : String := "\n" ++ "".pushn ' ' (4 * level)

/-- Members between brackets, each on a line of its own. -/
def indentedBlock (level : Nat) (opening closing : String) (members : List String) : String :=
  if members.isEmpty then opening ++ closing
  else opening ++ newLine (level + 1) ++ ("," ++ newLine (level + 1)).intercalate members ++
    newLine level ++ closing

/-- A value in JSON over several lines, at a level of indentation. -/
def indentedAt (level : Nat) : Value → String
  | list items => indentedBlock level "[" "]" (items' level items)
  | record entries => indentedBlock level "\x7b" "\x7d" (entries' level entries)
  | v => toJson v
where
  /-- The members of a list, one level deeper. -/
  items' (level : Nat) : List Value → List String
    | [] => []
    | v :: rest => indentedAt (level + 1) v :: items' level rest
  /-- The entries of a record, one level deeper. -/
  entries' (level : Nat) : List (String × Value) → List String
    | [] => []
    | (k, v) :: rest => (jsonText k ++ ": " ++ indentedAt (level + 1) v) :: entries' level rest

/-- A value in JSON over several lines. -/
def toIndentedJson (v : Value) : String := indentedAt 0 v

/-- White space between tokens of JSON. -/
def skipJsonBlanks (cs : List Char) : List Char :=
  cs.dropWhile fun c => c == ' ' || c == '\n' || c == '\r' || c == '\t'

/-- The value of a hexadecimal digit. -/
def hexDigitValue (c : Char) : Nat :=
  if c.isDigit then c.toNat - 48 else if 'a' ≤ c then c.toNat - 87 else c.toNat - 55

/-- The value of four hexadecimal digits. -/
def hex4 (a b c d : Char) : Nat :=
  ((hexDigitValue a * 16 + hexDigitValue b) * 16 + hexDigitValue c) * 16 + hexDigitValue d

/-- The characters of a JSON text up to its closing quote, and what follows. -/
def jsonChars : List Char → Option (List Char × List Char)
  | [] => none
  | '"' :: rest => some ([], rest)
  | '\\' :: 'u' :: a :: b :: c :: d :: '\\' :: 'u' :: e :: f :: g :: h :: rest =>
    let hi := hex4 a b c d
    let lo := hex4 e f g h
    if 0xD800 ≤ hi && hi < 0xDC00 && 0xDC00 ≤ lo && lo < 0xE000 then
      (jsonChars rest).map fun (cs, r) =>
        (Char.ofNat (65536 + (hi - 0xD800) * 1024 + (lo - 0xDC00)) :: cs, r)
    else (jsonChars ('\\' :: 'u' :: e :: f :: g :: h :: rest)).map fun (cs, r) => (Char.ofNat hi :: cs, r)
  | '\\' :: 'u' :: a :: b :: c :: d :: rest =>
    (jsonChars rest).map fun (cs, r) => (Char.ofNat (hex4 a b c d) :: cs, r)
  | '\\' :: e :: rest =>
    let c := match e with
      | 'n' => '\n'
      | 'r' => '\r'
      | 't' => '\t'
      | 'b' => Char.ofNat 8
      | 'f' => Char.ofNat 12
      | e => e
    (jsonChars rest).map fun (cs, r) => (c :: cs, r)
  | c :: rest => (jsonChars rest).map fun (cs, r) => (c :: cs, r)

/-- A number in JSON: an integer, unless it has a point or an exponent. -/
def jsonNumber (cs : List Char) : Value × List Char :=
  let isPart := fun (c : Char) => c.isDigit || c == '-' || c == '+' || c == '.' || c == 'e' || c == 'E'
  let text := cs.takeWhile isPart
  let rest := cs.drop text.length
  let negative := text.head? == some '-'
  let text := if negative then text.drop 1 else text
  let natOf (ds : List Char) : Nat := ds.foldl (fun n c => 10 * n + (c.toNat - 48)) 0
  let whole := text.takeWhile Char.isDigit
  let after := text.drop whole.length
  if after.isEmpty then
    (.int (if negative then -(natOf whole : Int) else natOf whole), rest)
  else
    let decimals := if after.head? == some '.' then (after.drop 1).takeWhile Char.isDigit else []
    let exponentText := (after.dropWhile fun c => c == '.' || c.isDigit).drop 1
    let exponentNegative := exponentText.head? == some '-'
    let exponent : Int := natOf (exponentText.filter Char.isDigit)
    let exponent := (if exponentNegative then -exponent else exponent) - decimals.length
    let mantissa := natOf (whole ++ decimals)
    let x := if 0 ≤ exponent then Float.ofScientific mantissa false exponent.toNat
      else Float.ofScientific mantissa true (-exponent).toNat
    (.float (if negative then -x else x), rest)

mutual

/-- A value in JSON, and what follows it. -/
def readJson : Nat → List Char → Option (Value × List Char)
  | 0, _ => none
  | fuel + 1, cs =>
    match skipJsonBlanks cs with
    | [] => none
    | '"' :: rest => (jsonChars rest).map fun (s, r) => (.str (String.ofList s), r)
    | '[' :: rest => readItems fuel rest []
    | '\x7b' :: rest => readEntries fuel rest []
    | 'n' :: 'u' :: 'l' :: 'l' :: rest => some (.null, rest)
    | 't' :: 'r' :: 'u' :: 'e' :: rest => some (.bool true, rest)
    | 'f' :: 'a' :: 'l' :: 's' :: 'e' :: rest => some (.bool false, rest)
    | cs => some (jsonNumber cs)

/-- The members of a list up to its closing bracket; those read are given, the latest first. -/
def readItems : Nat → List Char → List Value → Option (Value × List Char)
  | 0, _, _ => none
  | fuel + 1, cs, items =>
    match skipJsonBlanks cs with
    | ']' :: rest => some (.list items.reverse, rest)
    | ',' :: rest => readItems fuel rest items
    | cs => do
      let (v, rest) ← readJson fuel cs
      readItems fuel rest (v :: items)

/-- The entries of a record up to its closing brace. -/
def readEntries : Nat → List Char → List (String × Value) → Option (Value × List Char)
  | 0, _, _ => none
  | fuel + 1, cs, entries =>
    match skipJsonBlanks cs with
    | '\x7d' :: rest => some (.record entries, rest)
    | ',' :: rest => readEntries fuel rest entries
    | '"' :: rest => do
      let (key, rest) ← jsonChars rest
      match skipJsonBlanks rest with
      | ':' :: rest =>
        let (v, rest) ← readJson fuel rest
        readEntries fuel rest (insert entries (String.ofList key) v)
      | _ => none
    | _ => none

end

/-- The value that a JSON text denotes. -/
def ofJson? (s : String) : Option Value :=
  let cs := s.toList
  (readJson (cs.length + 1) cs).map Prod.fst

end CodeAtlas.Value
