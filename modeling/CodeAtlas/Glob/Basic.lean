/-!
# Wildcards

A wildcard pattern matches a whole text: a star stands for any text, a question mark for one character,
and a set in brackets for one of its members.
-/

namespace CodeAtlas.Glob

/-- One element of a pattern. -/
inductive Item
  | star
  | any
  | char (c : Char)
  /-- One character that lies in one of the ranges, or in none of them. -/
  | set (negated : Bool) (ranges : List (Char × Char))
  deriving DecidableEq, Repr

/-- Whether a character is a member of a set. -/
def inRanges (ranges : List (Char × Char)) (c : Char) : Bool := ranges.any fun (a, b) => a ≤ c && c ≤ b

/-- Whether an element that stands for one character accepts it. -/
def Item.accepts : Item → Char → Bool
  | star, _ => false
  | any, _ => true
  | char d, c => c == d
  | set negated ranges, c => inRanges ranges c != negated

/-- Whether a test holds of some end of a text. -/
def someSuffix (test : List Char → Bool) : List Char → Bool
  | [] => test []
  | c :: cs => test (c :: cs) || someSuffix test cs

/-- Whether a pattern matches a whole text. -/
def matchesItems : List Item → List Char → Bool
  | [], cs => cs.isEmpty
  | .star :: rest, cs => someSuffix (matchesItems rest) cs
  | _ :: _, [] => false
  | item :: rest, c :: cs => item.accepts c && matchesItems rest cs

/-! ### Reading sets -/

/-- The text between the brackets of a set and what follows, if the set is closed.  A closing bracket
right at the start, or behind the mark of negation, is a member. -/
def splitSet (cs : List Char) : Option (List Char × List Char) :=
  let (mark, body) := match cs with
    | '!' :: rest => (['!'], rest)
    | _ => ([], cs)
  let (first, body) := match body with
    | ']' :: rest => ([']'], rest)
    | _ => ([], body)
  match body.dropWhile (· != ']') with
  | [] => none
  | _ :: rest => some (mark ++ first ++ body.takeWhile (· != ']'), rest)

/-- Cuts a set at the hyphens that stand for ranges.  `skip` characters cannot be such a hyphen. -/
def chunksFrom : (skip : Nat) → List Char → List (List Char)
  | _, [] => [[]]
  | skip + 1, c :: rest =>
    match chunksFrom skip rest with
    | [] => [[c]]
    | chunk :: more => (c :: chunk) :: more
  | 0, c :: rest =>
    if c == '-' then [] :: chunksFrom 2 rest
    else
      match chunksFrom 0 rest with
      | [] => [[c]]
      | chunk :: more => (c :: chunk) :: more

/-- A hyphen at the end belongs to the chunk before it. -/
def mendLast (chunks : List (List Char)) : List (List Char) :=
  match chunks.reverse with
  | [] :: last :: before => ((last ++ ['-']) :: before).reverse
  | _ => chunks

/-- Joins chunks between which there would be a range that runs backwards, from the end on; both ends
of such a range go. -/
def joinBackward : List (List Char) → List (List Char)
  | [] => []
  | chunk :: rest =>
    match joinBackward rest with
    | [] => [chunk]
    | next :: more =>
      match chunk.getLast?, next with
      | some a, b :: tail => if b < a then (chunk.dropLast ++ tail) :: more else chunk :: next :: more
      | _, _ => chunk :: next :: more

/-- The single members of a chunk. -/
def singles (cs : List Char) : List (Char × Char) := cs.map fun c => (c, c)

/-- The ranges of a chunk and those behind it: the last character of a chunk and the first of the next
one are the ends of a range. -/
def rangesOf : List Char → List (List Char) → List (Char × Char)
  | chunk, [] => singles chunk
  | chunk, next :: more =>
    match chunk.getLast?, next with
    | some a, b :: tail => singles chunk.dropLast ++ (a, b) :: rangesOf tail more
    | _, _ => singles chunk ++ rangesOf next more

/-- The element that a set stands for: an empty one accepts nothing, a negated empty one everything. -/
def setItem (body : List Char) : Item :=
  let skip := if body.head? == some '!' then 2 else 1
  let chunks := joinBackward (mendLast (chunksFrom skip body))
  match chunks with
  | ('!' :: chunk) :: more =>
    if chunk.isEmpty && more.isEmpty then .any else .set true (rangesOf chunk more)
  | chunk :: more => .set false (rangesOf chunk more)
  | [] => .set false []

/-- Reads a pattern.  A bracket that is never closed stands for itself. -/
def parseChars : Nat → List Char → List Item
  | 0, _ => []
  | _, [] => []
  | fuel + 1, '*' :: rest => .star :: parseChars fuel rest
  | fuel + 1, '?' :: rest => .any :: parseChars fuel rest
  | fuel + 1, '[' :: rest =>
    match splitSet rest with
    | some (body, rest) => setItem body :: parseChars fuel rest
    | none => .char '[' :: parseChars fuel rest
  | fuel + 1, c :: rest => .char c :: parseChars fuel rest

/-- Reads a pattern. -/
def parse (pattern : String) : List Item := parseChars pattern.length pattern.toList

/-- Whether a pattern matches a whole text. -/
def accepts (pattern text : String) : Bool := matchesItems (parse pattern) text.toList

/-- Whether a text holds a character with a special meaning. -/
def hasWildcard (text : String) : Bool := text.toList.any fun c => c == '*' || c == '?' || c == '['

end CodeAtlas.Glob
