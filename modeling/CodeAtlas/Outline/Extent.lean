import CodeAtlas.Outline.Element
import CodeAtlas.Text.Blank

/-!
# The source lines of an element
-/

namespace CodeAtlas

/-- A position in a list of a given length: a negative one is counted from the end, and one that lies
outside is moved to the nearest end. -/
def clampIndex (length : Nat) (i : Int) : Nat :=
  if i < 0 then (i + length).toNat else min i.toNat length

/-- The elements from one position up to another one. -/
def slice {α : Type} (xs : List α) (start stop : Int) : List α :=
  let a := clampIndex xs.length start
  let b := clampIndex xs.length stop
  (xs.drop a).take (b - a)

/-- The element at a position, a negative one counted from the end. -/
def at? {α : Type} (xs : List α) (i : Int) : Option α :=
  if i < 0 then if (i + xs.length) < 0 then none else xs[(i + xs.length).toNat]? else xs[i.toNat]?

/-- Consecutive lines, with the numbers of the first and of the last one. -/
structure Extent where
  start : Int
  finish : Int
  lines : List String
  deriving DecidableEq, Repr

namespace Extent

/-- The lines of a range together with a number of lines before and behind it, as far as there are
any. -/
def around (first last : Int) (lines : List String) (context : Int) : Extent :=
  let a := max 0 (max 0 (first - 1) - context)
  let b := min (lines.length : Int) (last + context)
  ⟨a + 1, b, slice lines a b⟩

/-- The extent of nothing. -/
def none : Extent := ⟨0, 0, []⟩

/-- The extent of a record, which has no lines unless it says where it starts and ends. -/
def ofRecord (record : Value) (lines : List String) (context : Int) : Extent :=
  match record.get? "lineno", record.get? "end_lineno" with
  | some (.int first), some (.int last) => around first last lines context
  | _, _ => none

/-- A line that starts a documentation text. -/
def opensDocumentation (line : String) : Bool :=
  let text := Text.strip line
  Text.startsWith text "\"\"\"" || Text.startsWith text "'''"

/-- The head of a definition: the lines from `first` on through the line `own` of the keyword, and
the next one if documentation starts there.  Where that line defines no function, the first line is
all.  A line that is counted from the end has to be there. -/
def signature (first own : Int) (lines : List String) : Except Error Extent :=
  let firstOnly : Extent := ⟨first, first + 1, slice lines (first - 1) first⟩
  if own - 1 < lines.length then
    match at? lines (own - 1) with
    | some line =>
      if Text.contains line "def " then
        let documented := own < lines.length && (at? lines own).any opensDocumentation
        let stop := if documented then own + 1 else own
        .ok ⟨first, stop + 1, slice lines (first - 1) stop⟩
      else .ok firstOnly
    | .none => .error .noSuchIndex
  else .ok firstOnly

/-- The head of the definition that a record describes. -/
def signatureOfRecord (record : Value) (lines : List String) : Except Error Extent :=
  match record.get? "lineno" with
  | some (.int first) =>
    match record.get? "original_lineno" with
    | some (.int own) => signature first own lines
    | _ => signature first first lines
  | _ => .error (.missingEntry "lineno")

/-- A number, with blanks in front of it up to a width. -/
def padNumber (n : Int) (width : Nat) : String :=
  let digits := toString n
  "".pushn ' ' (width - digits.length) ++ digits

/-- Lines put together, on request with their numbers in front, all equally wide. -/
def numbered (lines : List String) (start : Int) (withNumbers : Bool) : String :=
  if withNumbers then
    let width := (toString (start + lines.length - 1)).length
    "".intercalate (lines.mapIdx fun i line => s!"{padNumber (start + i) width} 〉{line}")
  else "".intercalate lines

end Extent

end CodeAtlas
