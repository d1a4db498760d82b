/-!
# Sets of code points

A character class of the Unicode standard is a sorted list of disjoint ranges.  It is written as
text, alternating the number of code points left out and the number taken, so that a class of
several hundred ranges stays a few lines long.
-/

namespace CodeAtlas.Text

/-- The decimal numbers of a text in which single blanks separate them. -/
def decimals (text : String) : List Nat :=
  let finish (s : Option Nat × List Nat) : List Nat := match s with
    | (some n, ns) => n :: ns
    | (none, ns) => ns
  (finish (text.toList.foldl (fun s c =>
    if c.isDigit then (some (10 * s.1.getD 0 + (c.toNat - 48)), s.2) else (none, finish s)) (none, []))).reverse

/-- A set of code points given by sorted, disjoint, inclusive ranges. -/
structure Ranges where
  bounds : Array (Nat × Nat)

/-- Reads alternating lengths: left out, taken, left out, taken, and so on from code point 0. -/
def Ranges.ofLengths : Nat → List Nat → List (Nat × Nat)
  | start, skip :: take :: rest =>
    (start + skip, start + skip + take - 1) :: Ranges.ofLengths (start + skip + take) rest
  | _, _ => []

/-- The set written as alternating lengths. -/
def Ranges.ofGaps (text : String) : Ranges := ⟨(Ranges.ofLengths 0 (decimals text)).toArray⟩

/-- The index of the last entry whose key is at most `code`, by bisection of `lo ≤ i < hi`. -/
def lastAtMost (key : Nat → Nat) (code : Nat) : Nat → Nat → Nat → Nat
  | 0, lo, _ => lo
  | fuel + 1, lo, hi =>
    if hi ≤ lo + 1 then lo
    else
      let mid := (lo + hi) / 2
      if key mid ≤ code then lastAtMost key code fuel mid hi else lastAtMost key code fuel lo mid

/-- Membership of a code point. -/
def Ranges.contains (r : Ranges) (code : Nat) : Bool :=
  let i := lastAtMost (fun i => (r.bounds[i]?.map Prod.fst).getD 0) code r.bounds.size 0 r.bounds.size
  match r.bounds[i]? with
  | some (lo, hi) => lo ≤ code && code ≤ hi
  | none => false

/-- A run of code points `first, first + step, …`, all moved by the same displacement. -/
structure Shift where
  first : Nat
  count : Nat
  step : Nat
  offset : Int

/-- A partial map on code points, as runs sorted by their first code point. -/
structure Shifts where
  runs : Array Shift

/-- Reads runs written as first point relative to the one before, count, step, and a
displacement whose sign comes first (`0` up, `1` down). -/
def Shifts.ofNumbers : Nat → List Nat → List Shift
  | start, gap :: count :: step :: sign :: size :: rest =>
    ⟨start + gap, count, step, if sign = 0 then (size : Int) else -(size : Int)⟩ ::
      Shifts.ofNumbers (start + gap) rest
  | _, _ => []

/-- The map written as runs. -/
def Shifts.ofText (text : String) : Shifts := ⟨(Shifts.ofNumbers 0 (decimals text)).toArray⟩

/-- The image of a code point, if one of the runs holds it. -/
def Shifts.get? (s : Shifts) (code : Nat) : Option Nat :=
  let i := lastAtMost (fun i => (s.runs[i]?.map Shift.first).getD 0) code s.runs.size 0 s.runs.size
  match s.runs[i]? with
  | some run =>
    if run.first ≤ code && (code - run.first) % run.step == 0 && (code - run.first) / run.step < run.count
    then some ((code : Int) + run.offset).toNat
    else none
  | none => none

/-- A partial map from code points to texts, as rows sorted by their first code point: the images of
consecutive code points, an empty one where there is none. -/
structure Rows where
  rows : Array (Nat × Array (List Nat))

/-- The code points of the words of a text. -/
def codeWords (text : String) : List (List Nat) :=
  let finish (s : List Nat × List (List Nat)) : List (List Nat) :=
    if s.1.isEmpty then s.2 else s.1.reverse :: s.2
  (finish (text.toList.foldl (fun s c =>
    if c.isWhitespace then ([], finish s) else (c.toNat :: s.1, s.2)) ([], []))).reverse

/-- The map written as rows of words, where `-` stands for a code point without an image. -/
def Rows.ofTexts (texts : List (Nat × String)) : Rows :=
  ⟨(texts.map fun (first, text) =>
    (first, ((codeWords text).map fun word => if word = ['-'.toNat] then [] else word).toArray)).toArray⟩

/-- The image of a code point, if it has one. -/
def Rows.get? (r : Rows) (code : Nat) : Option (List Nat) :=
  let i := lastAtMost (fun i => (r.rows[i]?.map Prod.fst).getD 0) code r.rows.size 0 r.rows.size
  match r.rows[i]? with
  | some (first, words) =>
    if code < first then none else words[code - first]?.filter fun word => !word.isEmpty
  | none => none

/-- The first code point with a given image. -/
def Rows.find? (r : Rows) (image : List Nat) : Option Nat :=
  r.rows.toList.findSome? fun (first, words) => (words.findIdx? (· == image)).map (first + ·)

end CodeAtlas.Text
