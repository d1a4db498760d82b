import CodeAtlas.Text.Quoted

/-!
# Texts that may not be storable

A text in memory is a sequence of code points.  Some of these are no characters but halves of the pairs
by which the sixteen-bit encoding writes the characters beyond its range.  A text with a half that stands
alone has no bytes, and storing it is refused at the first run of such halves.
-/

namespace CodeAtlas.Text

/-- A code point: a character, or the half of a pair with a given number. -/
inductive Point
  | char (c : Char)
  | half (n : Fin 2048)
  deriving DecidableEq, Repr

/-- Whether a code point is half of a pair. -/
def Point.isHalf : Point → Bool
  | char _ => false
  | half _ => true

/-- The number of the first half among all code points. -/
def firstHalf : Nat := 0xD800

/-- A text that may hold halves of pairs. -/
structure Draft where
  points : List Point
  deriving DecidableEq, Repr

/-- Where a text cannot be stored: the first half of a run, its position and the length of the run. -/
structure HalfFault where
  half : Fin 2048
  position : Nat
  size : Nat
  deriving DecidableEq, Repr

/-- How a fault is reported. -/
def HalfFault.message (f : HalfFault) : String :=
  let place :=
    if f.size == 1 then
      s!"character '\\u{String.ofList (hexDigits (firstHalf + f.half) 4)}' in position {f.position}"
    else s!"characters in position {f.position}-{f.position + f.size - 1}"
  s!"'utf-8' codec can't encode {place}: surrogates not allowed"

namespace Draft

/-- A text of characters. -/
def ofString (s : String) : Draft := ⟨s.toList.map .char⟩

/-- The characters of code points from a position on, up to the first half. -/
def charsFrom (position : Nat) : List Point → Except HalfFault (List Char)
  | [] => .ok []
  | .char c :: rest => (charsFrom (position + 1) rest).map (c :: ·)
  | .half n :: rest => .error ⟨n, position, (rest.takeWhile Point.isHalf).length + 1⟩

/-- The characters, or why there is no text. -/
def text (d : Draft) : Except HalfFault String := (charsFrom 0 d.points).map String.ofList

end Draft

end CodeAtlas.Text
