import CodeAtlas.Text.Quoted

/-!
# Texts of plain characters

A terminal may show plain characters only.  A text with other ones is refused at the first run of them.
-/

namespace CodeAtlas.Text

/-- Whether a character is one of the first 128. -/
def isPlain (c : Char) : Bool := c.toNat < 128

/-- Where a text is not plain: the first character of a run, its position and the length of the run. -/
structure PlainFault where
  char : Char
  position : Nat
  size : Nat
  deriving DecidableEq, Repr

/-- How a fault is reported. -/
def PlainFault.message (f : PlainFault) : String :=
  let place :=
    if f.size == 1 then s!"character '{String.ofList (escapeCode f.char.toNat)}' in position {f.position}"
    else s!"characters in position {f.position}-{f.position + f.size - 1}"
  s!"'ascii' codec can't encode {place}: ordinal not in range(128)"

/-- The first place, counted from a position on, where characters are not plain. -/
def plainFaultFrom? (position : Nat) : List Char → Option PlainFault
  | [] => none
  | c :: rest =>
    if isPlain c then plainFaultFrom? (position + 1) rest
    else some ⟨c, position, (rest.takeWhile (!isPlain ·)).length + 1⟩

/-- The first place where a text is not plain. -/
def plainFault? (s : String) : Option PlainFault := plainFaultFrom? 0 s.toList

end CodeAtlas.Text
