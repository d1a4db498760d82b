import CodeAtlas.Text.Printable

/-!
# Quoted texts

The written form of a text inside of a list or a record: between single quotes, or between double
quotes if it holds a single quote and no double one.  The quote in use, backslashes and characters
that do not print are escaped.
-/

namespace CodeAtlas.Text

/-- A digit of a hexadecimal number. -/
def hexDigit (n : Nat) : Char := if n < 10 then Char.ofNat (48 + n) else Char.ofNat (87 + n)

/-- The last `width` hexadecimal digits of a number. -/
def hexDigits (n : Nat) : Nat → List Char
  | 0 => []
  | width + 1 => hexDigit (n / Nat.pow 16 width % 16) :: hexDigits n width

/-- The escape of a character by its code point, in the shortest of three forms. -/
def escapeCode (n : Nat) : List Char :=
  if n < 256 then ['\\', 'x'] ++ hexDigits n 2
  else if n < 65536 then ['\\', 'u'] ++ hexDigits n 4
  else ['\\', 'U'] ++ hexDigits n 8

/-- One character of a quoted text. -/
def quotedChar (quote c : Char) : List Char :=
  if c == quote || c == '\\' then ['\\', c]
  else if c == '\n' then ['\\', 'n']
  else if c == '\r' then ['\\', 'r']
  else if c == '\t' then ['\\', 't']
  else if isPrintable c then [c]
  else escapeCode c.toNat

/-- The quote that suits a text. -/
def quoteFor (cs : List Char) : Char :=
  if cs.contains '\'' && !cs.contains '"' then '"' else '\''

/-- A text between quotes. -/
def quoted (s : String) : String :=
  let cs := s.toList
  let q := quoteFor cs
  String.ofList ([q] ++ cs.flatMap (quotedChar q) ++ [q])

/-- Bytes between quotes, those beyond ASCII as escapes. -/
def quotedBytes (bytes : List UInt8) : String :=
  let cs := bytes.map fun b => Char.ofNat b.toNat
  let q := quoteFor cs
  let one := fun (c : Char) => if 127 ≤ c.toNat then escapeCode c.toNat else quotedChar q c
  String.ofList (['b', q] ++ cs.flatMap one ++ [q])

end CodeAtlas.Text
