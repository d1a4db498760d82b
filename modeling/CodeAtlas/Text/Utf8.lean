import CodeAtlas.Text.Quoted

/-!
# Text as bytes

Texts are stored in the eight-bit encoding of the standard.  A byte sequence that encodes nothing is
either refused, with the place and the reason, or replaced: every longest start of a well-formed
sequence that is not completed, and every other byte that fits nowhere, gives one replacement
character.
-/

namespace CodeAtlas.Text

/-- Why a byte sequence encodes no character. -/
inductive ByteReason
  | badStart | badContinuation | unexpectedEnd
  deriving DecidableEq, Repr

/-- How a reason is worded. -/
def ByteReason.message : ByteReason → String
  | .badStart => "invalid start byte"
  | .badContinuation => "invalid continuation byte"
  | .unexpectedEnd => "unexpected end of data"

/-- Where decoding fails: the first of the bytes concerned, their number and the reason. -/
structure ByteFault where
  byte : UInt8
  position : Nat
  size : Nat
  reason : ByteReason
  deriving DecidableEq, Repr

/-- How a fault is reported. -/
def ByteFault.message (f : ByteFault) : String :=
  let place :=
    if f.size == 1 then
      s!"byte 0x{String.ofList (hexDigits f.byte.toNat 2)} in position {f.position}"
    else s!"bytes in position {f.position}-{f.position + f.size - 1}"
  s!"'utf-8' codec can't decode {place}: {f.reason.message}"

/-- What stands at the start of a byte sequence, with the number of bytes it takes. -/
inductive Piece
  | char (c : Char) (size : Nat)
  | bad (size : Nat) (reason : ByteReason)

/-- The number of bytes of a piece. -/
def Piece.size : Piece → Nat
  | .char _ n => n
  | .bad n _ => n

/-- A byte that continues a sequence. -/
def isContinuation (b : UInt8) : Bool := 0x80 ≤ b.toNat && b.toNat < 0xC0

/-- Whether the second byte fits the first one: no overlong form, no surrogate, nothing beyond the
last character. -/
def secondFits (first second : UInt8) : Bool :=
  isContinuation second &&
    match first.toNat with
    | 0xE0 => 0xA0 ≤ second.toNat
    | 0xED => second.toNat < 0xA0
    | 0xF0 => 0x90 ≤ second.toNat
    | 0xF4 => second.toNat < 0x90
    | _ => true

/-- The six bits that a continuation byte carries. -/
def tailBits (b : UInt8) : Nat := b.toNat % 64

/-- The piece that starts with a given byte. -/
def firstPiece (b : UInt8) (rest : List UInt8) : Piece :=
  let n := b.toNat
  if n < 0x80 then .char (Char.ofNat n) 1
  else if n < 0xC2 || 0xF5 ≤ n then .bad 1 .badStart
  else if n < 0xE0 then
    match rest with
    | [] => .bad 1 .unexpectedEnd
    | c :: _ =>
      if isContinuation c then .char (Char.ofNat (n % 32 * 64 + tailBits c)) 2 else .bad 1 .badContinuation
  else if n < 0xF0 then
    match rest with
    | [] => .bad 1 .unexpectedEnd
    | [c] => if secondFits b c then .bad 2 .unexpectedEnd else .bad 1 .badContinuation
    | c :: d :: _ =>
      if !secondFits b c then .bad 1 .badContinuation
      else if !isContinuation d then .bad 2 .badContinuation
      else .char (Char.ofNat ((n % 16 * 64 + tailBits c) * 64 + tailBits d)) 3
  else
    match rest with
    | [] => .bad 1 .unexpectedEnd
    | [c] => if secondFits b c then .bad 2 .unexpectedEnd else .bad 1 .badContinuation
    | [c, d] =>
      if !secondFits b c then .bad 1 .badContinuation
      else if isContinuation d then .bad 3 .unexpectedEnd else .bad 2 .badContinuation
    | c :: d :: e :: _ =>
      if !secondFits b c then .bad 1 .badContinuation
      else if !isContinuation d then .bad 2 .badContinuation
      else if !isContinuation e then .bad 3 .badContinuation
      else .char (Char.ofNat (((n % 8 * 64 + tailBits c) * 64 + tailBits d) * 64 + tailBits e)) 4

/-- The pieces of a byte sequence; bytes that belong to the piece before are skipped. -/
def pieces : (skip : Nat) → List UInt8 → List (UInt8 × Piece)
  | _, [] => []
  | skip + 1, _ :: rest => pieces skip rest
  | 0, b :: rest =>
    let p := firstPiece b rest
    (b, p) :: pieces (p.size - 1) rest

/-- Puts pieces together from a position on, up to the first one that encodes nothing. -/
def assemble (position : Nat) : List (UInt8 × Piece) → Except ByteFault (List Char)
  | [] => .ok []
  | (_, .char c n) :: rest => (assemble (position + n) rest).map (c :: ·)
  | (b, .bad n reason) :: _ => .error ⟨b, position, n, reason⟩

/-- The text of some bytes, or why there is none. -/
def decode (bytes : List UInt8) : Except ByteFault String :=
  (assemble 0 (pieces 0 bytes)).map String.ofList

/-- The text of some bytes, in which a replacement character stands for what encodes nothing. -/
def decodeLossy (bytes : List UInt8) : String :=
  String.ofList ((pieces 0 bytes).map fun
    | (_, .char c _) => c
    | (_, .bad _ _) => Char.ofNat 0xFFFD)

/-- The bytes of a text. -/
def encode (s : String) : List UInt8 := s.toUTF8.toList

end CodeAtlas.Text
