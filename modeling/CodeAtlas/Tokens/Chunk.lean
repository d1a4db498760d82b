import CodeAtlas.Error
import CodeAtlas.Text.Lines
import CodeAtlas.Tokens.Counter

/-!
# Cutting text into chunks

Text that counts too many tokens is cut at line ends into chunks that count few enough.  A line that is
too large by itself is cut into pieces of equal length.
-/

namespace CodeAtlas.Chunk

/-- The length of the pieces into which a line is cut: the tokens tell how many pieces are needed. -/
def pieceLength (length tokens : Nat) (limit : Int) : Except Error Int :=
  if limit == 0 then .error .divisionByZero
  else
    let needed := Int.fdiv (tokens + limit - 1) limit
    if needed == 0 then .error .divisionByZero else .ok (Int.fdiv length needed)

/-- Pieces of a given length, the last one being what remains. -/
def cutEvery (size : Nat) : Nat → List Char → List (List Char)
  | 0, _ => []
  | fuel + 1, cs => if cs.isEmpty then [] else cs.take size :: cutEvery size fuel (cs.drop size)

/-- The pieces of a line that is too large.  Pieces of a negative length are none. -/
def pieces (line : String) (tokens : Nat) (limit : Int) : Except Error (List String) := do
  let size ← pieceLength line.length tokens limit
  if size == 0 then .error .chunkOfNothing
  else if size < 0 then .ok []
  else .ok ((cutEvery size.toNat line.length line.toList).map String.ofList)

/-- The finished chunks, and the lines of the current one with their tokens. -/
structure Progress where
  chunks : List String := []
  current : List String := []
  tokens : Nat := 0

/-- The current lines as a chunk. -/
def Progress.close (s : Progress) : List String :=
  if s.current.isEmpty then s.chunks else s.chunks ++ ["".intercalate s.current]

/-- Adds a line. -/
def Progress.add (count : Counter) (limit : Int) (s : Progress) (line : String) : Except Error Progress := do
  let own := count line
  if limit < own then .ok ⟨s.close ++ (← pieces line own limit), [], 0⟩
  else if limit < (s.tokens + own : Nat) then
    .ok ⟨s.chunks ++ ["".intercalate s.current], [line], own⟩
  else .ok ⟨s.chunks, s.current ++ [line], s.tokens + own⟩

/-- The chunks of a text. -/
def split (count : Counter) (limit : Int) (text : String) : Except Error (List String) := do
  if count text ≤ limit then .ok [text]
  else return ((← (Text.linesKeep text).foldlM (Progress.add count limit) {}).close)

end CodeAtlas.Chunk
