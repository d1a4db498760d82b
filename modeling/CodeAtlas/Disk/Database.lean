import CodeAtlas.Number.Binary
import CodeAtlas.Value.Basic

/-!
# The database of extracted tags

One row per file: the file's name, the time of its last change and what was extracted from it.  Times
are compared as exact numbers, and an unknown time or name is equal to nothing.
-/

namespace CodeAtlas

/-- A point in time: unknown, or an exact number `mantissa · 2 ^ exponent` with an odd mantissa or
zero. -/
inductive Stamp
  | unknown
  | known (mantissa exponent : Int)
  deriving DecidableEq, Repr

namespace Stamp

/-- Halves a number as long as it is even. -/
def reduce : Nat → Nat → Int → Nat × Int
  | 0, m, e => (m, e)
  | fuel + 1, m, e => if m != 0 && m % 2 == 0 then reduce fuel (m / 2) (e + 1) else (m, e)

/-- The stamp of a signed number `m · 2 ^ e`. -/
def ofParts (negative : Bool) (m : Nat) (e : Int) : Stamp :=
  if m == 0 then .known 0 0
  else
    let (m, e) := reduce (m.log2 + 1) m e
    .known (if negative then -(m : Int) else m) e

/-- The stamp of a number with a fraction.  What is no number is unknown; the infinities are kept
apart by an exponent that no other number has. -/
def ofFloat (x : Float) : Stamp :=
  match Number.Binary.ofFloat x with
  | .finite negative m e => ofParts negative m e
  | .infinite negative => .known (if negative then -1 else 1) 2000
  | .notANumber => .unknown

/-- The stamp of a whole number. -/
def ofInt (n : Int) : Stamp := ofParts (n < 0) n.natAbs 0

end Stamp

/-- What is stored in a row: a value, or bytes from which none can be made. -/
inductive Blob
  | value (v : Value)
  | damaged

/-- The value that is stored, if there is one.  A null stands for nothing. -/
def Blob.value? : Blob → Option Value
  | value .null => none
  | value v => some v
  | damaged => none

/-- What is stored for one file. -/
structure Row where
  path : Option String
  stamp : Stamp
  content : Blob

/-- The stored version, if there is one, and the rows, if there is a table for them. -/
structure Database where
  version : Option String := none
  rows : Option (List Row) := none

namespace Database

/-- The content that is stored for a path at a time. -/
def find? (rows : List Row) (path : Option String) (stamp : Stamp) : Option Blob :=
  if path.isNone || stamp == .unknown then none
  else (rows.find? fun r => r.path == path && r.stamp == stamp).map Row.content

/-- Stores a row in the place of an earlier one for the same path. -/
def store (rows : List Row) (row : Row) : List Row :=
  (if row.path.isNone then rows else rows.filter fun r => r.path != row.path) ++ [row]

end Database

end CodeAtlas
