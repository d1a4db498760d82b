import CodeAtlas.Error
import CodeAtlas.Number.Binary
import CodeAtlas.Number.Whole
import CodeAtlas.Value.Display

/-!
# Short token counts

Counts from a thousand on are written in thousands.  Counts may be whole numbers of any size or numbers
with a fraction.
-/

namespace CodeAtlas.Tokens

/-- A count: a whole number or a number with a fraction. -/
inductive Count
  | whole (n : Int)
  | real (x : Float)

/-- The number of a value, if it is one. -/
def Count.ofValue? : Value → Option Count
  | .int n => some (.whole n)
  | .bool b => some (.whole (if b then 1 else 0))
  | .float x => some (.real x)
  | _ => none

/-- Whether a count is below a number. -/
def Count.below (c : Count) (bound : Nat) : Bool :=
  match c with
  | .whole n => n < bound
  | .real x => x < bound.toFloat

/-- A count divided by a thousand. -/
def Count.thousands : Count → Except Error Float
  | .whole n =>
    let x := Float.ofScientific n.natAbs true 3
    if x.isInf then .error .quotientTooLarge else .ok (if n < 0 then -x else x)
  | .real x => .ok (x / 1000)

/-- The whole number next to a number with a fraction. -/
def nearest (x : Float) : Except Error Int :=
  match Number.round? x with
  | some n => .ok n
  | none => .error (if x.isNaN then .undefinedToWhole else .infiniteToWhole)

/-- Whole thousands in a count, as a text. -/
def Count.wholeThousands : Count → Except Error String
  | .whole n => Number.written (Int.fdiv n 1000)
  | .real x =>
    match Number.Binary.ofFloat x with
    | .finite _ m e =>
      let (num, den) := Number.fraction m e
      .ok (Number.display (Float.ofNat (num / (1000 * den))))
    | _ => .ok "nan"

/-- The text of a count below ten thousand, if it is. -/
def small? (value : Value) (c : Count) : Except Error (Option String) := do
  if c.below 1000 then return some value.display
  else if c.below 10000 then return some (Number.fixed (← c.thousands) 1 ++ "k")
  else return none

/-- A short count, with thousands rounded to the nearest. -/
def rounded (value : Value) (c : Count) : Except Error String := do
  match ← small? value c with
  | some text => return text
  | none => return toString (← nearest (← c.thousands)) ++ "k"

/-- A short count, with thousands rounded down. -/
def truncated (value : Value) (c : Count) : Except Error String := do
  match ← small? value c with
  | some text => return text
  | none => return (← c.wholeThousands) ++ "k"

/-- A short count of tokens. -/
def short (n : Nat) : Except Error String := truncated (.int n) (.whole n)

end CodeAtlas.Tokens
