import CodeAtlas.Error
import CodeAtlas.Text.Blank

/-!
# Whole numbers in text

A whole number may have a sign, single underscores between its digits, blanks around it and the digits of
any script.  Numbers with too many digits are neither read nor written.
-/

namespace CodeAtlas.Number

/-- The most digits that are converted. -/
def maxDigits : Nat := 4300

/-- The value of digits, with single underscores between them. -/
def digitsValue? : (value : Nat) → (started : Bool) → List Char → Option Nat
  | value, started, [] => if started then some value else none
  | value, started, '_' :: c :: rest =>
    if started then (Text.decimalValue c).bind fun d => digitsValue? (10 * value + d) true rest else none
  | value, _, c :: rest => (Text.decimalValue c).bind fun d => digitsValue? (10 * value + d) true rest

/-- The number of digits that a text begins with, if they are more than are converted. -/
def excess? (cs : List Char) : Option Nat :=
  let start := cs.takeWhile fun c => c == '_' || (Text.decimalValue c).isSome
  let count := (start.filter (· != '_')).length
  if maxDigits < count && (digitsValue? 0 false start).isSome then some count else none

/-- The whole number that a text stands for. -/
def whole (text : String) : Except Error Int :=
  let unsigned (cs : List Char) : Except Error Int :=
    match excess? cs, digitsValue? 0 false cs with
    | some count, _ => .error (.tooManyDigits (some count))
    | none, some n => .ok n
    | none, none => .error (.notAWhole text)
  match Text.stripChars text.toList with
  | '-' :: rest => (-·) <$> unsigned rest
  | '+' :: rest => unsigned rest
  | cs => unsigned cs

/-- The whole number that a text stands for, if it does. -/
def whole? (text : String) : Option Int := (whole text).toOption

/-- The least number with more digits than are converted. -/
def writableBound : Nat := Nat.pow 10 maxDigits

/-- Whether a whole number has no more digits than are converted. -/
def isWritable (n : Int) : Bool := n.natAbs < writableBound

/-- The text of a whole number. -/
def written (n : Int) : Except Error String :=
  if isWritable n then .ok (toString n) else .error (.tooManyDigits none)

end CodeAtlas.Number
