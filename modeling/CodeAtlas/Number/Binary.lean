/-!
# Binary floating point as exact numbers

A finite double is a natural number times a power of two.  Everything that is printed of doubles is
computed on that form with natural numbers.
-/

namespace CodeAtlas.Number

/-- A double taken apart.  A finite one is `mantissa * 2 ^ exponent`, with a sign. -/
inductive Binary
  | finite (negative : Bool) (mantissa : Nat) (exponent : Int)
  | infinite (negative : Bool)
  | notANumber

/-- The parts of a double. -/
def Binary.ofFloat (x : Float) : Binary :=
  let bits := x.toBits.toNat
  let negative := Nat.pow 2 63 ≤ bits
  let biased : Nat := bits / Nat.pow 2 52 % Nat.pow 2 11
  let fraction : Nat := bits % Nat.pow 2 52
  if biased = 2047 then if fraction = 0 then .infinite negative else .notANumber
  else if biased = 0 then .finite negative fraction (-1074)
  else .finite negative (Nat.pow 2 52 + fraction) ((biased : Int) - 1075)

/-- The quotient rounded to the nearest natural number, a half going to the even neighbour. -/
def roundDiv (num den : Nat) : Nat :=
  let q := num / den
  let twice := 2 * (num % den)
  if twice < den then q
  else if den < twice then q + 1
  else if q % 2 = 0 then q else q + 1

/-- `m * 2 ^ e` as a fraction of natural numbers. -/
def fraction (m : Nat) (e : Int) : Nat × Nat :=
  if 0 ≤ e then (m * Nat.pow 2 e.toNat, 1) else (m, Nat.pow 2 (-e).toNat)

/-- The decimal exponent `k` with `10 ^ (k - 1) ≤ num / den < 10 ^ k`, searched upward from a start
that is not above it. -/
def decimalExponent (num den : Nat) : Nat → Int → Int
  | 0, k => k
  | fuel + 1, k =>
    let below := if 0 ≤ k then num < den * Nat.pow 10 k.toNat else num * Nat.pow 10 (-k).toNat < den
    if below then k else decimalExponent num den fuel (k + 1)

/-- A decimal number `0.d₁d₂… * 10 ^ point`, digits without a leading zero. -/
structure Digits where
  digits : Nat
  count : Nat
  point : Int

/-- Whether `digits * 10 ^ shift` lies within the fractions `lo / den` and `hi / den`, ends included
if `closed`. -/
def withinBounds (lo hi den : Nat) (closed : Bool) (digits : Nat) (shift : Int) : Bool :=
  let (a, b) := if 0 ≤ shift then (digits * Nat.pow 10 shift.toNat * den, 1)
    else (digits * den, Nat.pow 10 (-shift).toNat)
  -- compare a / b with lo and hi
  if closed then lo * b ≤ a && a ≤ hi * b else lo * b < a && a < hi * b

/-- Looks for the shortest decimal within bounds, with `count` digits first and more after. -/
def shortestFrom (num den lo hi : Nat) (closed : Bool) (point : Int) : Nat → Nat → Digits
  | 0, count => ⟨0, count, point⟩
  | fuel + 1, count =>
    let shift := point - count
    let (n, d) := if 0 ≤ shift then (num, den * Nat.pow 10 shift.toNat) else (num * Nat.pow 10 (-shift).toNat, den)
    let down := n / d
    let up := down + 1
    let downFits := withinBounds lo hi den closed down shift
    let upFits := withinBounds lo hi den closed up shift
    let takeUp := if downFits && upFits then roundDiv n d == up else upFits
    if !downFits && !upFits then shortestFrom num den lo hi closed point fuel (count + 1)
    else
      let digits := if takeUp then up else down
      if digits == Nat.pow 10 count then ⟨Nat.pow 10 (count - 1), count, point + 1⟩ else ⟨digits, count, point⟩

/-- The fewest decimal digits that read back as `m * 2 ^ e`, for a positive mantissa. -/
def shortest (m : Nat) (e : Int) : Digits :=
  -- the neighbours of the double lie half a unit away, below a power of two a quarter
  let edge := m == Nat.pow 2 52 && -1074 < e
  let (num, den) := fraction (4 * m) (e - 2)
  let (unit, _) := fraction 1 (e - 2)
  let lo := num - (if edge then unit else 2 * unit)
  let hi := num + 2 * unit
  let point := decimalExponent num den 700 (-330)
  shortestFrom num den lo hi (m % 2 == 0) point 18 1

/-- The digits of a natural number, padded with zeros in front. -/
def padded (n width : Nat) : String :=
  let s := toString n
  "".pushn '0' (width - s.length) ++ s

/-- A fraction with a fixed number of decimal places. -/
def fixedFraction (num den places : Nat) : String :=
  let scaled := roundDiv (num * Nat.pow 10 places) den
  if places = 0 then toString scaled
  else
    let unit := Nat.pow 10 places
    s!"{scaled / unit}.{padded (scaled % unit) places}"

/-- A double with a fixed number of decimal places. -/
def fixed (x : Float) (places : Nat) : String :=
  match Binary.ofFloat x with
  | .finite negative m e =>
    let (num, den) := fraction m e
    (if negative then "-" else "") ++ fixedFraction num den places
  | .infinite negative => if negative then "-inf" else "inf"
  | .notANumber => "nan"

/-- A natural number rounded to as many binary digits as a double has, a half going to the even
neighbour. -/
def significant (n : Nat) : Nat :=
  let unit := Nat.pow 2 (n.log2 - 52)
  roundDiv n unit * unit

/-- The double nearest to a natural number, unless that exceeds all doubles. -/
def wholeDouble? (n : Nat) : Option Nat :=
  if significant n < Nat.pow 2 1024 then some (significant n) else none

/-- Whether a quotient exceeds all doubles once it is rounded: it lies in the middle between the greatest double
and the next power of two, or above. -/
def exceedsDoubles (num den : Nat) : Bool := (Nat.pow 2 1024 - Nat.pow 2 970) * den ≤ num

/-- The double nearest to nine tenths, times `2 ^ 53`. -/
def nineTenths : Nat := 8106479329266893

/-- The nearest integer, a half going to the even neighbour. -/
def round? (x : Float) : Option Int :=
  match Binary.ofFloat x with
  | .finite negative m e =>
    let (num, den) := fraction m e
    let n : Int := roundDiv num den
    some (if negative then -n else n)
  | _ => none

/-- How a double is written: positionally from `10 ^ -4` up to, not including, `10 ^ 16`, else with
an exponent of at least two digits; a point or an exponent is always there. -/
def display (x : Float) : String :=
  match Binary.ofFloat x with
  | .notANumber => "nan"
  | .infinite negative => if negative then "-inf" else "inf"
  | .finite negative 0 _ => if negative then "-0.0" else "0.0"
  | .finite negative m e =>
    let d := shortest m e
    let text := (toString d.digits).toList
    let body :=
      if -4 < d.point && d.point ≤ 16 then
        if d.point ≤ 0 then "0." ++ "".pushn '0' (-d.point).toNat ++ String.ofList text
        else if text.length ≤ d.point.toNat then
          String.ofList text ++ "".pushn '0' (d.point.toNat - text.length) ++ ".0"
        else String.ofList (text.take d.point.toNat) ++ "." ++ String.ofList (text.drop d.point.toNat)
      else
        let exponent := d.point - 1
        let lead := String.ofList (text.take 1)
        let tail := String.ofList (text.drop 1)
        let point := if tail.isEmpty then "" else "."
        let sign := if exponent < 0 then "-" else "+"
        s!"{lead}{point}{tail}e{sign}{padded exponent.natAbs 2}"
    (if negative then "-" else "") ++ body

end CodeAtlas.Number
