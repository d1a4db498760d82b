/-!
# Random colours
-/

namespace CodeAtlas.Colour

/-- The least and the greatest value of a channel. -/
def channelRange : Int × Int := (100, 240)

/-- The number of channels. -/
def channels : Nat := 3

/-- A number in hexadecimal digits, with at least two characters. -/
def hexPair (n : Int) : String :=
  let digits := String.ofList (Nat.toDigits 16 n.natAbs)
  if n < 0 then "-" ++ digits else "".pushn '0' (2 - digits.length) ++ digits

/-- A colour as it is written. -/
def text (values : List Int) : String := "#" ++ "".intercalate (values.map hexPair)

end CodeAtlas.Colour
