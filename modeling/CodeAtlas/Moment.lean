import CodeAtlas.Number.Binary

/-!
# Dates and times in file names
-/

namespace CodeAtlas

/-- A date in the Gregorian calendar with a time of day. -/
structure Moment where
  year : Nat
  month : Nat
  day : Nat
  /-- The seconds since midnight. -/
  second : Nat
  deriving DecidableEq, Repr

namespace Moment

/-- The days from the first of March of the year zero to the start of 1970. -/
def daysBefore1970 : Nat := 719468

/-- The days of four hundred years, after which the calendar repeats. -/
def daysOfCycle : Nat := 146097

/-- The moment some seconds after the start of 1970.  Years are counted from March on, so that a leap day
is the last day of its year; the lengths of the months are then those of a straight line of slope 153/5. -/
def ofSeconds (seconds : Nat) : Moment :=
  let days := seconds / 86400 + daysBefore1970
  let inCycle := days % daysOfCycle
  let year := (inCycle - inCycle / 1460 + inCycle / 36524 - inCycle / 146096) / 365
  let inYear := inCycle - (365 * year + year / 4 - year / 100)
  let month := (5 * inYear + 2) / 153
  let turned := 10 ≤ month
  { year := year + 400 * (days / daysOfCycle) + if turned then 1 else 0
    month := if turned then month - 9 else month + 3
    day := inYear - (153 * month + 2) / 5 + 1
    second := seconds % 86400 }

/-- A moment as it is written in file names: the date and the time of day, in digits only. -/
def stamp (m : Moment) : String :=
  let date := Number.padded m.year 4 ++ Number.padded m.month 2 ++ Number.padded m.day 2
  let time := Number.padded (m.second / 3600) 2 ++ Number.padded (m.second / 60 % 60) 2 ++
    Number.padded (m.second % 60) 2
  date ++ "_" ++ time

end Moment

end CodeAtlas
