/-!
# Dates

A date is a number of milliseconds since the first instant of 1970, in the Gregorian calendar
extended to all years. This module counts days to a calendar date and back, and writes a date as
text.

Days are counted in eras of 400 years that begin on the first of March, so that a leap day is the
last day of its year.
-/

namespace Steppable.Calendar

def millisPerDay : Int := 86400000

def isLeapYear (year : Int) : Bool :=
  (year % 4 == 0 && year % 100 != 0) || year % 400 == 0

def daysInMonth (year month : Int) : Int :=
  if month == 2 then (if isLeapYear year then 29 else 28)
  else if month == 4 || month == 6 || month == 9 || month == 11 then 30
  else 31

/-! ## Days and calendar dates -/

/-- The days from 1970-01-01 to the given date. -/
def dayNumber (year month day : Int) : Int :=
  let y := if month ≤ 2 then year - 1 else year
  let era := y / 400
  let yearOfEra := y - era * 400
  let dayOfYear := (153 * ((month + 9) % 12) + 2) / 5 + day - 1
  let dayOfEra := yearOfEra * 365 + yearOfEra / 4 - yearOfEra / 100 + dayOfYear
  era * 146097 + dayOfEra - 719468

/-- Year, month and day of the date that lies `n` days after 1970-01-01. -/
def dateOfDay (n : Int) : Int × Int × Int :=
  let z := n + 719468
  let era := z / 146097
  let dayOfEra := z - era * 146097
  let yearOfEra := (dayOfEra - dayOfEra / 1460 + dayOfEra / 36524 - dayOfEra / 146096) / 365
  let dayOfYear := dayOfEra - (365 * yearOfEra + yearOfEra / 4 - yearOfEra / 100)
  let shifted := (5 * dayOfYear + 2) / 153
  let day := dayOfYear - (153 * shifted + 2) / 5 + 1
  let month := if shifted < 10 then shifted + 3 else shifted - 9
  let year := yearOfEra + era * 400
  (if month ≤ 2 then year + 1 else year, month, day)

/-! ## Moments -/

/-- A calendar date with a time of day. Months and days count from one. -/
structure Moment where
  year : Int
  month : Int := 1
  day : Int := 1
  hour : Int := 0
  minute : Int := 0
  second : Int := 0
  millis : Int := 0
  deriving Repr, DecidableEq

namespace Moment

/-- The moments with a year from 1 to 9999 that name an existing instant. -/
def isValid (p : Moment) : Bool :=
  1 ≤ p.year && p.year ≤ 9999 && 1 ≤ p.month && p.month ≤ 12 &&
    1 ≤ p.day && p.day ≤ daysInMonth p.year p.month &&
    0 ≤ p.hour && p.hour < 24 && 0 ≤ p.minute && p.minute < 60 &&
    0 ≤ p.second && p.second < 60 && 0 ≤ p.millis && p.millis < 1000

/-- The milliseconds since the start of the day. -/
def timeOfDay (p : Moment) : Int :=
  ((p.hour * 60 + p.minute) * 60 + p.second) * 1000 + p.millis

/-- The milliseconds from the start of 1970 to `p`. -/
def toMillis (p : Moment) : Int :=
  dayNumber p.year p.month p.day * millisPerDay + p.timeOfDay

/-- The milliseconds from the start of 1970 to `p`, if `p` is a valid moment. -/
def toMillis? (p : Moment) : Option Int :=
  if p.isValid then some p.toMillis else none

/-- The moment that lies `ms` milliseconds after the start of 1970. -/
def ofMillis (ms : Int) : Moment :=
  let rest := ms % millisPerDay
  let (year, month, day) := dateOfDay (ms / millisPerDay)
  { year, month, day
    hour := rest / 3600000
    minute := rest / 60000 % 60
    second := rest / 1000 % 60
    millis := rest % 1000 }

/-- The parts of a moment, the largest unit first. -/
def parts (p : Moment) : List Int :=
  [p.year, p.month, p.day, p.hour, p.minute, p.second, p.millis]

/-- The moment with the given parts; missing ones are zero and more than seven are not looked at. -/
def ofParts (parts : List Int) : Moment :=
  let part (i : Nat) := parts.getD i 0
  { year := part 0, month := part 1, day := part 2, hour := part 3
    minute := part 4, second := part 5, millis := part 6 }

end Moment

/-- The day of the week of a date, Sunday being zero. -/
def weekday (ms : Int) : Nat :=
  ((ms / millisPerDay + 4) % 7).toNat

/-! ## Text -/

def dayNames : List String := ["Sun", "Mon", "Tue", "Wed", "Thu", "Fri", "Sat"]

def monthNames : List String :=
  ["Jan", "Feb", "Mar", "Apr", "May", "Jun", "Jul", "Aug", "Sep", "Oct", "Nov", "Dec"]

/-- Writes `n` in at least `width` characters: zeros fill the space after the sign. -/
def padded (width : Nat) (n : Int) : String :=
  let ds := Nat.toDigits 10 n.natAbs
  if n < 0 then String.ofList ('-' :: (List.replicate (width - 1 - ds.length) '0' ++ ds))
  else String.ofList (List.replicate (width - ds.length) '0' ++ ds)

/-- A date in words, to the second. -/
def text (ms : Int) : String :=
  let p := Moment.ofMillis ms
  dayNames.getD (weekday ms) "" ++ ", " ++ padded 2 p.day ++ " " ++
    monthNames.getD (p.month - 1).toNat "" ++ " " ++ padded 4 p.year ++ " " ++
    padded 2 p.hour ++ ":" ++ padded 2 p.minute ++ ":" ++ padded 2 p.second ++ " GMT"

end Steppable.Calendar
