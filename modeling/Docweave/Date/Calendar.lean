/-!
The calendar: days counted from 1970-01-01, and their years, months and days.

Years follow the rule of leap years backwards and forwards without end, and there is a year zero.
Counting starts with March, so that the day that comes and goes is the last of a year.
-/

namespace Docweave

/-- A day by its year, month and day of the month, the last two counted from one. -/
structure CalendarDay where
  year : Int
  month : Nat
  day : Nat
deriving DecidableEq

namespace Calendar

/-- Whether a year has a day more. -/
def isLeapYear (year : Int) : Bool :=
  year % 4 == 0 && (year % 100 != 0 || year % 400 == 0)

/-- The number of days of a month. -/
def daysInMonth (year : Int) (month : Nat) : Nat :=
  if month = 2 then if isLeapYear year then 29 else 28
  else if month = 4 ∨ month = 6 ∨ month = 9 ∨ month = 11 then 30
  else 31

/-- The first year that dates are accepted in. -/
def firstYear : Int := -262143

/-- The last year that dates are accepted in. -/
def lastYear : Int := 262142

/-- Whether a year is accepted. -/
def acceptsYear (year : Int) : Bool :=
  decide (firstYear ≤ year ∧ year ≤ lastYear)

end Calendar

namespace CalendarDay

/-- Whether there is such a day, in a year that is accepted. -/
def isValid (d : CalendarDay) : Bool :=
  Calendar.acceptsYear d.year && decide (1 ≤ d.month ∧ d.month ≤ 12)
    && decide (1 ≤ d.day ∧ d.day ≤ Calendar.daysInMonth d.year d.month)

/-- The number of days from 1970-01-01 on. -/
def toNumber (d : CalendarDay) : Int :=
  let year := if d.month ≤ 2 then d.year - 1 else d.year
  let era := year / 400
  let yearOfEra := year - era * 400
  let month : Int := if d.month ≤ 2 then d.month + 9 else d.month - 3
  let dayOfYear := (153 * month + 2) / 5 + d.day - 1
  let dayOfEra := yearOfEra * 365 + yearOfEra / 4 - yearOfEra / 100 + dayOfYear
  era * 146097 + dayOfEra - 719468

/-- The day that is a number of days from 1970-01-01 on. -/
def ofNumber (number : Int) : CalendarDay :=
  let shifted := number + 719468
  let era := shifted / 146097
  let dayOfEra := shifted - era * 146097
  let yearOfEra :=
    (dayOfEra - dayOfEra / 1460 + dayOfEra / 36524 - dayOfEra / 146096) / 365
  let dayOfYear := dayOfEra - (365 * yearOfEra + yearOfEra / 4 - yearOfEra / 100)
  let month := (5 * dayOfYear + 2) / 153
  let day := dayOfYear - (153 * month + 2) / 5 + 1
  let year := yearOfEra + era * 400
  if month < 10 then ⟨year, (month + 3).toNat, day.toNat⟩
  else ⟨year + 1, (month - 9).toNat, day.toNat⟩

end CalendarDay

end Docweave
