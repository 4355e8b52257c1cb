import Docweave.Date.Calendar

/-!
Moments, to the nanosecond.

A moment is a day, a second of the day and a part of the second.  A leap second has no number of
its own: it is the second half of a second of two thousand million nanoseconds.  Moments are
ordered by day, then second, then nanosecond.
-/

namespace Docweave

/-- A moment. -/
structure Moment where
  /-- The days from 1970-01-01 on. -/
  day : Int
  second : Nat
  nano : Nat
deriving DecidableEq

namespace Moment

/-- The nanoseconds of a second. -/
def nanosPerSecond : Nat := 1000000000

/-- The seconds of a day. -/
def secondsPerDay : Nat := 86400

/-- The strict order of moments. -/
def less (a b : Moment) : Bool :=
  decide (a.day < b.day
    ∨ a.day = b.day ∧ (a.second < b.second ∨ a.second = b.second ∧ a.nano < b.nano))

/-- The order of moments. -/
def atMost (a b : Moment) : Bool :=
  !b.less a

/-- Whether the moment lies in an accepted year. -/
def isValid (m : Moment) : Bool :=
  Calendar.acceptsYear (CalendarDay.ofNumber m.day).year

/-- The moment a number of seconds later, unless out of range; the part of the second stays. -/
def addSeconds? (m : Moment) (seconds : Int) : Option Moment :=
  let total := m.second + seconds
  let later : Moment :=
    ⟨m.day + total / secondsPerDay, (total % secondsPerDay).toNat, m.nano⟩
  if later.isValid then some later else none

/-- The moment a number of nanoseconds later, unless it is out of range. -/
def addNanos? (m : Moment) (nanos : Int) : Option Moment :=
  let total := m.nano + nanos
  ({ m with nano := (total % nanosPerSecond).toNat } : Moment).addSeconds? (total / nanosPerSecond)

/-- The nanoseconds from the second moment to the first.  A leap second between the two counts if
the times of day show it. -/
def since (a b : Moment) : Int :=
  let leap : Int :=
    if b.second < a.second ∧ nanosPerSecond ≤ b.nano then 1
    else if a.second < b.second ∧ nanosPerSecond ≤ a.nano then -1
    else 0
  ((a.day - b.day) * secondsPerDay + (a.second - b.second) + leap) * nanosPerSecond
    + (a.nano - b.nano)

end Moment

/-! ### Wording -/

/-- A number with zeros in front up to a width. -/
def padded (width n : Nat) : String :=
  let digits := toString n
  String.ofList (List.replicate (width - digits.length) '0') ++ digits

namespace Moment

/-- The text of a year: four digits, or a sign and four digits or more. -/
def renderYear (year : Int) : String :=
  if 0 ≤ year ∧ year ≤ 9999 then padded 4 year.toNat
  else (if year < 0 then "-" else "+") ++ padded 4 year.natAbs

/-- The text of a part of a second: nothing, or three, six or nine digits. -/
def renderFraction (nano : Nat) : String :=
  if nano = 0 then ""
  else if nano % 1000000 = 0 then "." ++ padded 3 (nano / 1000000)
  else if nano % 1000 = 0 then "." ++ padded 6 (nano / 1000)
  else "." ++ padded 9 nano

/-- The text of a moment, as a date and a time at offset zero. -/
def render (m : Moment) : String :=
  let date := CalendarDay.ofNumber m.day
  let leap := m.nano / nanosPerSecond
  renderYear date.year ++ "-" ++ padded 2 date.month ++ "-" ++ padded 2 date.day
    ++ "T" ++ padded 2 (m.second / 3600) ++ ":" ++ padded 2 (m.second / 60 % 60)
    ++ ":" ++ padded 2 (m.second % 60 + leap)
    ++ renderFraction (m.nano % nanosPerSecond) ++ "+00:00"

end Moment

/-- The digits of a part of a second, without zeros at the end. -/
def fractionDigits (nano : Nat) : String :=
  let digits := (padded 9 nano).toList
  String.ofList (digits.reverse.dropWhile (· == '0')).reverse

/-- The text of a span of nanoseconds: its seconds, with as many digits after the point as it
takes. -/
def renderSpan (nanos : Int) : String :=
  let seconds := nanos.natAbs / Moment.nanosPerSecond
  let rest := nanos.natAbs % Moment.nanosPerSecond
  if nanos = 0 then "P0D"
  else
    (if nanos < 0 then "-PT" else "PT") ++ toString seconds
      ++ (if rest = 0 then "" else "." ++ fractionDigits rest) ++ "S"

end Docweave
