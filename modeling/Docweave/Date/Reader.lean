import Docweave.Date.Moment
import Docweave.Number.Literal
import Docweave.Text.Split
import Docweave.Text.Word

/-!
Reading dates and times.

A notation is a list of items that are read one after the other, and a text is read by the first
notation that takes all of it.  The first notation is exact about widths and blanks; the others
let blanks stand before numbers, accept numbers that are shorter than their width, and years of
any width if they carry a sign.  Without an offset a time is taken at offset zero, and a date
alone at midnight.  The sixtieth second is a leap second.
-/

namespace Docweave

namespace Date

/-- A part of a date or a time. -/
inductive Part where
  | year
  | month
  | day
  | hour
  | minute
  | second
deriving DecidableEq

/-- The number of digits of a part. -/
def Part.width : Part → Nat
  | .year => 4
  | _ => 2

/-- What has been read; what is not read keeps these values. -/
structure Parts where
  year : Int := 0
  month : Nat := 0
  day : Nat := 0
  hour : Nat := 0
  minute : Nat := 0
  second : Nat := 0
  nano : Nat := 0
  /-- The seconds that the clock that was read is ahead. -/
  offset : Int := 0

/-- Sets a part. -/
def Parts.set (parts : Parts) (value : Int) : Part → Parts
  | .year => { parts with year := value }
  | .month => { parts with month := value.toNat }
  | .day => { parts with day := value.toNat }
  | .hour => { parts with hour := value.toNat }
  | .minute => { parts with minute := value.toNat }
  | .second => { parts with second := value.toNat }

/-- An item of a notation. -/
inductive Item where
  /-- A part in exactly as many digits as it is wide. -/
  | exact (part : Part)
  /-- A part in at most as many digits, with blanks before it; a year may carry a sign. -/
  | loose (part : Part)
  /-- One of these characters. -/
  | mark (choices : List Char)
  /-- Any number of blanks, also none. -/
  | blanks
  /-- A point and digits, or nothing. -/
  | fraction
  /-- An offset with a colon, or `Z` for zero. -/
  | exactOffset
  /-- An offset with blanks before it, and colons or blanks inside it if any. -/
  | looseOffset

/-- Reads a number of at least one and at most `most` digits. -/
def number? (most : Nat) (cs : List Char) : Option (Nat × List Char) :=
  let digits := (cs.take most).takeWhile Literal.isDigit
  (Literal.natural? 10 digits).map fun n => (n, cs.drop digits.length)

/-- Reads a number of exactly as many digits. -/
def exactNumber? (width : Nat) (cs : List Char) : Option (Nat × List Char) :=
  let digits := cs.take width
  if digits.length = width then
    (Literal.natural? 10 digits).map fun n => (n, cs.drop width)
  else none

/-- Reads a part that may be shorter than its width. -/
def looseNumber? (part : Part) (cs : List Char) : Option (Int × List Char) :=
  let plain (most : Nat) (cs : List Char) :=
    (number? most cs).map fun (n, rest) => ((n : Int), rest)
  match part, cs.dropWhile Text.isBlank with
  | .year, '-' :: cs => (plain cs.length cs).map fun (n, rest) => (-n, rest)
  | .year, '+' :: cs => plain cs.length cs
  | part, cs => plain part.width cs

/-- Reads the sign of an offset. -/
def offsetSign? : List Char → Option (Int × List Char)
  | '+' :: cs => some (1, cs)
  | '-' :: cs => some (-1, cs)
  | '\u2212' :: cs => some (-1, cs)
  | _ => none

/-- Reads an offset, with what stands between hours and minutes as told.  It is less than a day. -/
def offset? (between : List Char → Option (List Char)) (cs : List Char) :
    Option (Int × List Char) := do
  let (sign, cs) ← offsetSign? cs
  let (hours, cs) ← exactNumber? 2 cs
  let cs ← between cs
  let (minutes, cs) ← exactNumber? 2 cs
  if hours < 24 ∧ minutes < 60 then
    some (sign * ((hours * 60 + minutes) * 60 : Nat), cs)
  else none

/-- Reads one item. -/
def Item.read? (item : Item) (parts : Parts) (cs : List Char) : Option (Parts × List Char) :=
  match item with
  | .exact part => (exactNumber? part.width cs).map fun (n, rest) => (parts.set n part, rest)
  | .loose part => (looseNumber? part cs).map fun (n, rest) => (parts.set n part, rest)
  | .mark choices =>
    match cs with
    | c :: rest => if choices.contains c then some (parts, rest) else none
    | [] => none
  | .blanks => some (parts, cs.dropWhile Text.isBlank)
  | .fraction =>
    match cs with
    | '.' :: rest =>
      let digits := rest.takeWhile Literal.isDigit
      let used := digits.take 9
      if used.isEmpty then none
      else
        (Literal.natural? 10 (used ++ List.replicate (9 - used.length) '0')).map fun nano =>
          ({ parts with nano }, rest.drop digits.length)
    | cs => some (parts, cs)
  | .exactOffset =>
    match cs with
    | 'Z' :: rest | 'z' :: rest => some ({ parts with offset := 0 }, rest)
    | cs =>
      (offset? (Text.afterMark? [':']) cs).map fun (n, rest) => ({ parts with offset := n }, rest)
  | .looseOffset =>
    let between (cs : List Char) := some (cs.dropWhile fun c => c == ':' || Text.isBlank c)
    (offset? between (cs.dropWhile Text.isBlank)).map fun (n, rest) =>
      ({ parts with offset := n }, rest)

/-- Reads items one after the other. -/
def readItems? : List Item → Parts → List Char → Option (Parts × List Char)
  | [], parts, cs => some (parts, cs)
  | item :: items, parts, cs =>
    (item.read? parts cs).bind fun (parts, rest) => readItems? items parts rest

/-- The moment that the parts tell, if there is such a day and such a time. -/
def Parts.moment? (parts : Parts) : Option Moment :=
  let date : CalendarDay := ⟨parts.year, parts.month, parts.day⟩
  if date.isValid && decide (parts.hour < 24 ∧ parts.minute < 60 ∧ parts.second ≤ 60) then
    let leap := parts.second / 60
    let clock : Moment :=
      ⟨date.toNumber, (parts.hour * 60 + parts.minute) * 60 + (parts.second - leap),
        parts.nano + leap * Moment.nanosPerSecond⟩
    clock.addSeconds? (-parts.offset)
  else none

/-- A date in exact widths. -/
def exactDate : List Item :=
  [.exact .year, .mark ['-'], .exact .month, .mark ['-'], .exact .day]

/-- A time in exact widths. -/
def exactTime : List Item :=
  [.exact .hour, .mark [':'], .exact .minute, .mark [':'], .exact .second, .fraction]

/-- A date. -/
def looseDate : List Item :=
  [.loose .year, .mark ['-'], .loose .month, .mark ['-'], .loose .day]

/-- A time without seconds. -/
def looseMinutes : List Item :=
  [.loose .hour, .mark [':'], .loose .minute]

/-- A time with seconds. -/
def looseSeconds : List Item :=
  looseMinutes ++ [.mark [':'], .loose .second, .fraction]

/-- The notations, the first one that fits counting. -/
def notations : List (List Item) :=
  [exactDate ++ [.mark ['t', 'T', ' ']] ++ exactTime ++ [.exactOffset],
    looseDate ++ [.mark ['T']] ++ looseSeconds ++ [.looseOffset],
    looseDate ++ [.blanks] ++ looseSeconds ++ [.looseOffset],
    looseDate ++ [.mark ['T']] ++ looseMinutes ++ [.looseOffset],
    looseDate ++ [.mark ['T']] ++ looseSeconds,
    looseDate ++ [.blanks] ++ looseSeconds,
    looseDate ++ [.mark ['T']] ++ looseMinutes,
    looseDate]

/-- Reads a text in one notation. -/
def readAs? (items : List Item) (cs : List Char) : Option Moment :=
  match readItems? items {} cs with
  | some (parts, []) => parts.moment?
  | _ => none

/-- Reads a date. -/
def read? (text : String) : Option Moment :=
  notations.findSome? fun items => readAs? items text.toList

end Date

end Docweave
