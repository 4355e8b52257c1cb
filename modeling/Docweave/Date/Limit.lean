import Docweave.Date.Reader
import Docweave.Fault

/-!
Limits for dates: a fixed date, or an offset from the moment of comparison.

An offset is a sign, an amount and a unit.  The amount is read as a binary64 number, multiplied in
binary64, and cut off to whole microseconds.
-/

namespace Docweave

/-- A limit for dates. -/
inductive DateLimit where
  | fixed (moment : Moment)
  /-- So many microseconds after the moment of comparison; the text is what was written. -/
  | relative (text : String) (micros : Int)

namespace DateLimit

/-- The microseconds of a unit. -/
def unitMicros? (unit : List Char) : Option Nat :=
  let day := 86400000000
  if unit = ['y'] then some (365 * day)
  else if unit = ['w'] then some (7 * day)
  else if unit = ['d'] then some day
  else if unit = ['h'] then some 3600000000
  else if unit = ['m'] then some 60000000
  else if unit = ['s'] then some 1000000
  else if unit = ['m', 's'] then some 1000
  else if unit = ['u', 's'] then some 1
  else none

/-- An offset as it is written: whether it points back, its amount and the size of its unit. -/
structure Offset where
  back : Bool
  amount : List Char
  micros : Nat

/-- Reads an offset. -/
def offset? (cs : List Char) : Option Offset :=
  let signed? := match cs with
    | '+' :: rest => some (false, rest)
    | '-' :: rest => some (true, rest)
    | _ => none
  signed?.bind fun (back, cs) =>
    let whole := cs.takeWhile Text.isDecimalDigit
    let afterWhole := cs.dropWhile Text.isDecimalDigit
    let point := afterWhole.takeWhile (· == '.')
    let afterPoint := afterWhole.dropWhile (· == '.')
    let fraction := if point.isEmpty then [] else afterPoint.takeWhile Text.isDecimalDigit
    let unit := afterPoint.drop fraction.length
    if whole.isEmpty || decide (1 < point.length) then none
    else (unitMicros? unit).map fun micros => ⟨back, whole ++ point ++ fraction, micros⟩

/-- The greatest offset in microseconds. -/
def mostMicros : Double := Double.powerOfTen 17

/-- The microseconds of an offset; `text` is what was written. -/
def Offset.limit (offset : Offset) (text : String) : Except CallFault DateLimit :=
  if !offset.amount.all fun c => Literal.isDigit c || c == '.' then .error (.badOffset text)
  else
    match (Literal.double? offset.amount).bind fun d => d.mul? (Double.ofInt offset.micros) with
    | none => .error (.offsetTooFar text)
    | some micros =>
      if micros.atMost mostMicros then
        .ok (.relative text (if offset.back then -micros.truncate else micros.truncate))
      else .error (.offsetTooFar text)

/-- Reads a limit. -/
def read (text : String) : Except CallFault DateLimit :=
  if text = "now" then .ok (.relative text 0)
  else
    match offset? text.toList with
    | some offset => offset.limit text
    | none =>
      match Date.read? text with
      | some moment => .ok (.fixed moment)
      | none => .error (.notADate text)

/-- The moment of a limit, seen from the moment of comparison; an offset may lead out of range. -/
def at? (now : Moment) : DateLimit → Option Moment
  | .fixed moment => some moment
  | .relative _ micros => now.addNanos? (micros * 1000)

/-- The wording of a limit. -/
def render : DateLimit → String
  | .fixed moment => moment.render
  | .relative text _ => text

end DateLimit

end Docweave
