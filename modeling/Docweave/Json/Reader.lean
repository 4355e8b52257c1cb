import Docweave.Json.Fault
import Docweave.Value

/-!
Reading JSON text.

The reader goes over the characters left.  A fault says which characters were left when it was
found, from which its line and column follow.  A key that comes twice keeps its first place and
its last value.  Containers nest at most 127 deep.

From one call of `value` to the next at least one character is read, and at most two other calls
stand between them, one of which reads a character too.  So twice the length of the text, with two
to spare, is fuel enough.
-/

namespace Docweave

namespace Json

/-- A result with the characters left, or the place where reading stopped. -/
abbrev Read (α : Type) : Type := Except Stop (α × List Char)

/-- Stops before the characters left. -/
def stopAt {α : Type} (cause : Cause) (rest : List Char) : Except Stop α :=
  .error ⟨cause, rest, 0⟩

/-- Stops after looking at the next byte. -/
def stopOn {α : Type} (cause : Cause) (rest : List Char) : Except Stop α :=
  .error ⟨cause, rest, 1⟩

/-- Blanks between tokens. -/
def isBlank (c : Char) : Bool :=
  c == ' ' || c == '\n' || c == '\t' || c == '\r'

/-- The characters from the first one that is not blank. -/
def skipBlank (cs : List Char) : List Char :=
  cs.dropWhile isBlank

/-! ### Words -/

/-- Reads the rest of a word whose first letter is read already. -/
def word {α : Type} (result : α) : List Char → List Char → Read α
  | [], cs => .ok (result, cs)
  | _ :: _, [] => stopAt .endInValue []
  | w :: ws, c :: cs => if c = w then word result ws cs else stopOn .expectedWord (c :: cs)

/-! ### Numbers

The digits before and after the point are gathered in one whole number below `2^64`.  Digits that
would take it beyond are dropped: before the point they still count for the exponent, after it
they do not.  The whole number is then rounded to binary64 and scaled by a power of ten in one
multiplication or division, or in several divisions when the power is out of range. -/

/-- Whether another digit takes the whole number beyond 64 bits. -/
def overflows (n digit : Nat) : Bool :=
  decide (0x10000000000000000 ≤ n * 10 + digit)

/-- The value of a decimal digit. -/
def digit? (c : Char) : Option Nat :=
  if '0' ≤ c ∧ c ≤ '9' then some (c.toNat - '0'.toNat) else none

/-- Whether the character is a decimal digit. -/
def isDigit (c : Char) : Bool :=
  (digit? c).isSome

/-- Divides by `10^308` several times; zero stays as it is. -/
def divideOften : Nat → Double → Option Double
  | 0, d => some d
  | n + 1, d => if d.isZero then some d else (d.div? (Double.powerOfTen 308)).bind (divideOften n)

/-- A number times a power of ten; `none` if that is out of range. -/
def scale (d : Double) (exponent : Int) : Option Double :=
  if 308 < exponent then
    if d.isZero then some d else none
  else if 0 ≤ exponent then d.mul? (Double.powerOfTen exponent.toNat)
  else
    let steps := ((-exponent - 1) / 308).toNat
    (divideOften steps d).bind fun d =>
      d.div? (Double.powerOfTen (-exponent - 308 * steps).toNat)

/-- The number made of sign, whole number and exponent. -/
def float (negative : Bool) (whole : Nat) (exponent : Int) (rest : List Char) : Read Number :=
  match scale (Double.ofInt whole) exponent with
  | some d => .ok (.float (if negative then d.neg else d), rest)
  | none => stopAt .numberOutOfRange rest

/-- Reads the digits of an exponent.  One that does not fit 32 bits makes the number zero or puts
it out of range. -/
def exponentDigits (negative : Bool) (whole : Nat) (start : Int) (down : Bool) :
    Nat → List Char → Read Number
  | e, [] => float negative whole (if down then start - e else start + e) []
  | e, c :: cs =>
    match digit? c with
    | none => float negative whole (if down then start - e else start + e) (c :: cs)
    | some d =>
      if 0x80000000 ≤ e * 10 + d then
        if whole ≠ 0 && !down then stopAt .numberOutOfRange cs
        else .ok (.float (Double.zero negative), cs.dropWhile isDigit)
      else exponentDigits negative whole start down (e * 10 + d) cs

/-- Reads an exponent after its letter. -/
def exponent (negative : Bool) (whole : Nat) (start : Int) (cs : List Char) : Read Number :=
  let (down, cs) := match cs with
    | '+' :: rest => (false, rest)
    | '-' :: rest => (true, rest)
    | _ => (false, cs)
  match cs with
  | [] => stopAt .endInValue []
  | c :: rest =>
    match digit? c with
    | none => stopOn .invalidNumber (c :: rest)
    | some d => exponentDigits negative whole start down d rest

/-- Reads what may follow the digits of a number that has a point. -/
def afterFraction (negative : Bool) (whole : Nat) (scale : Int) (cs : List Char) : Read Number :=
  match cs with
  | 'e' :: rest => exponent negative whole scale rest
  | 'E' :: rest => exponent negative whole scale rest
  | _ => float negative whole scale cs

/-- Reads the digits after the point. -/
def fractionDigits (negative : Bool) (shift : Int) :
    Nat → Nat → List Char → Read Number
  | whole, read, [] =>
    if read = 0 then stopOn .endInValue [] else float negative whole (shift - read) []
  | whole, read, c :: cs =>
    match digit? c with
    | none =>
      if read = 0 then stopOn .invalidNumber (c :: cs)
      else afterFraction negative whole (shift - read) (c :: cs)
    | some d =>
      if overflows whole d then
        afterFraction negative whole (shift - read) (cs.dropWhile isDigit)
      else fractionDigits negative shift (whole * 10 + d) (read + 1) cs

/-- Reads what may follow the digits before the point, when they did not all fit. -/
def afterLongWhole (negative : Bool) (whole : Nat) (cs : List Char) : Read Number :=
  let dropped := (cs.takeWhile isDigit).length
  match cs.dropWhile isDigit with
  | '.' :: rest => fractionDigits negative dropped whole 0 rest
  | 'e' :: rest => exponent negative whole dropped rest
  | 'E' :: rest => exponent negative whole dropped rest
  | rest => float negative whole dropped rest

/-- Reads what may follow the digits before the point.  Without a point or an exponent the number
is an integer, unless it is a negative zero or a negative number beyond 64 bits. -/
def afterWhole (negative : Bool) (whole : Nat) (cs : List Char) : Read Number :=
  match cs with
  | '.' :: rest => fractionDigits negative 0 whole 0 rest
  | 'e' :: rest => exponent negative whole 0 rest
  | 'E' :: rest => exponent negative whole 0 rest
  | _ =>
    if !negative then .ok (.integer whole, cs)
    else if whole = 0 || 0x8000000000000000 < whole then .ok (.float (Double.ofInt whole).neg, cs)
    else .ok (.integer (-whole), cs)

/-- Reads the digits before the point. -/
def wholeDigits (negative : Bool) : Nat → List Char → Read Number
  | whole, [] => afterWhole negative whole []
  | whole, c :: cs =>
    match digit? c with
    | none => afterWhole negative whole (c :: cs)
    | some d =>
      if overflows whole d then afterLongWhole negative whole (c :: cs)
      else wholeDigits negative (whole * 10 + d) cs

/-- Reads a number after its sign. -/
def number (negative : Bool) (cs : List Char) : Read Number :=
  match cs with
  | [] => stopAt .endInValue []
  | '0' :: rest =>
    match rest with
    | c :: _ => if isDigit c then stopOn .invalidNumber rest else afterWhole negative 0 rest
    | [] => afterWhole negative 0 rest
  | c :: rest =>
    match digit? c with
    | some d => wholeDigits negative d rest
    | none => stopOn .invalidNumber (c :: rest)

/-! ### Texts -/

/-- The value of a hexadecimal digit. -/
def hexDigit? (c : Char) : Option Nat :=
  if '0' ≤ c ∧ c ≤ '9' then some (c.toNat - '0'.toNat)
  else if 'a' ≤ c ∧ c ≤ 'f' then some (c.toNat - 'a'.toNat + 10)
  else if 'A' ≤ c ∧ c ≤ 'F' then some (c.toNat - 'A'.toNat + 10)
  else none

/-- Reads four hexadecimal digits. -/
def hexUnit (cs : List Char) : Read Nat :=
  if Text.byteLength (cs.take 4) < 4 then stopAt .endInText []
  else match (cs.take 4).mapM hexDigit? with
    | some [a, b, c, d] => .ok (((a * 16 + b) * 16 + c) * 16 + d, cs.drop 4)
    | _ => .error ⟨.invalidEscape, cs, 4⟩

/-- Reads the second half of a pair of surrogates, up to its four digits. -/
def pairMark (cs : List Char) : Read Unit :=
  match cs with
  | [] => stopAt .endInText []
  | '\\' :: [] => stopAt .endInText []
  | '\\' :: 'u' :: rest => .ok ((), rest)
  | '\\' :: rest => stopOn .unfinishedSurrogate rest
  | _ => stopOn .unfinishedSurrogate cs

/-- Reads a character given by its code, after `\u`. -/
def codeEscape (cs : List Char) : Except Stop (Char × List Char) := do
  let (n, rest) ← hexUnit cs
  if 0xDC00 ≤ n ∧ n ≤ 0xDFFF then stopAt .loneSurrogate rest
  else if n < 0xD800 ∨ 0xDBFF < n then .ok (Char.ofNat n, rest)
  else
    let ((), rest) ← pairMark rest
    let (m, rest) ← hexUnit rest
    if m < 0xDC00 ∨ 0xDFFF < m then stopAt .loneSurrogate rest
    else .ok (Char.ofNat ((n - 0xD800) * 0x400 + (m - 0xDC00) + 0x10000), rest)

/-- Reads an escape after its backslash. -/
def escaped (cs : List Char) : Read Char :=
  match cs with
  | [] => stopAt .endInText []
  | '"' :: rest => .ok ('"', rest)
  | '\\' :: rest => .ok ('\\', rest)
  | '/' :: rest => .ok ('/', rest)
  | 'b' :: rest => .ok ('\x08', rest)
  | 'f' :: rest => .ok ('\x0c', rest)
  | 'n' :: rest => .ok ('\n', rest)
  | 'r' :: rest => .ok ('\r', rest)
  | 't' :: rest => .ok ('\t', rest)
  | 'u' :: rest => codeEscape rest
  | c :: rest => .error ⟨.invalidEscape, c :: rest, 1⟩

/-- Reads a text after its opening quote; `read` holds its characters so far, backwards. -/
def quoted : Nat → List Char → List Char → Except Stop (String × List Char)
  | 0, _, cs => stopAt .endInText cs
  | fuel + 1, read, cs =>
    match cs with
    | [] => stopAt .endInText []
    | '"' :: rest => .ok (String.ofList read.reverse, rest)
    | '\\' :: rest => do
      let (c, rest) ← escaped rest
      quoted fuel (c :: read) rest
    | c :: rest =>
      if c.toNat < 32 then stopAt .controlCharacter rest else quoted fuel (c :: read) rest

/-! ### Values -/

/-- Reads the colon after a key. -/
def colon (cs : List Char) : Read Unit :=
  match skipBlank cs with
  | [] => stopOn .endInMap []
  | ':' :: rest => .ok ((), rest)
  | rest => stopOn .expectedColon rest

/-- Wraps what was read. -/
def wrap {α : Type} (f : α → Value) : α × List Char → Value × List Char
  | (a, rest) => (f a, rest)

mutual

/-- Reads a value; `room` is how deep containers may still nest, plus one. -/
def value : Nat → Nat → List Char → Read Value
  | 0, _, cs => stopOn .endInValue cs
  | fuel + 1, room, cs =>
    match skipBlank cs with
    | [] => stopOn .endInValue []
    | 'n' :: rest => word .null ['u', 'l', 'l'] rest
    | 't' :: rest => word (.bool true) ['r', 'u', 'e'] rest
    | 'f' :: rest => word (.bool false) ['a', 'l', 's', 'e'] rest
    | '-' :: rest => (number true rest).map (wrap .number)
    | '"' :: rest => (quoted rest.length.succ [] rest).map (wrap .text)
    | '[' :: rest =>
      if room ≤ 1 then stopOn .tooDeep ('[' :: rest)
      else (items fuel (room - 1) true [] rest).map (wrap .list)
    | '{' :: rest =>
      if room ≤ 1 then stopOn .tooDeep ('{' :: rest)
      else (fields fuel (room - 1) true [] rest).map (wrap .map)
    | c :: rest =>
      if isDigit c then (number false (c :: rest)).map (wrap .number)
      else stopOn .expectedValue (c :: rest)

/-- Reads the elements of a list after its bracket or after an element; `read` holds the elements
so far, backwards. -/
def items :
    Nat → Nat → Bool → List Value → List Char → Except Stop (List Value × List Char)
  | 0, _, _, _, cs => stopOn .endInList cs
  | fuel + 1, room, first, read, cs =>
    match skipBlank cs with
    | [] => stopOn .endInList []
    | ']' :: rest => .ok (read.reverse, rest)
    | c :: rest =>
      if first then do
        let (v, rest) ← value fuel room (c :: rest)
        items fuel room false (v :: read) rest
      else if c ≠ ',' then stopOn .expectedCommaOrListEnd (c :: rest)
      else match skipBlank rest with
        | [] => stopOn .endInValue []
        | ']' :: rest => stopOn .trailingComma (']' :: rest)
        | rest => do
          let (v, rest) ← value fuel room rest
          items fuel room false (v :: read) rest

/-- Reads the entries of a map after its bracket or after an entry. -/
def fields : Nat → Nat → Bool → Fields → List Char → Read Fields
  | 0, _, _, _, cs => stopOn .endInMap cs
  | fuel + 1, room, first, read, cs =>
    match skipBlank cs with
    | [] => stopOn .endInMap []
    | '}' :: rest => .ok (read, rest)
    | c :: rest =>
      if first then
        if c = '"' then entry fuel room read rest else stopOn .keyNotText (c :: rest)
      else if c ≠ ',' then stopOn .expectedCommaOrMapEnd (c :: rest)
      else match skipBlank rest with
        | [] => stopOn .endInValue []
        | '"' :: rest => entry fuel room read rest
        | '}' :: rest => stopOn .trailingComma ('}' :: rest)
        | rest => stopOn .keyNotText rest

/-- Reads an entry after the opening quote of its key, and the entries after it. -/
def entry : Nat → Nat → Fields → List Char → Except Stop (Fields × List Char)
  | 0, _, _, cs => stopOn .endInMap cs
  | fuel + 1, room, read, cs => do
    let (key, rest) ← quoted cs.length.succ [] cs
    let ((), rest) ← colon rest
    let (v, rest) ← value fuel room rest
    fields fuel room false (Entries.insert read key v) rest

end

/-- Reads a whole text. -/
def read (cs : List Char) : Except Fault Value :=
  match value (2 * cs.length + 2) 128 cs with
  | .error stop => .error (stop.locate cs)
  | .ok (v, rest) =>
    match skipBlank rest with
    | [] => .ok v
    | rest => .error (Stop.locate ⟨.trailingCharacters, rest, 1⟩ cs)

/-- Reads a whole text, or nothing. -/
def read? (s : String) : Option Value :=
  (read s.toList).toOption

end Json

end Docweave
