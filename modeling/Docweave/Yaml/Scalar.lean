import Docweave.Number.Literal
import Docweave.Value
import Docweave.Yaml.Flaw

/-!
What a plain scalar stands for.

Null and the booleans have three spellings each.  Integers are decimal, hexadecimal, octal or
binary; a number of several digits that starts with zero is text.  Floating point numbers that
are infinite or not a number become null, and literals out of range stay text.
-/

namespace Docweave

namespace Yaml

/-- Whether the scalar is spelled as null. -/
def isNull (s : String) : Bool :=
  s == "" || s == "null" || s == "Null" || s == "NULL" || s == "~"

/-- The boolean the scalar spells. -/
def bool? (s : String) : Option Bool :=
  if s = "true" ∨ s = "True" ∨ s = "TRUE" then some true
  else if s = "false" ∨ s = "False" ∨ s = "FALSE" then some false
  else none

/-- Whether the scalar is digits that start with a zero, which make no number. -/
def isPaddedDigits (cs : List Char) : Bool :=
  let digits := (Literal.sign cs).2
  decide (1 < digits.length) && digits.head? == some '0' && digits.all Literal.isDigit

/-- Whether a sign stands at the front. -/
def startsSigned (cs : List Char) : Bool :=
  cs.head? == some '+' || cs.head? == some '-'

/-- The characters without a plus at the front. -/
def withoutPlus : List Char → List Char
  | '+' :: cs => cs
  | cs => cs

/-- A whole number behind the mark of a base. -/
def based? : List Char → Option Nat
  | '0' :: 'x' :: cs => Literal.natural? 16 cs
  | '0' :: 'o' :: cs => Literal.natural? 8 cs
  | '0' :: 'b' :: cs => Literal.natural? 2 cs
  | _ => none

/-- A decimal number without a sign. -/
def decimal? (cs : List Char) : Option Nat :=
  if startsSigned cs then none else Literal.natural? 10 cs

/-- The integer the scalar spells.  A negative zero is zero. -/
def integer? (cs : List Char) : Option Int :=
  let positive := withoutPlus cs
  let unsigned := (based? positive).or (if isPaddedDigits cs then none else decimal? positive)
  match unsigned, cs with
  | some n, _ => some n
  | none, '-' :: rest =>
    ((based? rest).or (if isPaddedDigits cs then none else decimal? rest)).map fun n => -(n : Int)
  | none, _ => none

/-- The floating point number the scalar spells; the inner `none` is infinity or not a number. -/
def float? (cs : List Char) : Option (Option Double) :=
  let s := String.ofList cs
  let positive := withoutPlus cs
  if startsSigned positive && positive.length < cs.length then none
  else
    let t := String.ofList positive
    if t = ".inf" ∨ t = ".Inf" ∨ t = ".INF" then some none
    else if s = "-.inf" ∨ s = "-.Inf" ∨ s = "-.INF" then some none
    else if s = ".nan" ∨ s = ".NaN" ∨ s = ".NAN" then some none
    else (Literal.double? positive).map some

/-- A floating point number as a value. -/
def ofFloat : Option Double → Value
  | some d => .number (.float d)
  | none => .null

/-- Whether an integer fits in 128 bits, with or without a sign. -/
def fitsWide (i : Int) : Bool :=
  decide (-0x80000000000000000000000000000000 ≤ i ∧ i < 0x100000000000000000000000000000000)

/-- An integer as a value.  One beyond 64 bits is refused; beyond 128 bits it is no integer. -/
def ofInteger? (i : Int) : Option (Except Flaw Value) :=
  if Number.InRange i then some (.ok (.int i))
  else if fitsWide i then some (.error .integerOutOfRange)
  else none

/-- The value of a plain scalar. -/
def resolve (s : String) : Except Flaw Value :=
  if isNull s then .ok .null
  else match bool? s with
    | some b => .ok (.bool b)
    | none =>
      let cs := s.toList
      match (integer? cs).bind ofInteger? with
      | some result => result
      | none =>
        if isPaddedDigits cs then .ok (.text s)
        else match float? cs with
          | some d => .ok (ofFloat d)
          | none => .ok (.text s)

/-- The tags that settle what a scalar is. -/
inductive Tag where
  | bool
  | int
  | float
  | null
  | other
  | foreign
deriving DecidableEq

/-- The value of a scalar with a tag; `plain` tells whether it is not quoted.  A tag that is not
one of the format's own makes a value that cannot be read. -/
def resolveTagged (tag : Option Tag) (plain : Bool) (s : String) : Except Flaw Value :=
  match tag with
  | none => if plain then resolve s else .ok (.text s)
  | some .bool =>
    match bool? s with
    | some b => .ok (.bool b)
    | none => .error .badCharacter
  | some .int =>
    match (integer? s.toList).bind ofInteger? with
    | some result => result
    | none => .error .badCharacter
  | some .float =>
    match float? s.toList with
    | some d => .ok (ofFloat d)
    | none => .error .badCharacter
  | some .null => if isNull s && s ≠ "" then .ok .null else .error .badCharacter
  | some .other => .ok (.text s)
  | some .foreign => .error .unsupported

end Yaml

end Docweave
