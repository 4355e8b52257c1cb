import Docweave.Number.Double

/-!
Numbers as people write them: decimal literals with an optional point and exponent, and whole
numbers in several bases.
-/

namespace Docweave

namespace Literal

/-- The value of a digit in bases up to sixteen. -/
def digit? (base : Nat) (c : Char) : Option Nat :=
  let value? :=
    if '0' ≤ c ∧ c ≤ '9' then some (c.toNat - '0'.toNat)
    else if 'a' ≤ c ∧ c ≤ 'f' then some (c.toNat - 'a'.toNat + 10)
    else if 'A' ≤ c ∧ c ≤ 'F' then some (c.toNat - 'A'.toNat + 10)
    else none
  value?.filter fun value => decide (value < base)

/-- Whether the character is a decimal digit. -/
def isDigit (c : Char) : Bool :=
  (digit? 10 c).isSome

/-- A number written in digits of a base, with at least one digit. -/
def natural? (base : Nat) (cs : List Char) : Option Nat :=
  if cs.isEmpty then none
  else cs.foldlM (fun n c => (digit? base c).map fun d => n * base + d) 0

/-- A sign in front of a literal, and the rest. -/
def sign : List Char → Bool × List Char
  | '-' :: cs => (true, cs)
  | '+' :: cs => (false, cs)
  | cs => (false, cs)

/-- The exponent at the end of a literal; without one it is zero. -/
def exponent? : List Char → Option Int
  | [] => some 0
  | c :: cs =>
    if c = 'e' ∨ c = 'E' then
      let (negative, digits) := sign cs
      (natural? 10 digits).map fun n => if negative then -(n : Int) else n
    else none

/-- A literal without its sign as a whole number and a power of ten: digits with an optional point
before, among or after them, and an optional exponent. -/
def decimal? (cs : List Char) : Option (Nat × Int) :=
  let whole := cs.takeWhile isDigit
  let rest := cs.dropWhile isDigit
  let (fraction, rest) :=
    match rest with
    | '.' :: rest => (rest.takeWhile isDigit, rest.dropWhile isDigit)
    | rest => ([], rest)
  match natural? 10 (whole ++ fraction), exponent? rest with
  | some digits, some e => some (digits, e - fraction.length)
  | _, _ => none

/-- The binary64 number nearest to a literal, if it is in range. -/
def double? (cs : List Char) : Option Double :=
  let (negative, rest) := sign cs
  (decimal? rest).bind fun (digits, scale) => Double.ofDecimal? negative digits scale

end Literal

end Docweave
