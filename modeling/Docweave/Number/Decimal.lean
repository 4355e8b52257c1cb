import Docweave.Number.Double

/-!
The shortest decimal text of a binary64 number.

Among the decimals that round to the number, the ones with the fewest digits are taken, and of
those the nearest; a tie goes by rule.  How the digits are laid out (where the point stands, when
an exponent is written) is a separate decision, held in `Layout`.
-/

namespace Docweave

/-- Which of two equally near decimals is taken. -/
inductive Tie
  | even
  | up
deriving DecidableEq

/-- The magnitude `d.d…d · 10^exponent`, its digits read as one whole number `digits` that does
not end in zero. -/
structure Decimal where
  digits : Nat
  exponent : Int
deriving DecidableEq

namespace Decimal

/-- How many decimal digits a number has; zero has one. -/
def width (n : Nat) : Nat :=
  (Nat.toDigits 10 n).length

/-- The greatest `e` with `10^e ≤ num / den`, for positive arguments. -/
def floorLog10 (num den : Nat) : Int :=
  if den ≤ num then (width (num / den) : Int) - 1
  else -(width ((den + num - 1) / num - 1) : Int)

/-- Drops the zeros at the end of a whole number, at most `fuel` of them. -/
def dropZeros : Nat → Nat → Nat
  | 0, n => n
  | fuel + 1, n => if n % 10 = 0 then dropZeros fuel (n / 10) else n

/-- The decimal on the grid of multiples of `10^scale` that rounds to `m · 2^q` and is nearest to
it, if there is one.  With `unit = 2^(q-2) / 10^scale` as the quotient `up / down`, the number is
`4 m` units, and the ends of the interval of reals that round to it are `low` and `high` units;
the ends belong to it when `m` is even. -/
def onGrid? (tie : Tie) (m low high up down : Nat) : Option Nat :=
  let c := 4 * m * up / down
  let inside (x : Nat) : Bool :=
    if m % 2 = 0 then low * up ≤ x * down && x * down ≤ high * up
    else low * up < x * down && x * down < high * up
  let toLower := 4 * m * up - c * down
  let toUpper := (c + 1) * down - 4 * m * up
  match inside c, inside (c + 1) with
  | false, false => none
  | true, false => some c
  | false, true => some (c + 1)
  | true, true =>
    if toLower < toUpper then some c
    else if toUpper < toLower then some (c + 1)
    else match tie with
      | .even => some (c + c % 2)
      | .up => some (c + 1)

/-- The shortest decimal of a number that is not zero. -/
def shortest (tie : Tie) (d : Double) : Decimal :=
  let m := d.significand
  let q := d.exponent
  let low := if m = 0x10000000000000 ∧ -1074 < q then 4 * m - 1 else 4 * m - 2
  let high := 4 * m + 2
  let top := floorLog10 d.numerator d.denominator
  let attempt (n : Nat) : Option (Nat × Int) :=
    let scale := top - n
    let up := Nat.pow 10 (-scale).toNat <<< (q - 2).toNat
    let down := Nat.pow 10 scale.toNat <<< (2 - q).toNat
    (onGrid? tie m low high up down).map (·, scale)
  match (List.range 17).findSome? attempt with
  | some (n, scale) => ⟨dropZeros 20 n, (width n : Int) - 1 + scale⟩
  | none => ⟨0, 0⟩

/-- The digits as characters. -/
def digitChars (d : Decimal) : List Char :=
  Nat.toDigits 10 d.digits

/-- The magnitude without an exponent; a whole number has no point. -/
def plain (d : Decimal) : List Char :=
  let ds := d.digitChars
  if d.exponent < 0 then
    ['0', '.'] ++ List.replicate (-d.exponent - 1).toNat '0' ++ ds
  else
    let whole := d.exponent.toNat + 1
    if ds.length ≤ whole then ds ++ List.replicate (whole - ds.length) '0'
    else ds.take whole ++ '.' :: ds.drop whole

/-- The magnitude with one digit before the point and an exponent, whose sign is written also when
it is positive. -/
def scientific (d : Decimal) : List Char :=
  let fraction := d.digitChars.drop 1
  let sign := if d.exponent < 0 then '-' else '+'
  d.digitChars.take 1 ++ (if fraction.isEmpty then [] else '.' :: fraction)
    ++ 'e' :: sign :: Nat.toDigits 10 d.exponent.natAbs

end Decimal

/-- How a number is laid out. -/
structure Layout where
  /-- The decision between two equally near decimals. -/
  tie : Tie
  /-- The exponents written without exponent notation: all, or those in an interval. -/
  positional : Int → Bool
  /-- Whether a whole number shows that it is not an integer, by a point and a zero. -/
  pointZero : Bool

namespace Layout

/-- Numbers in document text: positional from `10^-5` to below `10^16`, always with a point or an
exponent, ties to the even digit. -/
def document : Layout :=
  ⟨.even, fun e => decide (-5 ≤ e ∧ e < 16), true⟩

/-- Numbers in sentences: never an exponent, no point on whole numbers, ties upwards. -/
def sentence : Layout :=
  ⟨.up, fun _ => true, false⟩

end Layout

/-- The text of a number. -/
def Double.render (layout : Layout) (d : Double) : String :=
  let sign := if d.negative then ['-'] else []
  let marked (whole : Bool) (cs : List Char) :=
    if whole && layout.pointZero then cs ++ ['.', '0'] else cs
  let magnitude :=
    if d.isZero then marked true ['0']
    else
      let dec := Decimal.shortest layout.tie d
      if layout.positional dec.exponent then
        marked (decide ((dec.digitChars.length : Int) ≤ dec.exponent + 1)) dec.plain
      else dec.scientific
  String.ofList (sign ++ magnitude)

end Docweave
