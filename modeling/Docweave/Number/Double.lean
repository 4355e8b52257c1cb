/-!
Finite binary64 numbers, in exact arithmetic.

The finite magnitudes are `m · 2^e` with `m < 2^53` and `-1074 ≤ e ≤ 971`.  Counted upwards from
zero they get the ranks `0, 1, 2, …`, so a number is a sign and a rank, and comparing magnitudes
is comparing ranks.  Every operation computes a quotient of natural numbers and rounds it once,
to the nearest rank and on a tie to the even one; a result beyond the largest finite number is
refused instead of becoming an infinity.

There are `2^52 = 0x10000000000000` ranks between one power of two and the next.
-/

namespace Docweave

/-- A finite binary64 number. -/
structure Double where
  negative : Bool
  /-- The place of the magnitude among the finite magnitudes. -/
  rank : Nat
  rank_lt : rank < 2047 * 0x10000000000000
deriving DecidableEq

namespace Double

/-- The whole number `m` in the magnitude `m · 2^e`. -/
def significand (d : Double) : Nat :=
  if d.rank / 0x10000000000000 = 0 then d.rank
  else 0x10000000000000 + d.rank % 0x10000000000000

/-- The power `e` in the magnitude `m · 2^e`. -/
def exponent (d : Double) : Int :=
  (max (d.rank / 0x10000000000000) 1 : Nat) - 1075

/-- The quotient rounded to a whole number, a half going to the even neighbour. -/
def divRound (num den : Nat) : Nat :=
  let q := num / den
  let twice := 2 * (num % den)
  if twice < den then q
  else if den < twice then q + 1
  else q + q % 2

/-- The greatest `e` with `2^e ≤ num / den`, for positive arguments. -/
def floorLog2 (num den : Nat) : Int :=
  let e : Int := (Nat.log2 num : Int) - Nat.log2 den
  if den <<< e.toNat ≤ num <<< (-e).toNat then e else e - 1

/-- The rank nearest to the quotient.  The ranks at or beyond `2047 · 2^52` stand for magnitudes
that are out of range. -/
def rankOfRatio (num den : Nat) : Nat :=
  if num = 0 then 0
  else
    let e := max (-1074) (floorLog2 num den - 52)
    (e + 1074).toNat * 0x10000000000000 + divRound (num <<< (-e).toNat) (den <<< e.toNat)

/-- The number with this sign nearest to the quotient, if it is in range. -/
def ofRatio? (negative : Bool) (num den : Nat) : Option Double :=
  let rank := rankOfRatio num den
  if h : rank < 2047 * 0x10000000000000 then some ⟨negative, rank, h⟩ else none

/-- Zero with a sign. -/
def zero (negative : Bool) : Double :=
  ⟨negative, 0, by decide⟩

/-- The largest finite magnitude with a sign. -/
def largest (negative : Bool) : Double :=
  ⟨negative, 2047 * 0x10000000000000 - 1, by decide⟩

/-- The nearest number to an integer; integers out of range go to the largest magnitude. -/
def ofInt (i : Int) : Double :=
  (ofRatio? (decide (i < 0)) i.natAbs 1).getD (largest (decide (i < 0)))

/-- A power of ten, up to the greatest in range. -/
def powerOfTen (n : Nat) : Double :=
  ofInt (Nat.pow 10 n)

/-- The number nearest to `digits · 10^scale`, if it is in range.  The first two cases only keep
the powers small: such a number is out of range, or below half the smallest magnitude. -/
def ofDecimal? (negative : Bool) (digits : Nat) (scale : Int) : Option Double :=
  if digits = 0 then some (zero negative)
  else if 400 < scale then none
  else if scale < -(400 + Nat.log2 digits) then some (zero negative)
  else ofRatio? negative (digits * Nat.pow 10 scale.toNat)
      (Nat.pow 10 (-scale).toNat)

/-- Whether the magnitude is zero. -/
def isZero (d : Double) : Bool :=
  d.rank == 0

/-- The number with the other sign. -/
def neg (d : Double) : Double :=
  { d with negative := !d.negative }

/-- The numerator of the magnitude as a quotient by `denominator`. -/
def numerator (d : Double) : Nat :=
  d.significand <<< d.exponent.toNat

/-- The denominator of the magnitude, a power of two. -/
def denominator (d : Double) : Nat :=
  1 <<< (-d.exponent).toNat

/-- The product, if it is in range. -/
def mul? (a b : Double) : Option Double :=
  ofRatio? (a.negative != b.negative) (a.numerator * b.numerator) (a.denominator * b.denominator)

/-- The quotient, if the divisor is not zero and the result is in range. -/
def div? (a b : Double) : Option Double :=
  if b.isZero then none
  else
    ofRatio? (a.negative != b.negative) (a.numerator * b.denominator)
      (a.denominator * b.numerator)

/-- The signed rank.  It orders the numbers by value and gives both zeros the same place. -/
def key (d : Double) : Int :=
  if d.negative then -(d.rank : Int) else d.rank

/-- Equality of values: the two zeros are equal. -/
def same (a b : Double) : Bool :=
  a.key == b.key

/-- The strict order of values. -/
def less (a b : Double) : Bool :=
  decide (a.key < b.key)

/-- The order of values. -/
def atMost (a b : Double) : Bool :=
  decide (a.key ≤ b.key)

/-- The integer part, the fraction being cut off. -/
def truncate (d : Double) : Int :=
  let whole : Int := d.numerator / d.denominator
  if d.negative then -whole else whole

theorem significand_lt (d : Double) : d.significand < 0x20000000000000 := by
  unfold significand
  split
  · next h => omega
  · next h => omega

/-- The rank is recovered from significand and exponent. -/
theorem rank_eq (d : Double) :
    (d.rank : Int) = (d.exponent + 1074) * 0x10000000000000 + d.significand := by
  unfold exponent significand
  split
  · next h =>
    rw [Nat.max_eq_right (by omega)]
    omega
  · next h =>
    rw [Nat.max_eq_left (by omega)]
    omega

end Double

end Docweave
