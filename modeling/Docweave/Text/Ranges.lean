/-!
Sets of characters, and maps between characters, given by tables.

A set is the increasing list of the code points where it starts and ends, turn by turn: a code
point belongs to it when an odd number of them lie at or below it.  A map is a list of runs, each
of which shifts every code point of an interval, or every second one, by the same amount.
-/

namespace Docweave

namespace Text

/-- A set of code points, by the places where it starts and ends. -/
abbrev Ranges : Type := List Nat

/-- Whether a code point belongs to a set; `inside` is the state before the first place. -/
def Ranges.containsCode : Ranges → Bool → Nat → Bool
  | [], inside, _ => inside
  | place :: places, inside, code =>
    if code < place then inside else Ranges.containsCode places (!inside) code

/-- Whether a character belongs to a set. -/
def Ranges.contains (ranges : Ranges) (c : Char) : Bool :=
  Ranges.containsCode ranges false c.toNat

/-- A run of code points that are shifted by the same amount: `first`, `first + stride` and so on
up to `last`. -/
structure Shift where
  first : Nat
  last : Nat
  stride : Nat
  amount : Int

/-- Whether the run shifts a code point. -/
def Shift.moves (s : Shift) (code : Nat) : Bool :=
  decide (s.first ≤ code ∧ code ≤ s.last) && (code - s.first) % s.stride == 0

/-- The code point a number of places further on. -/
def moved (code : Nat) (amount : Int) : Nat :=
  (code + amount : Int).toNat

/-- The character that the runs shift a character to, if one of them does. -/
def shift? (shifts : List Shift) (c : Char) : Option Char :=
  (shifts.find? fun s => s.moves c.toNat).map fun s => Char.ofNat (moved c.toNat s.amount)

/-- The characters that the runs shift to a character. -/
def shiftedTo (shifts : List Shift) (c : Char) : List Char :=
  shifts.filterMap fun s =>
    let code := moved c.toNat (-s.amount)
    if s.moves code && moved code s.amount == c.toNat then some (Char.ofNat code) else none

end Text

end Docweave
