import Docweave.Generator

/-!
Numbers without a pattern, from a seed.

The state walks through all numbers of sixty-four bits in equal steps, and each number that is
handed out is the state with its bits mixed up.
-/

namespace Docweave

/-- A supply of numbers. -/
structure Supply where
  state : UInt64

namespace Supply

/-- Mixes the bits of a number. -/
def mix (z : UInt64) : UInt64 :=
  let z := (z ^^^ (z >>> 30)) * 0xbf58476d1ce4e5b9
  let z := (z ^^^ (z >>> 27)) * 0x94d049bb133111eb
  z ^^^ (z >>> 31)

/-- The next number. -/
def next : Chance Supply := fun supply =>
  let state := supply.state + 0x9e3779b97f4a7c15
  ((mix state).toNat, ⟨state⟩)

end Supply

end Docweave
