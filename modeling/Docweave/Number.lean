import Docweave.Number.Decimal

/-!
The numbers of a document: integers and binary64 numbers, which are never equal to each other.
-/

namespace Docweave

/-- A number in a document. -/
inductive Number where
  | integer (value : Int)
  | float (value : Double)
deriving DecidableEq

namespace Number

/-- Equality of numbers: `1` and `1.0` differ, the two zeros of binary64 do not. -/
def same : Number → Number → Bool
  | .integer a, .integer b => a == b
  | .float a, .float b => a.same b
  | _, _ => false

/-- The text in a document. -/
def render : Number → String
  | .integer i => toString i
  | .float d => d.render Layout.document

/-- The nearest binary64 number. -/
def toDouble : Number → Double
  | .integer i => Double.ofInt i
  | .float d => d

/-- The integers a document can hold: what fits in 64 bits, with or without a sign. -/
def InRange (i : Int) : Prop :=
  -0x8000000000000000 ≤ i ∧ i < 0x10000000000000000

instance (i : Int) : Decidable (InRange i) :=
  inferInstanceAs (Decidable (_ ∧ _))

theorem same_self (n : Number) : n.same n = true := by
  cases n <;> simp [same, Double.same]

end Number

end Docweave
