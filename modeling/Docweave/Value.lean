import Docweave.Entries
import Docweave.Number

/-!
Documents: null, booleans, numbers, texts, lists and maps.

A map keeps its keys in order, because everything that prints a document shows the order; two
maps are equal whatever their order, so equality of documents is `Value.same` and not `=`.
-/

namespace Docweave

/-- A document, or a part of one. -/
inductive Value where
  | null
  | bool (b : Bool)
  | number (n : Number)
  | text (s : String)
  | list (items : List Value)
  | map (fields : List (String × Value))
deriving Inhabited

/-- The entries of a map. -/
abbrev Fields : Type := Entries Value

namespace Value

/-- The empty map. -/
def empty : Value := .map []

/-- An integer as a document. -/
def int (i : Int) : Value := .number (.integer i)

/-- Whether the value is a map or a list. -/
def isContainer : Value → Bool
  | .map _ | .list _ => true
  | _ => false

/-- Whether the value is null. -/
def isNull : Value → Bool
  | .null => true
  | _ => false

/-- The boolean, if the value is one. -/
def bool? : Value → Option Bool
  | .bool b => some b
  | _ => none

/-- The number, if the value is one. -/
def number? : Value → Option Number
  | .number n => some n
  | _ => none

/-- The integer, if the value is one. -/
def int? : Value → Option Int
  | .number (.integer i) => some i
  | _ => none

/-- The text, if the value is one. -/
def text? : Value → Option String
  | .text s => some s
  | _ => none

/-- The elements, if the value is a list. -/
def items? : Value → Option (List Value)
  | .list items => some items
  | _ => none

mutual

/-- The number of nodes of a document, the root included. -/
def size : Value → Nat
  | .list items => 1 + sizeItems items
  | .map fields => 1 + sizeFields fields
  | _ => 1

/-- The number of nodes below a list. -/
def sizeItems : List Value → Nat
  | [] => 0
  | v :: vs => size v + sizeItems vs

/-- The number of nodes below a map. -/
def sizeFields : List (String × Value) → Nat
  | [] => 0
  | (_, v) :: es => size v + sizeFields es

end

mutual

/-- Equality of documents: lists element by element, maps key by key in any order. -/
def same : Value → Value → Bool
  | .null, .null => true
  | .bool a, .bool b => a == b
  | .number a, .number b => a.same b
  | .text a, .text b => a == b
  | .list xs, .list ys => sameItems xs ys
  | .map es, .map fs => es.length == fs.length && sameFields es fs
  | _, _ => false

/-- Equality of lists. -/
def sameItems : List Value → List Value → Bool
  | [], [] => true
  | x :: xs, y :: ys => same x y && sameItems xs ys
  | _, _ => false

/-- Whether every entry has an equal value under its key in the other map. -/
def sameFields : List (String × Value) → List (String × Value) → Bool
  | [], _ => true
  | (k, v) :: es, fs =>
    (match Entries.find? fs k with
      | some w => same v w
      | none => false) && sameFields es fs

end

mutual

/-- No map in the document has a key twice. -/
def WellFormed : Value → Prop
  | .list items => WellFormedItems items
  | .map fields => Entries.Distinct fields ∧ WellFormedFields fields
  | _ => True

/-- The same of every element of a list. -/
def WellFormedItems : List Value → Prop
  | [] => True
  | v :: vs => WellFormed v ∧ WellFormedItems vs

/-- The same of every value in a map. -/
def WellFormedFields : List (String × Value) → Prop
  | [] => True
  | (_, v) :: es => WellFormed v ∧ WellFormedFields es

end

end Value

end Docweave
