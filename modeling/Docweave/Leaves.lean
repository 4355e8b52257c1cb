import Docweave.Pointer.Path
import Docweave.Value

/-!
The scalar leaves of a document, each with its path.

A cursor goes over them one at a time: it holds the nodes still to be visited, the next one first,
and a container is exchanged for its children.
-/

namespace Docweave

/-- A walk over the leaves of a document: the nodes still to be visited. -/
structure Leaves where
  pending : List (Path × Value)

namespace Leaves

/-- The walk over a document, before its first step. -/
def start (root : Value) : Leaves :=
  ⟨[([], root)]⟩

/-- The children of a list, with their paths. -/
def children (path : Path) : Value → List (Path × Value)
  | .map fields => fields.map fun e => (path.child e.1, e.2)
  | .list items => items.zipIdx.map fun e => (path.child (toString e.2), e.1)
  | _ => []

/-- The number of nodes still to be visited, with those below them. -/
def weight : List (Path × Value) → Nat
  | [] => 0
  | (_, v) :: rest => v.size + weight rest

theorem weight_append (a b : List (Path × Value)) : weight (a ++ b) = weight a + weight b := by
  induction a with
  | nil => simp [weight]
  | cons entry rest ih =>
    simp only [List.cons_append, weight, ih]
    omega

theorem weight_fields (path : Path) (fields : List (String × Value)) :
    weight (fields.map fun e => (path.child e.1, e.2)) = Value.sizeFields fields := by
  induction fields with
  | nil => rfl
  | cons e es ih => simp only [List.map_cons, weight, Value.sizeFields, ih]

theorem weight_items (path : Path) (items : List Value) (i : Nat) :
    weight ((items.zipIdx i).map fun e => (path.child (toString e.2), e.1))
      = Value.sizeItems items := by
  induction items generalizing i with
  | nil => rfl
  | cons v vs ih => simp only [List.zipIdx_cons, List.map_cons, weight, Value.sizeItems, ih]

theorem weight_children_lt (path : Path) (v : Value) : weight (children path v) < v.size := by
  cases v with
  | map fields =>
    simp only [children, weight_fields, Value.size]
    omega
  | list items =>
    simp only [children, weight_items, Value.size]
    omega
  | null => simp [children, weight, Value.size]
  | bool b => simp [children, weight, Value.size]
  | number n => simp [children, weight, Value.size]
  | text s => simp [children, weight, Value.size]

/-- The next leaf with the walk behind it, or nothing at the end. -/
def next? (walk : Leaves) : Option ((Path × Value) × Leaves) :=
  match walk with
  | ⟨[]⟩ => none
  | ⟨(path, v) :: rest⟩ =>
    if v.isContainer then next? ⟨children path v ++ rest⟩
    else some ((path, v), ⟨rest⟩)
termination_by weight walk.pending
decreasing_by
  have := weight_children_lt path v
  simp only [weight_append, weight]
  omega

/-- The leaves still to come, at most `fuel` of them. -/
def collect : Nat → Leaves → List (Path × Value)
  | 0, _ => []
  | fuel + 1, walk =>
    match walk.next? with
    | some (leaf, rest) => leaf :: collect fuel rest
    | none => []

/-- The leaves of a document in order. -/
def ofValue (root : Value) : List (Path × Value) :=
  collect root.size (start root)

end Leaves

end Docweave
