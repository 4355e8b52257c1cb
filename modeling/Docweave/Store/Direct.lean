import Docweave.Value.Walk

/-!
The direct store: it holds the document alone and walks it from the root on every call.
-/

namespace Docweave

/-- A document that is walked from the root on every call. -/
structure Direct where
  content : Value

namespace Direct

/-- The node a pointer addresses. -/
def get (store : Direct) (pointer : Pointer) : Except Fault Value :=
  store.content.lookup pointer

/-- Whether a pointer addresses a node. -/
def has (store : Direct) (pointer : Pointer) : Bool :=
  (store.get pointer).isOk

/-- Replaces or creates the node a pointer addresses.  The parent has to exist: a map takes any
key, a list an index in range or `-` behind its last element.  The root cannot be replaced. -/
def update (store : Direct) (pointer : Pointer) (new : Value) : Except Fault Direct :=
  match pointer.path? with
  | none => .error (.refused pointer .filePointer)
  | some path =>
    match path.getLast? with
    | none => .error (.refused pointer .wholeDocument)
    | some last =>
      match store.content.editAt (Value.writeChild path.parent last new) [] path.parent with
      | .ok content => .ok ⟨content⟩
      | .error (.miss miss) => .error (.notFound pointer miss)
      | .error (.refused cause) => .error (.refused pointer cause)

/-- Removes the node a pointer addresses; the root empties the document.  Without such a node the
answer is `none`. -/
def delete? (store : Direct) (pointer : Pointer) : Option Direct :=
  match pointer.path? with
  | none => none
  | some [] => some ⟨store.content.cleared⟩
  | some path => (store.content.removeAt? path).map Direct.mk

end Direct

end Docweave
