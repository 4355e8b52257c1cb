import Docweave.Leaves
import Docweave.Store.Direct
import Docweave.Store.Indexed

/-!
A document behind one of the two stores.
-/

namespace Docweave

/-- The stores there are. -/
inductive Backend where
  | direct
  | indexed
deriving DecidableEq

namespace Backend

/-- The name of a store. -/
def label : Backend → String
  | .direct => "direct"
  | .indexed => "indexed"

/-- The store with a name, in letters of either case.  The indexed store has three names. -/
def ofLabel? (label : String) : Option Backend :=
  let name := label.toLower
  if name = "direct" then some .direct
  else if name = "indexed" || name = "fast" || name = "flat" then some .indexed
  else none

/-- The wording for a name that no store has. -/
def unknown (label : String) : String :=
  "unknown wrapper '" ++ label ++ "'"

end Backend

/-- A document behind a store. -/
inductive Store where
  | direct (store : Direct)
  | indexed (store : Indexed)

namespace Store

/-- Puts a document behind a store. -/
def wrap : Backend → Value → Store
  | .direct, content => .direct ⟨content⟩
  | .indexed, content => .indexed (Indexed.ofValue content)

/-- Which store it is. -/
def backend : Store → Backend
  | .direct _ => .direct
  | .indexed _ => .indexed

/-- The document. -/
def content : Store → Value
  | .direct store => store.content
  | .indexed store => store.content

/-- The node a pointer addresses. -/
def get : Store → Pointer → Except Fault Value
  | .direct store => store.get
  | .indexed store => store.get

/-- Whether a pointer addresses a node. -/
def has : Store → Pointer → Bool
  | .direct store => store.has
  | .indexed store => store.has

/-- The node a pointer addresses, or a default. -/
def getD (store : Store) (pointer : Pointer) (default : Value) : Value :=
  match store.get pointer with
  | .ok v => v
  | .error _ => default

/-- Replaces or creates the node a pointer addresses. -/
def update (store : Store) (pointer : Pointer) (new : Value) : Except Fault Store :=
  match store with
  | .direct store => (store.update pointer new).map .direct
  | .indexed store => (store.update pointer new).map .indexed

/-- Removes the node a pointer addresses, if there is one. -/
def delete? (store : Store) (pointer : Pointer) : Option Store :=
  match store with
  | .direct store => (store.delete? pointer).map .direct
  | .indexed store => (store.delete? pointer).map .indexed

/-- Changes the document behind the store's back. -/
def setContent (store : Store) (content : Value) : Store :=
  match store with
  | .direct _ => .direct ⟨content⟩
  | .indexed store => .indexed { store with content }

/-- Makes an index, if there is one, fit the document again. -/
def recalculate : Store → Store
  | .direct store => .direct store
  | .indexed store => .indexed store.recalculate

/-- The number of indexed nodes, if there is an index. -/
def indexedNodes? : Store → Option Nat
  | .direct _ => none
  | .indexed store => some store.nodes

/-- The leaves of the document. -/
def leaves (store : Store) : List (Path × Value) :=
  Leaves.ofValue store.content

end Store

end Docweave
