import Docweave.Value.Walk
import Std.Data.ExtHashMap

/-!
The indexed store: beside the document it holds an index from the path of every node below the
root to the steps that lead there.

Looking a node up is one look in the index and a walk by steps that need no checking.  Every write
mends the index where the document changes: the entries of what was removed are dropped, those of
what was written are added, and when an element leaves a list only its later siblings are indexed
anew.  A document that is changed behind the index makes it stale until `recalculate`.
-/

namespace Docweave

instance : EquivBEq Path := inferInstance

instance : LawfulHashable Path := inferInstance

/-- For the path of a node the steps that lead to it. -/
abbrev Index : Type := Std.ExtHashMap Path (List Step)

namespace Index

mutual

/-- Adds the nodes below a value that stands at a path behind some steps. -/
def add (path : Path) (steps : List Step) : Value → Index → Index
  | .map fields, index => addFields path steps fields index
  | .list items, index => addItems path steps 0 items index
  | _, index => index

/-- Adds the entries of a map and the nodes below them. -/
def addFields (path : Path) (steps : List Step) : List (String × Value) → Index → Index
  | [], index => index
  | (key, v) :: es, index =>
    addFields path steps es
      ((add (path.child key) (steps ++ [.key key]) v index).insert
        (path.child key) (steps ++ [.key key]))

/-- Adds the elements of a list from a position on, and the nodes below them.  Elements without a
token are not indexed. -/
def addItems (path : Path) (steps : List Step) : Nat → List Value → Index → Index
  | _, [], index => index
  | i, v :: vs, index =>
    match token? i with
    | some token =>
      addItems path steps (i + 1) vs
        ((add (path.child token) (steps ++ [.index i]) v index).insert
          (path.child token) (steps ++ [.index i]))
    | none => index

end

mutual

/-- Drops the nodes below a value that stood at a path. -/
def dropBelow (path : Path) : Value → Index → Index
  | .map fields, index => dropFields path fields index
  | .list items, index => dropItems path 0 items index
  | _, index => index

/-- Drops the entries of a map and the nodes below them. -/
def dropFields (path : Path) : List (String × Value) → Index → Index
  | [], index => index
  | (key, v) :: es, index =>
    dropFields path es ((dropBelow (path.child key) v index).erase (path.child key))

/-- Drops the elements of a list from a position on, and the nodes below them. -/
def dropItems (path : Path) : Nat → List Value → Index → Index
  | _, [], index => index
  | i, v :: vs, index =>
    match token? i with
    | some token =>
      dropItems path (i + 1) vs ((dropBelow (path.child token) v index).erase (path.child token))
    | none => index

end

/-- The index of a document. -/
def ofValue (root : Value) : Index :=
  add [] [] root ∅

/-- The steps to a path; none are needed to the root. -/
def steps? (index : Index) (path : Path) : Option (List Step) :=
  if path = [] then some [] else index[path]?

end Index

/-- A document with the index of its nodes. -/
structure Indexed where
  content : Value
  index : Index

namespace Indexed

/-- The store of a document. -/
def ofValue (root : Value) : Indexed :=
  ⟨root, Index.ofValue root⟩

/-- Makes the index anew from the document. -/
def recalculate (store : Indexed) : Indexed :=
  ofValue store.content

/-- The number of indexed nodes; the root is not counted. -/
def nodes (store : Indexed) : Nat :=
  store.index.size

/-- The node a pointer addresses. -/
def get (store : Indexed) (pointer : Pointer) : Except Fault Value :=
  match pointer.path? with
  | none => .error (.refused pointer .filePointer)
  | some path =>
    match (store.index.steps? path).bind fun steps => store.content.follow? steps with
    | some v => .ok v
    | none => .error (.notFound pointer .unlisted)

/-- Whether a pointer addresses an indexed node. -/
def has (store : Indexed) (pointer : Pointer) : Bool :=
  match pointer.path? with
  | none => false
  | some path => (store.index.steps? path).isSome

/-- Writes the value of a node that is indexed already. -/
def overwrite (store : Indexed) (path : Path) (steps : List Step) (old new : Value) : Indexed :=
  ⟨Value.replaceAt new steps store.content,
    Index.add path steps new (Index.dropBelow path old store.index)⟩

/-- Writes a child that is not indexed, under a parent that is. -/
def create (store : Indexed) (pointer : Pointer) (path : Path) (steps : List Step) (last : String)
    (new parent : Value) : Except Fault Indexed :=
  let put (parent' : Value) (token? : Option String) (step : Step) : Indexed :=
    ⟨Value.replaceAt parent' steps store.content,
      match token? with
      | some token =>
        (Index.add (path.child token) (steps ++ [step]) new store.index).insert
          (path.child token) (steps ++ [step])
      | none => store.index⟩
  match parent with
  | .map fields => .ok (put (.map (Entries.insert fields last new)) (some last) (.key last))
  | .list items =>
    if last = appendToken then
      .ok (put (.list (items ++ [new])) (token? items.length) (.index items.length))
    else .error (.notFound pointer (.slot path last items.length))
  | _ => .error (.refused pointer (.scalarParent path))

/-- Replaces or creates the node a pointer addresses.  The parent has to exist: a map takes any
key, a list an index in range or `-` behind its last element.  The root cannot be replaced. -/
def update (store : Indexed) (pointer : Pointer) (new : Value) : Except Fault Indexed :=
  match pointer.path? with
  | none => .error (.refused pointer .filePointer)
  | some path =>
    match path.getLast? with
    | none => .error (.refused pointer .wholeDocument)
    | some last =>
      match store.index[path]? with
      | some steps =>
        match store.content.follow? steps with
        | some old => .ok (store.overwrite path steps old new)
        | none => .error (.notFound pointer .unlisted)
      | none =>
        match store.index.steps? path.parent with
        | none => .error (.notFound pointer .unlisted)
        | some steps =>
          match store.content.follow? steps with
          | some parent => store.create pointer path.parent steps last new parent
          | none => .error (.notFound pointer .unlisted)

/-- Removes a child behind the last step from under its parent; later elements of a list move
up. -/
def removeStep? (store : Indexed) (path : Path) (steps : List Step) (step : Step)
    (parent : Value) : Option Indexed :=
  match parent, step with
  | .map fields, .key key =>
    (Entries.find? fields key).map fun old =>
      ⟨Value.replaceAt (.map (Entries.erase fields key)) steps store.content,
        (Index.dropBelow path old store.index).erase path⟩
  | .list items, .index i =>
    if i < items.length then
      let above := path.parent
      some ⟨Value.replaceAt (.list (items.eraseIdx i)) steps store.content,
        Index.addItems above steps i ((items.eraseIdx i).drop i)
          (Index.dropItems above i (items.drop i) store.index)⟩
    else none
  | _, _ => none

/-- Removes the node a pointer addresses; the root empties the document.  Without such a node the
answer is `none`. -/
def delete? (store : Indexed) (pointer : Pointer) : Option Indexed :=
  match pointer.path? with
  | none => none
  | some [] => some ⟨store.content.cleared, ∅⟩
  | some path =>
    match store.index[path]? with
    | none => none
    | some steps =>
      match steps.getLast? with
      | none => none
      | some step =>
        (store.content.follow? steps.dropLast).bind fun parent =>
          store.removeStep? path steps.dropLast step parent

end Indexed

end Docweave
