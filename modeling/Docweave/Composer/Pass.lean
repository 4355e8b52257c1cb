import Docweave.Composer.Worklist
import Docweave.Directive

/-!
One pass of composing.

A pass goes through a snapshot of every node of the worklist.  What is inside a directive comes
before the directive itself, and the directive waits if something inside it has to be looked
through again.  A handler gets the directive as it is by then, not as the snapshot has it.
-/

namespace Docweave

/-- The state of composing a document. -/
structure Progress (μ : Type) where
  document : Store
  /-- Nodes that hold their value for good. -/
  completed : List Path
  memory : μ
  /-- Nodes for the next pass, the last one first. -/
  revisit : List Path
  /-- Whether this pass has changed the document. -/
  changed : Bool

/-- Composing changes its state, also when it fails.  It may never end, which is `none`. -/
abbrev Composing (μ : Type) : Type → Type := ExceptT Fault (StateT (Progress μ) Option)

/-- What stays the same while a document is composed. -/
structure Workshop (μ : Type) where
  handlers : List (Handler μ)
  setting : Setting
  /-- Composes a value as a document of its own. -/
  separately : Backend → Value → ExceptT Fault (StateT μ Option) Value

namespace Composing

variable {μ : Type}

/-- Notes that a node has to be looked through again. -/
def again (path : Path) : Composing μ Bool := fun progress =>
  some (.ok true, { progress with revisit := path :: progress.revisit })

/-- Writes a value to a node, unless it is there already.  Nothing at or below the node is
completed any more. -/
def write (path : Path) (v : Value) : Composing μ Unit := fun progress =>
  let isThere := match progress.document.get (.plain path) with
    | .ok current => current.same v
    | .error _ => false
  if isThere then some (.ok (), progress)
  else
    let progress :=
      { progress with completed := progress.completed.filter fun done => !done.isWithin path }
    match progress.document.update (.plain path) v with
    | .error fault => some (.error fault, progress)
    | .ok document => some (.ok (), { progress with document, changed := true })

/-- Notes that a node holds its value for good. -/
def complete (path : Path) : Composing μ Bool := fun progress =>
  let completed :=
    if progress.completed.contains path then progress.completed else path :: progress.completed
  some (.ok false, { progress with completed })

/-- Acts on the memory alone; a fault tells which node it is about. -/
def remembering {α : Type} (path : Path) (act : ExceptT Fault (StateT μ Option) α) :
    Composing μ α := fun progress =>
  match act progress.memory with
  | none => none
  | some (.ok a, memory) => some (.ok a, { progress with memory })
  | some (.error fault, memory) =>
    some (.error (.composition (.plain path) fault), { progress with memory })

/-- Does what a handler answers, and tells whether the node has to be looked through again. -/
def settle (workshop : Workshop μ) (path : Path) : Outcome → Composing μ Bool
  | .retry => again path
  | .success v => do
    write path v
    if v.isContainer then again path else pure false
  | .completed v => do
    write path v
    complete path
  | .separate v => do
    let backend := (← get).document.backend
    let composed ← remembering path (workshop.separately backend v)
    write path composed
    complete path

/-- Hands the directive at a node to its handler. -/
def invoke (workshop : Workshop μ) (path : Path) : Composing μ Bool := fun progress =>
  match progress.document.get (.plain path) with
  | .error fault => some (.error fault, progress)
  | .ok v =>
    match v with
    | .map directive =>
      match Handler.find? workshop.handlers directive with
      | none => some (.ok false, progress)
      | some handler =>
        let context : Context :=
          ⟨progress.document, path, Handler.markers workshop.handlers, workshop.setting⟩
        match handler.compose directive context progress.memory with
        | (.ok outcome, memory) => settle workshop path outcome { progress with memory }
        | (.error fault, memory) =>
          some (.error (.composition (.plain path) fault), { progress with memory })
    | _ => some (.ok false, progress)

end Composing

/-- How directives are told from other nodes, and how one is handed over.  Looking through a
document takes no more than this, whoever it is that answers. -/
structure Handover (μ : Type) where
  markers : List String
  /-- Hands over the directive at a node, and tells whether the node has to be looked through
  again. -/
  invoke : Path → Composing μ Bool

/-- In a workshop directives are told by the markers of the handlers and handed to them. -/
@[coe]
abbrev Workshop.handover {μ : Type} (workshop : Workshop μ) : Handover μ :=
  ⟨Handler.markers workshop.handlers, Composing.invoke workshop⟩

instance {μ : Type} : Coe (Workshop μ) (Handover μ) :=
  ⟨Workshop.handover⟩

namespace Handover

open Composing (again)

variable {μ : Type}

mutual

/-- Looks through the snapshot of a node, and tells whether something in it has to be looked
through again. -/
def scan (handover : Handover μ) (path : Path) : Value → Composing μ Bool
  | .map fields => do
    if (← get).completed.contains path then pure false
    else if isDirective handover.markers (.map fields) then
      if path.isEmpty then throw (.refused .root .rootDirective)
      else if ← scanFields handover path fields then again path
      else handover.invoke path
    else scanFields handover path fields
  | .list items => do
    if (← get).completed.contains path then pure false
    else scanItems handover path 0 items
  | _ => pure false

/-- Looks through the entries of a map. -/
def scanFields (handover : Handover μ) (path : Path) :
    List (String × Value) → Composing μ Bool
  | [] => pure false
  | (key, v) :: rest => do
    let here ← scan handover (path.child key) v
    let there ← scanFields handover path rest
    pure (here || there)

/-- Looks through the elements of a list from a position on.  Elements without a token are passed
over. -/
def scanItems (handover : Handover μ) (path : Path) :
    Nat → List Value → Composing μ Bool
  | _, [] => pure false
  | i, v :: rest =>
    match token? i with
    | some token => do
      let here ← scan handover (path.child token) v
      let there ← scanItems handover path (i + 1) rest
      pure (here || there)
    | none => pure false

end

/-- Looks through the nodes of a worklist; nodes that are gone are passed over. -/
def pass (handover : Handover μ) : List Path → Composing μ Unit
  | [] => pure ()
  | path :: rest => do
    let document := (← get).document
    if document.has (.plain path) then
      let v ← liftM (document.get (.plain path))
      let _ ← scan handover path v
    pass handover rest

end Handover

namespace Composing

export Handover (scan scanFields scanItems pass)

end Composing

end Docweave
