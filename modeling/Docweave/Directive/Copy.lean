import Docweave.Directive

/-!
Directives that stand for a copy of another node.

A target that is a reference itself is followed to its own target, and so on, so that what is
copied is settled.  A chain that comes back to itself, or to the node that holds the directive or
one above it, is a fault.  A target that does not exist, or is a directive of another kind, may be
there later.
-/

namespace Docweave

namespace Directive

/-- The marker of references. -/
def referenceMarker : String := "!ref"

/-- The marker of references with changes. -/
def overlayMarker : String := "!xref"

/-- What the chain from a target leads to. -/
inductive Target where
  /-- A node on the way does not exist. -/
  | missing
  /-- A directive that is still to be composed. -/
  | pending
  | found (value : Value)

/-- The target that a directive names: not the whole document. -/
def target (directive : Fields) (marker : String) : Except Fault Path :=
  match payload directive marker with
  | .error fault => .error fault
  | .ok raw =>
    match Pointer.plainOfText raw with
    | .error fault => .error fault
    | .ok pointer =>
      match pointer.segments with
      | [] => .error (.malformed raw .wholeDocument)
      | path => .ok path

/-- Follows a chain.  `visited` are the nodes it has come by, and `links` its links; `node` is the
node that names the target at hand. -/
def followFrom (context : Context) :
    Nat → List Path → List Link → Path → Path → Except Fault Target
  | 0, _, _, _, _ => .error .exhausted
  | fuel + 1, visited, links, node, path =>
    let links := links ++ [⟨Pointer.textOfPath node, Pointer.textOfPath path⟩]
    if visited.contains path || context.path.isBelow path then
      .error (.cycle .reference (Pointer.textOfPath path) links)
    else
      match context.document.get (.plain path) with
      | .error _ => .ok .missing
      | .ok v =>
        match v with
        | .map fields =>
          if Entries.contains fields referenceMarker then
            match target fields referenceMarker with
            | .error fault => .error fault
            | .ok next => followFrom context fuel (visited ++ [path]) links path next
          else if isDirective context.markers v then .ok .pending
          else .ok (.found v)
        | v => .ok (.found v)

/-- Follows a chain from its first target on.  No node comes twice, so the chain is shorter than
the document is large. -/
def follow (context : Context) (path : Path) : Except Fault Target :=
  followFrom context (context.document.content.size + 2) [context.path] [] context.path path

/-- The copy that a reference stands for. -/
def composeReference (directive : Fields) (context : Context) : Except Fault Outcome := do
  let path ← target directive referenceMarker
  match ← follow context path with
  | .found v => .ok (.success v)
  | .missing | .pending => .ok .retry

/-! ### Copies with changes -/

/-- A pointer in the list of an option. -/
def optionPointer (option : String) : Value → Except Fault Pointer
  | .text raw => Pointer.plainOfText raw
  | v => .error (.input (.optionNotPointer option v))

/-- The pointers that an option lists. -/
def optionPointers (directive : Fields) (option : String) : Except Fault (List Pointer) :=
  match option? directive option with
  | none => .ok []
  | some (.list items) => items.mapM (optionPointer option)
  | some v => .error (.input (.optionNotPointers option v))

/-- The values to be written, each with its pointer. -/
def extensions (directive : Fields) : Except Fault (List (Pointer × Value)) :=
  match option? directive "extend" with
  | none => .ok []
  | some (.map fields) => fields.mapM fun entry => do
      let pointer ← Pointer.plainOfText entry.1
      .ok (pointer, entry.2)
  | some v => .error (.input (.extensionsNotMap v))

/-- A copy with values written to it one after the other. -/
def extended : List (Pointer × Value) → Direct → Except Fault Direct
  | [], copy => .ok copy
  | (pointer, v) :: rest, copy =>
    match copy.update pointer v with
    | .error fault => .error fault
    | .ok copy => extended rest copy

/-- A copy with nodes removed one after the other; nodes that are not there are passed over. -/
def trimmed (pointers : List Pointer) (copy : Direct) : Direct :=
  pointers.foldl (fun copy pointer => (copy.delete? pointer).getD copy) copy

/-- A reference with changes, as it is written. -/
structure Overlay where
  path : Path
  /-- Pointers into the target that have to lead to a node before the copy is made. -/
  present : List Pointer
  /-- Pointers into the target that must not lead to a node. -/
  missing : List Pointer
  extend : List (Pointer × Value)
  delete : List Pointer

/-- Reads a reference with changes. -/
def Overlay.read (directive : Fields) : Except Fault Overlay := do
  let path ← target directive overlayMarker
  let present ← optionPointers directive "ifPresent"
  let missing ← optionPointers directive "ifMissing"
  let extend ← extensions directive
  let delete ← optionPointers directive "delete"
  .ok ⟨path, present, missing, extend, delete⟩

/-- Whether the time for the copy has come. -/
def Overlay.isDue (overlay : Overlay) (v : Value) : Bool :=
  (overlay.present.all fun pointer => (v.lookup pointer).isOk)
    && overlay.missing.all fun pointer => !(v.lookup pointer).isOk

/-- The copy with its changes.  Only maps can be changed. -/
def Overlay.apply (overlay : Overlay) (v : Value) : Except Fault Value :=
  if overlay.extend.isEmpty && overlay.delete.isEmpty then .ok v
  else
    match v with
    | .map _ => do
      let copy ← extended overlay.extend ⟨v⟩
      .ok (trimmed overlay.delete copy).content
    | _ => .error (.refused (.plain overlay.path) .onlyMaps)

/-- The copy that a reference with changes stands for. -/
def composeOverlay (directive : Fields) (context : Context) : Except Fault Outcome := do
  let overlay ← Overlay.read directive
  match ← follow context overlay.path with
  | .missing | .pending => .ok .retry
  | .found v =>
    if overlay.isDue v then do
      let copy ← overlay.apply v
      .ok (.success copy)
    else .ok .retry

end Directive

namespace Handler

/-- A handler that remembers nothing. -/
def stateless {μ : Type} (name marker : String)
    (compose : Fields → Context → Except Fault Outcome) : Handler μ where
  name
  marker
  compose := fun directive context memory => (compose directive context, memory)

/-- The handler of references. -/
def reference {μ : Type} : Handler μ :=
  Handler.stateless "Reference" Directive.referenceMarker Directive.composeReference

/-- The handler of references with changes. -/
def overlay {μ : Type} : Handler μ :=
  Handler.stateless "ExtendedReference" Directive.overlayMarker Directive.composeOverlay

end Handler

end Docweave
