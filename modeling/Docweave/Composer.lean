import Docweave.Composer.Pass

/-!
Composing documents until no directive is left.

The nodes that a pass leaves for later are the worklist of the next pass.  Composing ends when no
node is left.  It has failed when a pass changes nothing and leaves the very worklist it started
with, since then every later pass would do the same.

A value that is composed as a document of its own is composed the same way, with the same handlers
and the same memory.  Such documents are nested at most `maxDepth` deep.  The passes over one
document are not limited: composing that never ends has no result, which is `none`.
-/

namespace Docweave

/-- A document that is being composed, with its handlers and what they remember. -/
structure Composer (μ : Type) where
  store : Store
  handlers : List (Handler μ)
  /-- How deep documents of their own are nested. -/
  maxDepth : Nat
  /-- Nodes that hold their value for good. -/
  completed : List Path
  memory : μ

namespace Composing

variable {μ : Type}

/-- The nodes that were left for later, with their values. -/
def leftovers (document : Store) (paths : List Path) : List Leftover :=
  paths.map fun path => ⟨path, document.getD (.plain path) .null⟩

/-- What a pass leaves to be done. -/
inductive Round (μ : Type) where
  /-- Composing is over. -/
  | ended (result : Except Fault Unit) (progress : Progress μ)
  /-- There is a next pass, over this worklist. -/
  | next (worklist : List Path) (progress : Progress μ)

/-- What follows from a pass over a worklist that came to its end. -/
def verdict (worklist : List Path) (progress : Progress μ) : Round μ :=
  let next := Worklist.normalize progress.revisit.reverse
  if next.isEmpty then .ended (.ok ()) progress
  else if next == worklist && !progress.changed then
    .ended (.error (.unresolvable (leftovers progress.document next))) progress
  else .next next progress

end Composing

namespace Handover

open Composing

variable {μ : Type}

/-- Makes one pass. -/
def round (handover : Handover μ) (worklist : List Path) (progress : Progress μ) :
    Option (Round μ) :=
  match pass handover worklist { progress with revisit := [], changed := false } with
  | none => none
  | some (.error fault, progress) => some (.ended (.error fault) progress)
  | some (.ok (), progress) => some (verdict worklist progress)

/-- Makes passes until composing is over. -/
def passes (handover : Handover μ) (worklist : List Path) (progress : Progress μ) :
    Option (Except Fault Unit × Progress μ) :=
  match round handover worklist progress with
  | none => none
  | some (.ended result progress) => some (result, progress)
  | some (.next worklist progress) => handover |>.passes worklist progress
partial_fixpoint

end Handover

namespace Composing

export Handover (round passes)

variable {μ : Type}

/-- Composes a value as a document of its own; so many more may be nested in it. -/
def separately (handlers : List (Handler μ)) (setting : Setting) (maxDepth : Nat) :
    Nat → Backend → Value → ExceptT Fault (StateT μ Option) Value
  | 0, _, _ => fun memory => some (.error (.refused .root (.contextDepth maxDepth)), memory)
  | levels + 1, backend, v => fun memory =>
    let workshop : Workshop μ :=
      ⟨handlers, setting, separately handlers setting maxDepth levels⟩
    match passes workshop [[]] ⟨Store.wrap backend v, [], memory, [], false⟩ with
    | none => none
    | some (.ok (), progress) => some (.ok progress.document.content, progress.memory)
    | some (.error fault, progress) => some (.error fault, progress.memory)

end Composing

namespace Composer

variable {μ : Type}

/-- A composer for a document that nothing has been done to. -/
def new (store : Store) (handlers : List (Handler μ)) (maxDepth : Nat) (memory : μ) :
    Composer μ :=
  ⟨store, handlers, maxDepth, [], memory⟩

/-- What stays the same while the composer works. -/
def workshop (composer : Composer μ) (setting : Setting) : Workshop μ :=
  ⟨composer.handlers, setting,
    Composing.separately composer.handlers setting composer.maxDepth composer.maxDepth⟩

/-- The worklist to start with: a file pointer addresses no node. -/
def startWorklist (start : Pointer) : List Path :=
  match start.path? with
  | some path => [path]
  | none => []

/-- The state of composing before the first pass. -/
def progress (composer : Composer μ) : Progress μ :=
  ⟨composer.store, composer.completed, composer.memory, [], false⟩

/-- The composer after composing has come to a state. -/
def resume (composer : Composer μ) (progress : Progress μ) : Composer μ :=
  { composer with
    store := progress.document, completed := progress.completed, memory := progress.memory }

/-- Composes the node a pointer addresses and everything below it.  The composer goes on with what
it has come to, also when that is a fault; there is no result if composing never ends. -/
def composeAt (setting : Setting) (composer : Composer μ) (start : Pointer) :
    Option (Except Fault Unit × Composer μ) :=
  (Composing.passes (composer.workshop setting) (startWorklist start) composer.progress).map
    fun (result, progress) => (result, composer.resume progress)

/-- Composes the whole document. -/
def compose (setting : Setting) (composer : Composer μ) :
    Option (Except Fault Unit × Composer μ) :=
  composer.composeAt setting .root

/-- Forgets which nodes hold their value for good, and all that handlers remember. -/
def forget (composer : Composer μ) : Composer μ :=
  { composer with
    completed := [], memory := Handler.forgetAll composer.handlers composer.memory }

end Composer

end Docweave
