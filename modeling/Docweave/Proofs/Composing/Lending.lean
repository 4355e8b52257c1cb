import Docweave.Proofs.Composing.Watching

/-!
Handlers that are handed over and handed back.

`Composing.separately` is given the handlers again for every document of its own.  Here they are
part of the state: a composer owns its crew, which is its handlers with what they remember, and
there is no other.  To compose a value as a document of its own it takes the crew away from the
document around it, which is left without a handler, and puts it back when the work is done, before
a fault goes on (`Bench.apart`).  Directives are found by their markers, which everyone knows,
but only handlers that are there can answer them, so a document that does not get its crew back is
left as it is from then on.

`Foreman.serve_eq` says that nothing of the kind happens: whatever the foreman is asked for it comes
to what a composer comes to that has its handlers for good, and holds them all again after every
request, with what they have learned.  The two go together step by step, since at every step of the
work whoever is at work has the whole crew (`Whole`).
-/

namespace Docweave

variable {μ : Type}

/-- Handlers with what they remember. -/
structure Crew (μ : Type) where
  handlers : List (Handler μ)
  memory : μ

/-- Takes the whole crew and leaves no one. -/
def Crew.take : ExceptT Fault (StateT (Crew μ) Option) (Crew μ) := do
  let crew ← get
  set { crew with handlers := [] }
  pure crew

/-- What stays the same while a document is composed with handlers that are part of the state. -/
structure Bench (μ : Type) where
  markers : List String
  setting : Setting
  /-- Composes a value as a document of its own. -/
  separately : Backend → Value → ExceptT Fault (StateT (Crew μ) Option) Value

namespace Bench

open Composing

/-- What is needed to do what a handler answers.  No handler is looked for any more. -/
def workshop (bench : Bench μ) : Workshop (Crew μ) :=
  ⟨[], bench.setting, bench.separately⟩

/-- Hands the directive at a node to its handler, if there is one in the crew. -/
def invoke (bench : Bench μ) (path : Path) : Composing (Crew μ) Bool := fun progress =>
  match progress.document.get (.plain path) with
  | .error fault => some (.error fault, progress)
  | .ok v =>
    match v with
    | .map directive =>
      match Handler.find? progress.memory.handlers directive with
      | none => some (.ok false, progress)
      | some handler =>
        let context : Context := ⟨progress.document, path, bench.markers, bench.setting⟩
        match handler.compose directive context progress.memory.memory with
        | (.ok outcome, memory) =>
          settle bench.workshop path outcome
            { progress with memory := { progress.memory with memory } }
        | (.error fault, memory) =>
          some (.error (.composition (.plain path) fault),
            { progress with memory := { progress.memory with memory } })
    | _ => some (.ok false, progress)

/-- At a bench directives are told by the markers that everyone knows. -/
@[coe]
abbrev handover (bench : Bench μ) : Handover (Crew μ) :=
  ⟨bench.markers, bench.invoke⟩

instance : Coe (Bench μ) (Handover (Crew μ)) :=
  ⟨handover⟩

/-- Composes a value as a document of its own; so many more may be nested in it.  The crew is taken
from the document around it, and is back there before a fault of its own is one of that document. -/
def apart (markers : List String) (setting : Setting) (maxDepth : Nat) :
    Nat → Backend → Value → ExceptT Fault (StateT (Crew μ) Option) Value
  | 0, _, _ => throw (.refused .root (.contextDepth maxDepth))
  | levels + 1, backend, v => do
    let crew ← Crew.take
    let (result, progress) ←
      passes (⟨markers, setting, apart markers setting maxDepth levels⟩ : Bench μ) [[]]
        ⟨Store.wrap backend v, [], crew, [], false⟩
    set progress.memory
    match result with
    | .ok () => pure progress.document.content
    | .error fault => throw fault

end Bench

/-- A composer that owns its handlers. -/
structure Foreman (μ : Type) where
  store : Store
  crew : Crew μ
  /-- The markers of its handlers. -/
  markers : List String
  maxDepth : Nat
  /-- Nodes that hold their value for good. -/
  completed : List Path

namespace Foreman

open Composing

/-- What stays the same while the foreman works. -/
def bench (foreman : Foreman μ) (setting : Setting) : Bench μ :=
  ⟨foreman.markers, setting,
    Bench.apart foreman.markers setting foreman.maxDepth foreman.maxDepth⟩

/-- Composes the node a pointer addresses and everything below it. -/
def composeAt (setting : Setting) (foreman : Foreman μ) (start : Pointer) :
    Option (Except Fault Unit × Foreman μ) :=
  (passes (foreman.bench setting) (Composer.startWorklist start)
      ⟨foreman.store, foreman.completed, foreman.crew, [], false⟩).map fun (result, progress) =>
    (result, { foreman with
      store := progress.document, completed := progress.completed, crew := progress.memory })

/-- Forgets which nodes hold their value for good, and all that handlers remember. -/
def forget (foreman : Foreman μ) : Foreman μ :=
  { foreman with
    completed := []
    crew := { foreman.crew with
      memory := Handler.forgetAll foreman.crew.handlers foreman.crew.memory } }

/-- The foreman after one request after the other, if composing ends every time, be it in a
fault. -/
def serve (foreman : Foreman μ) : List Composer.Request → Option (Foreman μ)
  | [] => some foreman
  | .compose setting start :: requests =>
    (foreman.composeAt setting start).bind fun end_ => end_.2.serve requests
  | .forget :: requests => foreman.forget.serve requests

end Foreman

/-- The composer as the foreman of its handlers. -/
def Composer.foreman (composer : Composer μ) : Foreman μ where
  store := composer.store
  crew := ⟨composer.handlers, composer.memory⟩
  markers := Handler.markers composer.handlers
  maxDepth := composer.maxDepth
  completed := composer.completed

/-! ### The work goes the same way -/

open Composing

namespace Bench

variable {bench : Bench μ} {workshop : Workshop μ} {p : Progress μ} {crew : Crew μ}

/-- The crew is all there, and remembers what is remembered. -/
def Whole (handlers : List (Handler μ)) (memory : μ) (crew : Crew μ) : Prop :=
  crew = ⟨handlers, memory⟩

/-- The bench is for the work that is done in a workshop. -/
structure Serves (bench : Bench μ) (workshop : Workshop μ) : Prop where
  markers : bench.markers = Handler.markers workshop.handlers
  setting : bench.setting = workshop.setting
  separately : ∀ backend v memory crew, Whole workshop.handlers memory crew →
    Together Eq (Whole workshop.handlers) (workshop.separately backend v memory)
      (bench.separately backend v crew)

namespace Serves

variable (h : bench.Serves workshop)

include h

theorem invoke (path : Path) (hp : Whole workshop.handlers p.memory crew) :
    Together Eq (Agree (Whole workshop.handlers)) (Composing.invoke workshop path p)
      (bench.invoke path (p.withMemory crew)) := by
  obtain rfl : crew = ⟨workshop.handlers, p.memory⟩ := hp
  have hdocument : (p.withMemory (⟨workshop.handlers, p.memory⟩ : Crew μ)).document = p.document :=
    rfl
  have hmemory : (p.withMemory (⟨workshop.handlers, p.memory⟩ : Crew μ)).memory = ⟨_, _⟩ := rfl
  simp only [Composing.invoke, Bench.invoke, hdocument, hmemory, h.markers, h.setting]
  cases p.document.get (.plain path) with
  | error fault => exact .fault rfl (.intro rfl)
  | ok v =>
  cases v with
  | map directive =>
      cases hfind : Handler.find? workshop.handlers directive with
      | none =>
          simp only [hfind]
          exact .ok (.intro rfl)
      | some handler =>
          simp only [hfind]
          generalize handler.compose directive _ p.memory = answer
          obtain ⟨fault | outcome, memory⟩ := answer
          · exact .fault rfl (.intro (p := { p with memory }) rfl)
          · refine Together.settle likens_eq path outcome (p := { p with memory }) rfl fun v _ => ?_
            exact h.separately _ _ _ _ rfl
  | _ => exact .ok (.intro rfl)

theorem passes (worklist : List Path) (hp : Whole workshop.handlers p.memory crew) :
    Together Eq (Agree (Whole workshop.handlers)) (Composing.passes workshop worklist p)
      (Composing.passes bench worklist (p.withMemory crew)) :=
  passes_together likens_eq h.markers hp fun site _ _ _ hs => h.invoke site hs

end Serves

/-- Composing a value as a document of its own is composing with the crew of the document around it,
which has it back in the end. -/
theorem apart_succ (markers : List String) (setting : Setting) (maxDepth levels : Nat)
    (backend : Backend) (v : Value) (crew : Crew μ) :
    apart markers setting maxDepth (levels + 1) backend v crew =
      (Composing.passes (⟨markers, setting, apart markers setting maxDepth levels⟩ : Bench μ) [[]]
        ⟨Store.wrap backend v, [], crew, [], false⟩).map outcomeOf := by
  rw [apart]
  show (Option.bind _ _ : Option _) = _
  generalize Composing.passes (⟨markers, setting, apart markers setting maxDepth levels⟩ : Bench μ)
    [[]] ⟨Store.wrap backend v, [], crew, [], false⟩ = end_
  rcases end_ with _ | ⟨fault | _, progress⟩ <;> rfl

/-- **A document of its own gives the whole crew back, however it ends.** -/
theorem apart_together {handlers : List (Handler μ)} {setting : Setting} {maxDepth : Nat}
    (levels : Nat) (backend : Backend) (v : Value) (memory : μ) (crew : Crew μ)
    (hcrew : Whole handlers memory crew) :
    Together Eq (Whole handlers)
      (Composing.separately handlers setting maxDepth levels backend v memory)
      (apart (Handler.markers handlers) setting maxDepth levels backend v crew) := by
  induction levels generalizing backend v memory crew with
  | zero => exact .fault rfl hcrew
  | succ levels ih =>
      have hserves : (⟨Handler.markers handlers, setting,
          apart (Handler.markers handlers) setting maxDepth levels⟩ : Bench μ).Serves
          ⟨handlers, setting, Composing.separately handlers setting maxDepth levels⟩ :=
        ⟨rfl, rfl, ih⟩
      have hpasses := hserves.passes [[]] (p := ⟨Store.wrap backend v, [], memory, [], false⟩) hcrew
      let run : Run μ := ⟨handlers, setting, maxDepth, levels, [],
        ⟨Store.wrap backend v, [], memory, [], false⟩⟩
      rw [apart_succ, separately_succ run]
      exact hpasses.map (fun _ _ _ ⟨hwhole⟩ => .ok hwhole)
        fun _ _ _ _ hfault ⟨hwhole⟩ => .fault hfault hwhole

end Bench

namespace Foreman

/-- The bench of the foreman is for the work of the composer. -/
theorem serves (composer : Composer μ) (setting : Setting) :
    (composer.foreman.bench setting).Serves (composer.workshop setting) where
  markers := rfl
  setting := rfl
  separately := Bench.apart_together composer.maxDepth

/-- **The foreman comes to what the composer comes to, and has the whole crew again, whether that is
a fault or not.** -/
theorem composeAt_eq (composer : Composer μ) (setting : Setting) (start : Pointer) :
    composer.foreman.composeAt setting start =
      (composer.composeAt setting start).map (Prod.map id Composer.foreman) := by
  have hwhole : Bench.Whole composer.handlers composer.progress.memory composer.foreman.crew := rfl
  have hpasses := (serves composer setting).passes (Composer.startWorklist start) hwhole
  show Option.map _ (passes (composer.foreman.bench setting) _
    (composer.progress.withMemory composer.foreman.crew)) = Option.map _ (Option.map _ _)
  generalize passes (composer.foreman.bench setting).handover _ _ = y at hpasses
  generalize passes (composer.workshop setting).handover _ _ = x at hpasses
  cases hpasses with
  | never => rfl
  | ok h =>
      obtain ⟨h⟩ := h
      obtain rfl := h
      rfl
  | fault hfault h =>
      obtain ⟨h⟩ := h
      obtain rfl := h
      obtain rfl := hfault
      rfl

/-- **Whatever the foreman is asked for, it comes to what the composer comes to.** -/
theorem serve_eq (composer : Composer μ) (requests : List Composer.Request) :
    composer.foreman.serve requests = (composer.serve requests).map Composer.foreman := by
  induction requests generalizing composer with
  | nil => rfl
  | cons request requests ih =>
      cases request with
      | compose setting start =>
          simp only [serve, Composer.serve, composeAt_eq]
          cases composer.composeAt setting start with
          | none => rfl
          | some end_ => exact ih end_.2
      | forget => exact ih composer.forget

end Foreman

end Docweave
