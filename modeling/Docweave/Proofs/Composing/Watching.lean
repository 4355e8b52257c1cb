import Docweave.Proofs.Composing.Extending

/-!
A composer that is used again and again, and watched all the time.

A composer composes at one pointer after the other, and in between may be told to forget
(`Composer.serve`).  Watched handlers write down every directive they are handed, what they answer
and what they remember before and after, whether they answer with a fault or not; to forget is to
begin a new record.  Watching changes nothing (`Composer.serve_watched`).

What handlers remember is looked at when all that was asked for is done and after every single
answer (`Composer.Remembers`), so that composing that never ends is not left out.  What every
handler keeps, and forgetting keeps too, is the case at all of these moments
(`Composer.Remembers.preserved`).
-/

namespace Docweave

/-- A directive that was handed to a handler, and what came of it. -/
structure Asking (μ : Type) where
  /-- The marker of the handler. -/
  marker : String
  directive : Fields
  before : μ
  result : Except Fault Outcome
  after : μ

/-- The handler with a record of what it was asked since it last forgot, the last first. -/
def Handler.watched {μ : Type} (handler : Handler μ) : Handler (μ × List (Asking μ)) where
  name := handler.name
  marker := handler.marker
  takes := handler.takes
  compose := fun directive context memory =>
    let answer := handler.compose directive context memory.1
    (answer.1, (answer.2, ⟨handler.marker, directive, memory.1, answer.1, answer.2⟩ :: memory.2))
  forget := fun memory => (handler.forget memory.1, [])

namespace Handler

variable {μ : Type} {handlers : List (Handler μ)}

theorem watched_extension : Extension Prod.fst (watched (μ := μ)) where
  marker := fun _ => rfl
  takes := fun _ => rfl
  compose := fun _ _ _ _ => rfl
  forget := fun _ _ => rfl

theorem forgetAll_watched_record (hne : handlers ≠ []) (memory : μ × List (Asking μ)) :
    (forgetAll (handlers.map watched) memory).2 = [] := by
  obtain ⟨others, last, rfl⟩ := (List.eq_nil_or_concat' handlers).resolve_left hne
  simp only [forgetAll, List.map_append, List.foldl_append]
  rfl

end Handler

namespace Composer

variable {μ : Type}

/-- What a composer is asked to do. -/
inductive Request where
  | compose (setting : Setting) (start : Pointer)
  | forget

/-- The composer with handlers that are watched. -/
def watched (composer : Composer μ) : Composer (μ × List (Asking μ)) where
  store := composer.store
  handlers := composer.handlers.map Handler.watched
  maxDepth := composer.maxDepth
  completed := composer.completed
  memory := (composer.memory, [])

/-- The composer after one request after the other, if composing ends every time, be it in a
fault. -/
def serve (composer : Composer μ) : List Request → Option (Composer μ)
  | [] => some composer
  | .compose setting start :: requests =>
    (composer.composeAt setting start).bind fun end_ => end_.2.serve requests
  | .forget :: requests => composer.forget.serve requests

/-- What is remembered at some moment: when requests have been served, or right after an answer in
the course of one more, which need not end. -/
inductive Remembers (composer : Composer μ) : μ → Prop
  | served {requests : List Request} {composer' : Composer μ}
      (hserve : composer.serve requests = some composer') : Remembers composer composer'.memory
  | answered {requests : List Request} {composer' : Composer μ} {setting : Setting}
      {start : Pointer} {inner : Composing.Run μ} {site : Path} {s : Progress μ}
      {directive : Fields} {handler : Handler μ}
      (hserve : composer.serve requests = some composer')
      (hinner : (composer'.run setting start).Nests inner)
      (hmeets : inner.Meets site s directive handler) :
      Remembers composer
        (handler.compose directive (Composing.contextAt inner.workshop site s) s.memory).2

end Composer

namespace Composer

open Composing

variable {μ : Type} {composer : Composer μ} {handlers : List (Handler μ)}

theorem serve_compose {composer' : Composer μ} {setting : Setting} {start : Pointer}
    {result : Except Fault Unit} (h : composer.composeAt setting start = some (result, composer')) :
    composer.serve [.compose setting start] = some composer' := by
  simp only [serve, h, Option.bind_some]

theorem handlers_of_composeAt {composer' : Composer μ} {setting : Setting} {start : Pointer}
    {result : Except Fault Unit} (h : composer.composeAt setting start = some (result, composer')) :
    composer'.handlers = composer.handlers := by
  obtain ⟨q, -, rfl⟩ := exists_ran_of_composeAt h
  rfl

/-- What composing keeps, and forgetting if there is a request for it, is kept by all requests. -/
theorem serve_kept {P : Composer μ → Prop} {composer' : Composer μ} {requests : List Request}
    (hcompose : ∀ {composer setting start result composer'}, P composer →
      composer.composeAt setting start = some (result, composer') → P composer')
    (hforget : .forget ∈ requests → ∀ {composer}, P composer → P composer.forget)
    (hp : P composer) (h : composer.serve requests = some composer') : P composer' := by
  induction requests generalizing composer with
  | nil =>
      obtain rfl := Option.some.inj h
      exact hp
  | cons request requests ih =>
      have hrest : .forget ∈ requests → ∀ {composer}, P composer → P composer.forget :=
        fun hmem => hforget (List.mem_cons_of_mem _ hmem)
      cases request with
      | compose setting start =>
          obtain ⟨⟨result, next⟩, hnext, hserve⟩ := Option.bind_eq_some_iff.mp h
          exact ih hrest (hcompose hp hnext) hserve
      | forget => exact ih hrest (hforget List.mem_cons_self hp) h

theorem handlers_of_serve {composer' : Composer μ} {requests : List Request}
    (h : composer.serve requests = some composer') : composer'.handlers = composer.handlers :=
  serve_kept (P := fun c => c.handlers = composer.handlers)
    (fun hc hnext => (handlers_of_composeAt hnext).trans hc) (fun _ _ hc => hc) rfl h

/-- **Watching the handlers of a composer changes nothing.** -/
theorem serve_watched (composer : Composer μ) (requests : List Request) :
    (composer.watched.serve requests).map (fun watched => watched.unrecorded composer.handlers) =
      composer.serve requests := by
  suffices hserve : ∀ watched : Composer (μ × List (Asking μ)),
      watched.handlers = composer.handlers.map Handler.watched →
      (watched.serve requests).map (fun watched => watched.unrecorded composer.handlers) =
        (watched.unrecorded composer.handlers).serve requests from
    hserve composer.watched rfl
  induction requests with
  | nil => exact fun watched _ => rfl
  | cons request requests ih =>
      intro watched hhandlers
      cases request with
      | compose setting start =>
          have hcompose : (watched.composeAt setting start).map
              (Prod.map id fun end_ => end_.unrecorded composer.handlers) =
                (watched.unrecorded composer.handlers).composeAt setting start :=
            composeAt_extended Handler.watched_extension hhandlers setting start
          simp only [serve, ← hcompose]
          cases hend : watched.composeAt setting start with
          | none => rfl
          | some end_ => exact ih end_.2 ((handlers_of_composeAt hend).trans hhandlers)
      | forget =>
          have hforget : watched.forget.unrecorded composer.handlers =
              (watched.unrecorded composer.handlers).forget := by
            simp only [unrecorded, forget, exchanged, hhandlers,
              Handler.watched_extension.forgetAll]
          simp only [serve, ← hforget]
          exact ih watched.forget hhandlers

/-! ### What is the case at every moment -/

variable {Inv : μ → Prop} {memory : μ}

theorem memory_of_composeAt {composer' : Composer μ} {setting : Setting} {start : Pointer}
    {result : Except Fault Unit}
    (hhandlers : ∀ setting, ∀ handler ∈ composer.handlers, handler.Preserves setting Inv)
    (hmemory : Inv composer.memory)
    (h : composer.composeAt setting start = some (result, composer')) : Inv composer'.memory := by
  obtain ⟨⟨result, q⟩, hpasses, heq⟩ := Option.map_eq_some_iff.mp h
  obtain ⟨-, rfl⟩ := Prod.mk.inj heq
  have hresult : (composer.run setting start).result = some (result, q) := hpasses
  exact Run.memory_of_result (hhandlers setting) hmemory hresult

theorem memory_of_serve {composer' : Composer μ} {requests : List Request}
    (hhandlers : ∀ setting, ∀ handler ∈ composer.handlers, handler.Preserves setting Inv)
    (hforget : .forget ∈ requests →
      ∀ memory, Inv memory → Inv (Handler.forgetAll composer.handlers memory))
    (hmemory : Inv composer.memory) (h : composer.serve requests = some composer') :
    Inv composer'.memory := by
  refine (serve_kept (P := fun c => c.handlers = composer.handlers ∧ Inv c.memory)
    (fun {c _ _ _ _} ⟨hc, hinv⟩ hnext => ?_) (fun hmem {c} ⟨hc, hinv⟩ => ?_) ⟨rfl, hmemory⟩ h).2
  · exact ⟨(handlers_of_composeAt hnext).trans hc,
      memory_of_composeAt (hc.symm ▸ hhandlers) hinv hnext⟩
  · have hforgotten := hforget hmem _ hinv
    rw [← hc] at hforgotten
    exact ⟨hc, hforgotten⟩

/-- **What every handler keeps, and forgetting too, is the case at every moment.** -/
theorem Remembers.preserved (h : composer.Remembers memory)
    (hhandlers : ∀ setting, ∀ handler ∈ composer.handlers, handler.Preserves setting Inv)
    (hforget : ∀ memory, Inv memory → Inv (Handler.forgetAll composer.handlers memory))
    (hmemory : Inv composer.memory) : Inv memory := by
  cases h with
  | served hserve => exact memory_of_serve hhandlers (fun _ => hforget) hmemory hserve
  | @answered _ composer' setting start inner site s directive handler hserve hinner hmeets =>
      have hserved := memory_of_serve hhandlers (fun _ => hforget) hmemory hserve
      have hrun : ∀ handler ∈ composer'.handlers, handler.Preserves setting Inv :=
        (handlers_of_serve hserve).symm ▸ hhandlers setting
      have hinner' := hinner.preserves hrun
      exact hinner' handler (List.mem_of_find?_eq_some hmeets.find) _ _ _ rfl
        (Run.memory_of_meets hinner' (Run.memory_of_nests hrun hserved hinner) hmeets)

end Composer

end Docweave
