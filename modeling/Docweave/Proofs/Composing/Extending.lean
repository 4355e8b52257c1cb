import Docweave.Proofs.Composing.Together

/-!
Handlers that remember more.

Handlers may be changed so that they answer as before and remember what they did and something
besides, a record of their answers for one (`Handler.Extension`).  A composer with such handlers
composes as the composer with those they were made from, whatever is remembered besides
(`Composer.composeAt_extended`).
-/

namespace Docweave

variable {μ ν : Type} {seen : ν → μ} {extend : Handler μ → Handler ν}

/-- Handlers answer as those they are made from, and remember what these do and more. -/
structure Handler.Extension (seen : ν → μ) (extend : Handler μ → Handler ν) : Prop where
  marker : ∀ handler, (extend handler).marker = handler.marker
  takes : ∀ handler, (extend handler).takes = handler.takes
  compose : ∀ handler directive context memory,
    Prod.map id seen ((extend handler).compose directive context memory) =
      handler.compose directive context (seen memory)
  forget : ∀ handler memory,
    seen ((extend handler).forget memory) = handler.forget (seen memory)

namespace Handler

theorem Extension.markers (hextends : Extension seen extend) (handlers : List (Handler μ)) :
    Handler.markers (handlers.map extend) = Handler.markers handlers := by
  simp only [Handler.markers, List.map_map, Function.comp_def, hextends.marker]

theorem Extension.find? (hextends : Extension seen extend) (handlers : List (Handler μ))
    (directive : Fields) :
    Handler.find? (handlers.map extend) directive =
      (Handler.find? handlers directive).map extend := by
  simp only [Handler.find?, List.find?_map, Function.comp_def, hextends.takes]

theorem Extension.forgetAll (hextends : Extension seen extend) (handlers : List (Handler μ))
    (memory : ν) :
    seen (Handler.forgetAll (handlers.map extend) memory) =
      Handler.forgetAll handlers (seen memory) := by
  simp only [Handler.forgetAll, List.foldl_map]
  induction handlers generalizing memory with
  | nil => rfl
  | cons handler handlers ih =>
      rw [List.foldl_cons, ih, hextends.forget]
      rfl

end Handler

namespace Composing

open Handler

/-- **A run goes the same way when handlers remember more.** -/
theorem Run.together_extended (hextends : Extension seen extend) (run : Run μ) {n : ν}
    (hseen : seen n = run.progress.memory) :
    Together Eq (Agree fun memory n => seen n = memory) run.result
      (run.exchanged (run.handlers.map extend) run.maxDepth n).result := by
  refine Run.together likens_eq rfl (hextends.markers _)
    (fun directive hnone => by rw [hextends.find?, hnone, Option.map_none]) ?_ hseen
  intro inner hinner site s directive handler hmeets
  have hfind : Handler.find? run.handlers directive = some handler :=
    hinner.handlers_eq ▸ hmeets.find
  refine ⟨extend handler, by rw [hextends.find?, hfind, Option.map_some], fun m hm => ?_⟩
  have hanswer := hextends.compose handler directive (contextAt inner.workshop site s) m
  rw [hm] at hanswer
  exact .of_fst_eq likens_eq (congrArg Prod.fst hanswer).symm (congrArg Prod.snd hanswer)

end Composing

namespace Composer

open Composing

/-- The composer with other handlers, which remember something else. -/
def exchanged (composer : Composer ν) (handlers : List (Handler μ)) (memory : μ) : Composer μ where
  store := composer.store
  handlers := handlers
  maxDepth := composer.maxDepth
  completed := composer.completed
  memory := memory

/-- The composer with the handlers that others were made from, without what these remember
besides. -/
def unrecorded {α : Type} (composer : Composer (μ × α)) (handlers : List (Handler μ)) :
    Composer μ :=
  composer.exchanged handlers composer.memory.1

/-- **Composing goes the same way when handlers remember more.** -/
theorem composeAt_extended (hextends : Handler.Extension seen extend) {composer : Composer ν}
    {handlers : List (Handler μ)} (hhandlers : composer.handlers = handlers.map extend)
    (setting : Setting) (start : Pointer) :
    (composer.composeAt setting start).map
        (Prod.map id fun end_ => end_.exchanged handlers (seen end_.memory)) =
      (composer.exchanged handlers (seen composer.memory)).composeAt setting start := by
  let plain := composer.exchanged handlers (seen composer.memory)
  let planned := plain.run setting start
  have hrun : planned.exchanged (planned.handlers.map extend) planned.maxDepth composer.memory =
      composer.run setting start := by
    show _ = (⟨composer.handlers, _, _, _, _, _⟩ : Run ν)
    rw [hhandlers]
    rfl
  have htogether : Together Eq (Agree fun memory n => seen n = memory) planned.result
      (composer.run setting start).result :=
    hrun ▸ planned.together_extended hextends rfl
  show ((composer.run setting start).result.map _).map _ =
    planned.result.map _
  generalize (composer.run setting start).result = x at htogether
  generalize planned.result = y at htogether
  have hresume : ∀ p (n : ν), seen n = p.memory →
      (composer.resume (p.withMemory n)).exchanged handlers (seen n) = plain.resume p := by
    rintro p n hmemory
    simp only [exchanged, resume, Progress.withMemory, hmemory]
    rfl
  cases htogether with
  | never => rfl
  | ok h =>
      obtain ⟨h⟩ := h
      exact congrArg (fun composer => some (Except.ok (), composer)) (hresume _ _ h)
  | fault hfault h =>
      obtain ⟨h⟩ := h
      subst hfault
      exact congrArg (fun composer => some (Except.error _, composer)) (hresume _ _ h)

end Composer

end Docweave
