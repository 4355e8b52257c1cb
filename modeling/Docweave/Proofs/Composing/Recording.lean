import Docweave.Proofs.Composing.Extending

/-!
A record of what handlers answer.

Handlers with a record (`Handler.recording`) answer as they do without and write down what they
have answered where, so that one can say how often something was asked for in a whole run.
Composing with a record goes as it goes without (`Composer.compose_recording`).
-/

namespace Docweave

/-- A directive that was answered. -/
structure Answer where
  path : Path
  directive : Fields
  outcome : Outcome

/-- The handler with a record of what it has answered, the last answer first. -/
def Handler.recording {μ : Type} (handler : Handler μ) : Handler (μ × List Answer) where
  name := handler.name
  marker := handler.marker
  takes := handler.takes
  compose := fun directive context memory =>
    match handler.compose directive context memory.1 with
    | (.ok outcome, remembered) =>
      (.ok outcome, (remembered, ⟨context.path, directive, outcome⟩ :: memory.2))
    | (.error fault, remembered) => (.error fault, (remembered, memory.2))
  forget := fun memory => (handler.forget memory.1, memory.2)

/-- The composer with handlers that keep a record. -/
def Composer.recording {μ : Type} (composer : Composer μ) : Composer (μ × List Answer) where
  store := composer.store
  handlers := composer.handlers.map Handler.recording
  maxDepth := composer.maxDepth
  completed := composer.completed
  memory := (composer.memory, [])

namespace Handler

variable {μ : Type} {handlers : List (Handler μ)}

/-- **A handler answers with a record as it does without.** -/
theorem recording_extension : Extension Prod.fst (recording (μ := μ)) where
  marker := fun _ => rfl
  takes := fun _ => rfl
  compose := fun handler directive context memory => by
    rcases hcompose : handler.compose directive context memory.1 with ⟨fault | outcome, remembered⟩
    all_goals
      simp only [recording, hcompose]
      rfl
  forget := fun _ _ => rfl

theorem markers_recording (handlers : List (Handler μ)) :
    markers (handlers.map recording) = markers handlers :=
  recording_extension.markers handlers

theorem find?_recording (directive : Fields) :
    find? (handlers.map recording) directive = (find? handlers directive).map recording :=
  recording_extension.find? handlers directive

/-- What is answered is written down. -/
theorem recording_eq_ok {handler : Handler μ} {directive : Fields} {context : Context}
    {memory memory' : μ × List Answer} {outcome : Outcome}
    (h : handler.recording.compose directive context memory = (.ok outcome, memory')) :
    ∃ remembered, handler.compose directive context memory.1 = (.ok outcome, remembered) ∧
      memory' = (remembered, ⟨context.path, directive, outcome⟩ :: memory.2) := by
  rcases hcompose : handler.compose directive context memory.1 with ⟨fault | answered, remembered⟩
  all_goals
    simp only [recording, hcompose] at h
    obtain ⟨hok, rfl⟩ := Prod.mk.inj h
  · exact absurd hok (by simp)
  · obtain rfl := Except.ok.inj hok
    exact ⟨remembered, rfl, rfl⟩

end Handler

/-- **Composing with a record goes as it goes without.** -/
theorem Composer.compose_recording {μ : Type} (composer : Composer μ) (setting : Setting) :
    (composer.recording.compose setting).map
        (Prod.map id fun recorded => recorded.unrecorded composer.handlers) =
      composer.compose setting :=
  composeAt_extended Handler.recording_extension rfl setting .root

end Docweave
