import Docweave.Proofs.Composing.Frame

/-!
Handlers that answer with documents.

A handler is `Tidy` if whatever it answers has no key twice in a map, as long as the directive, the
document and what is remembered are as they should be; what that means for the memory is a
parameter.  Tidy handlers keep documents sound (`kept_of_tidy`).  That a value is composed as
a document of its own changes nothing, however deep such documents are nested, because what
composes them are the same handlers (`separately_tidy`).
-/

namespace Docweave

/-- No value that is written has a key twice. -/
def Outcome.WellFormed : Outcome → Prop
  | .success v | .completed v | .separate v => v.WellFormed
  | .retry => True

/-- The handler answers with documents and keeps the memory as it should be. -/
def Handler.Tidy {μ : Type} (remembers : μ → Prop) (handler : Handler μ) : Prop :=
  ∀ {directive context memory outcome memory'}, (Value.map directive).WellFormed →
    context.document.Sound → remembers memory →
    handler.compose directive context memory = (.ok outcome, memory') →
    outcome.WellFormed ∧ remembers memory'

/-- The handlers are tidy, and so is what composes documents of their own. -/
structure Workshop.Tidy {μ : Type} (remembers : μ → Prop) (workshop : Workshop μ) : Prop where
  handlers : ∀ handler ∈ workshop.handlers, handler.Tidy remembers
  separately : ∀ {backend v memory w memory'}, v.WellFormed → remembers memory →
    workshop.separately backend v memory = some (.ok w, memory') →
    w.WellFormed ∧ remembers memory'

namespace Composing

variable {μ : Type} {remembers : μ → Prop} {workshop : Workshop μ} {p q : Progress μ} {path : Path}
  {b : Bool}

/-- The document is sound and the memory is as it should be. -/
structure Proper (remembers : μ → Prop) (p : Progress μ) : Prop where
  sound : p.document.Sound
  memory : remembers p.memory

theorem Settled.effect {outcome : Outcome} (htidy : workshop.Tidy remembers)
    (houtcome : outcome.WellFormed) (hp : remembers p.memory)
    (h : Settled workshop path p outcome b q) :
    ∃ memory, remembers memory ∧ Effect path { p with memory } b q := by
  cases h with
  | retry => exact ⟨p.memory, hp, .retry⟩
  | expanded hcontainer hwrite => exact ⟨p.memory, hp, .expanded houtcome hcontainer hwrite⟩
  | replaced hscalar hwrite => exact ⟨p.memory, hp, .replaced houtcome hscalar hwrite⟩
  | completed hwrite => exact ⟨p.memory, hp, .completed houtcome hwrite⟩
  | separate hseparately hwrite =>
      obtain ⟨hw, hmemory⟩ := htidy.separately houtcome hp hseparately
      exact ⟨_, hmemory, .completed hw hwrite⟩

theorem Effect.memory_eq (h : Effect path p b q) : q.memory = p.memory := by
  cases h with
  | retry => rfl
  | expanded hv hcontainer hwrite | replaced hv hcontainer hwrite | completed hv hwrite =>
      exact hwrite.memory_eq

theorem Invoked.effect (htidy : workshop.Tidy remembers) (hp : Proper remembers p)
    (h : Invoked workshop path p b q) :
    (b = false ∧ q = p ∧ ∀ directive, p.document.get (.plain path) = .ok (.map directive) →
      Handler.find? workshop.handlers directive = none) ∨
    ∃ memory, remembers memory ∧ Effect path { p with memory } b q := by
  obtain huntaken | ⟨directive, handler, outcome, memory, hn, hfind, hcompose, hsettle⟩ :=
    h.untaken_or_handled hp.sound
  · exact .inl huntaken
  obtain ⟨houtcome, hmemory⟩ := htidy.handlers _ (List.mem_of_find?_eq_some hfind)
    (hp.sound.wellFormed.of_node? hn) hp.sound hp.memory hcompose
  obtain ⟨memory, hremembers, heffect⟩ := hsettle.effect htidy houtcome hmemory
  exact .inr ⟨memory, hremembers, heffect⟩

/-- **Handing a directive to tidy handlers keeps the document sound.** -/
theorem kept_of_tidy (htidy : workshop.Tidy remembers) : Kept workshop (Proper remembers) where
  sound hp := hp.sound
  noting hp := ⟨hp.sound, hp.memory⟩
  fresh hp := ⟨hp.sound, hp.memory⟩
  invoked := fun {path p b q} hroot hp h => by
    obtain ⟨-, rfl, -⟩ | ⟨memory, hmemory, heffect⟩ := h.effect htidy hp
    · exact hp
    have hsound := hp.sound
    obtain ⟨old, hn⟩ := h.exists_node hsound
    exact ⟨heffect.sound hsound hroot hn, heffect.memory_eq ▸ hmemory⟩
  effect hroot hp h :=
    (h.effect htidy hp).imp id fun ⟨memory, _, heffect⟩ => ⟨memory, heffect⟩

/-- **Documents of their own are composed to documents, however deep they are nested.** -/
theorem separately_tidy {handlers : List (Handler μ)}
    (hhandlers : ∀ handler ∈ handlers, handler.Tidy remembers) (setting : Setting) (maxDepth : Nat)
    (levels : Nat) :
    Workshop.Tidy remembers ⟨handlers, setting, separately handlers setting maxDepth levels⟩ := by
  induction levels with
  | zero =>
      refine ⟨hhandlers, fun {backend v memory w memory'} _ _ h => ?_⟩
      exact absurd h (by simp [separately])
  | succ levels ih =>
      refine ⟨hhandlers, fun {backend v memory w memory'} hv hmemory h => ?_⟩
      simp only [separately] at h
      split at h
      · exact absurd h (by simp)
      · rename_i progress hpasses
        obtain ⟨hw, rfl⟩ := Prod.mk.inj (Option.some.inj h)
        obtain rfl := Except.ok.inj hw
        have hend := (kept_of_tidy ih).ended (Ended.of_passes hpasses)
          ⟨Store.sound_wrap hv backend, hmemory⟩
        exact ⟨hend.sound.wellFormed, hend.memory⟩
      · exact absurd h (by simp)

theorem workshop_tidy {composer : Composer μ}
    (hhandlers : ∀ handler ∈ composer.handlers, handler.Tidy remembers) (setting : Setting) :
    (composer.workshop setting).Tidy remembers :=
  separately_tidy hhandlers setting composer.maxDepth composer.maxDepth

end Composing

end Docweave
