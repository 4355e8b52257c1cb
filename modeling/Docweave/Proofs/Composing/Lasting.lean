import Docweave.Proofs.Composing.Untouched
import Docweave.Proofs.Composing.Watching

/-!
What lasts however composing ends.

A directive may be handed over in vain, and its handler may have learned something by then.  That is
all that is left of it: what a tidy handler answers can be written, so the document, the nodes that
hold their value for good and the nodes noted for later are as they were (`Lasting.failed`).  So an
invariant that handing over keeps is kept by every action, whether it fails or not, and what has
happened has happened at the node (`Lasting.result`).

For handlers that keep their memory in order also when they fail (`Handler.Retains`), the invariant
is that the document is sound.  It holds after any requests (`Composer.proper_of_serve`) and of all
documents that are composed on their own (`Run.proper_of_nests`).
-/

namespace Docweave

/-- What the handler remembers stays as it should be also when it fails. -/
def Handler.Retains {μ : Type} (remembers : μ → Prop) (handler : Handler μ) : Prop :=
  ∀ {directive context memory fault memory'}, (Value.map directive).WellFormed →
    context.document.Sound → remembers memory →
    handler.compose directive context memory = (.error fault, memory') → remembers memory'

/-- The handlers retain, and so does what composes documents of their own. -/
structure Workshop.Retains {μ : Type} (remembers : μ → Prop) (workshop : Workshop μ) : Prop where
  handlers : ∀ handler ∈ workshop.handlers, handler.Retains remembers
  separately : ∀ {backend v memory fault memory'}, v.WellFormed → remembers memory →
    workshop.separately backend v memory = some (.error fault, memory') → remembers memory'

namespace Composing

variable {μ : Type} {remembers : μ → Prop} {workshop : Workshop μ} {Inv : Progress μ → Prop}
  {p q : Progress μ} {path : Path} {fault : Fault} {worklist : List Path}

/-- Handing over keeps an invariant also if it fails, and then it changes the memory alone. -/
structure Lasting (workshop : Workshop μ) (Inv : Progress μ → Prop) : Prop
    extends Kept workshop Inv where
  failed : ∀ {path p fault q}, path ≠ [] → Inv p →
    invoke workshop path p = some (.error fault, q) → Inv q ∧ ∃ memory, q = { p with memory }

/-- Looking through entries fails at the first of them, or comes to the others. -/
theorem scanFields_cons_result {e : String × Value} {es : List (String × Value)}
    {result : Except Fault Bool}
    (h : Composing.scanFields workshop path (e :: es) p = some (result, q)) :
    (∃ fault, Composing.scan workshop (path.child e.1) e.2 p = some (.error fault, q)) ∨
      ∃ here r rest, Composing.scan workshop (path.child e.1) e.2 p = some (.ok here, r) ∧
        Composing.scanFields workshop path es r = some (rest, q) := by
  obtain ⟨token, v⟩ := e
  rw [Composing.scanFields] at h
  obtain hhere | ⟨here, r, hhere, h⟩ := bind_eq_some h
  · exact .inl hhere
  obtain ⟨fault, hthere⟩ | ⟨there, s, hthere, h⟩ := bind_eq_some h
  · exact .inr ⟨here, r, .error fault, hhere, hthere⟩
  · obtain ⟨-, rfl⟩ := Prod.mk.inj (Option.some.inj h)
    exact .inr ⟨here, r, .ok there, hhere, hthere⟩

theorem moved_of_scanFields {es : List (String × Value)} {result : Except Fault Bool}
    (hscan : ∀ e ∈ es, ∀ path p result q, Composing.scan workshop path e.2 p = some (result, q) →
      Inv p → Inv q ∧ Moved path p q)
    (h : Composing.scanFields workshop path es p = some (result, q)) (hp : Inv p) :
    Inv q ∧ Moved path p q := by
  induction es generalizing p result with
  | nil =>
      rw [Composing.scanFields] at h
      obtain ⟨-, rfl⟩ := Prod.mk.inj (Option.some.inj h)
      exact ⟨hp, .refl path p⟩
  | cons e es ih =>
      obtain ⟨he, hes⟩ := List.forall_mem_cons.mp hscan
      obtain ⟨fault, hhere⟩ | ⟨here, r, rest, hhere, hrest⟩ := scanFields_cons_result h
      · exact (he _ _ _ _ hhere hp).imp_right Moved.widen
      · obtain ⟨hr, hmoved⟩ := he _ _ _ _ hhere hp
        exact (ih hes hrest hr).imp_right hmoved.widen.trans

/-- A pass fails at the first node of its worklist, or comes to the others. -/
theorem pass_cons_result (hsound : p.document.Sound) {rest : List Path}
    {result : Except Fault Unit} {v : Value} (hn : p.document.content.node? path = some v)
    (h : Composing.pass workshop (path :: rest) p = some (result, q)) :
    (∃ fault, Composing.scan workshop path v p = some (.error fault, q)) ∨
      ∃ b r, Composing.scan workshop path v p = some (.ok b, r) ∧
        Composing.pass workshop rest r = some (result, q) := by
  rw [pass_cons_of_node hsound rest hn] at h
  exact bind_eq_some h

namespace Lasting

/-- **Looking through a node keeps what lasts, and what happens stays at the node, whether it fails
or not.** -/
theorem result (hL : Lasting workshop Inv) (v : Value) : ∀ path p result q,
    Composing.scan workshop path v p = some (result, q) → Inv p → Inv q ∧ Moved path p q := by
  induction v using Value.entries_induction with
  | node v ih =>
      intro path p result q h hp
      cases result with
      | ok b => exact hL.scan h hp
      | error fault =>
          rw [scan_eq] at h
          split at h
          · exact absurd h (by simp)
          split at h
          · split at h
            · obtain ⟨-, rfl⟩ := Prod.mk.inj (Option.some.inj h)
              exact ⟨hp, .refl path p⟩
            rename_i hroot
            obtain hfields | ⟨inside, r, hfields, h⟩ := bind_eq_error.mp h
            · exact moved_of_scanFields ih hfields hp
            · rw [ite_apply] at h
              cases inside with
              | true => exact absurd h (by simp [again])
              | false =>
                  obtain ⟨hr, hmoved⟩ := hL.scanFields hfields hp
                  obtain ⟨hq, memory, rfl⟩ := hL.failed hroot hr h
                  exact ⟨hq, hmoved.trans (.memory path r memory)⟩
          · exact moved_of_scanFields ih h hp

theorem pass (hL : Lasting workshop Inv) {result : Except Fault Unit}
    (h : Composing.pass workshop worklist p = some (result, q)) (hp : Inv p) : Inv q := by
  induction worklist generalizing p with
  | nil =>
      obtain ⟨-, rfl⟩ := Prod.mk.inj (Option.some.inj h)
      exact hp
  | cons path rest ih =>
      cases hn : p.document.content.node? path with
      | none =>
          rw [pass_cons_of_gone (hL.sound hp) rest hn] at h
          exact ih h hp
      | some v =>
          obtain ⟨fault, hscan⟩ | ⟨b, r, hscan, hrest⟩ := pass_cons_result (hL.sound hp) hn h
          · exact (hL.result v _ _ _ _ hscan hp).1
          · exact ih hrest (hL.scan hscan hp).1

/-- **What lasts is kept by composing, whatever its end.** -/
theorem ran (hL : Lasting workshop Inv) {end_ : Except Fault Unit × Progress μ}
    (h : Ran workshop worklist p end_) (hp : Inv p) : Inv end_.2 := by
  induction h with
  | ended hround =>
      obtain ⟨result, hpass⟩ := exists_pass_of_round_ended hround
      exact hL.pass hpass (hL.fresh hp)
  | next hround hrest ih => exact ih (hL.pass (pass_of_round_next hround) (hL.fresh hp))

end Lasting

/-! ### Sound documents -/

/-- A node that is there can be written. -/
theorem write_ne_error {v old : Value} (hsound : p.document.Sound) (hroot : path ≠ [])
    (hn : p.document.content.node? path = some old) (hv : v.WellFormed) :
    write path v p ≠ some (.error fault, q) := by
  obtain ⟨r, hr⟩ := exists_write hsound hroot hn hv
  simp [hr]

theorem Foundered.exists_memory {outcome : Outcome} {old : Value} (htidy : workshop.Tidy remembers)
    (hretains : workshop.Retains remembers) (hroot : path ≠ []) (hp : Proper remembers p)
    (hn : p.document.content.node? path = some old) (houtcome : outcome.WellFormed)
    (h : Foundered workshop path p fault outcome q) :
    ∃ memory, remembers memory ∧ q = { p with memory } := by
  cases h with
  | success hwrite => exact absurd hwrite (write_ne_error hp.sound hroot hn houtcome)
  | completed hwrite => exact absurd hwrite (write_ne_error hp.sound hroot hn houtcome)
  | @separately _ _ memory hseparately _ =>
      exact ⟨memory, hretains.separately houtcome hp.memory hseparately, rfl⟩
  | @composed _ _ memory _ hseparately hwrite =>
      obtain ⟨hw, -⟩ := htidy.separately houtcome hp.memory hseparately
      exact absurd hwrite (write_ne_error (p := { p with memory }) hp.sound hroot hn hw)

/-- A directive that is handed over in vain leaves the memory alone behind. -/
theorem invoke_failed (htidy : workshop.Tidy remembers) (hretains : workshop.Retains remembers)
    (hroot : path ≠ []) (hp : Proper remembers p)
    (h : invoke workshop path p = some (.error fault, q)) :
    ∃ memory, remembers memory ∧ q = { p with memory } := by
  simp only [invoke] at h
  split at h
  · obtain ⟨-, rfl⟩ := Prod.mk.inj (Option.some.inj h)
    exact ⟨p.memory, hp.memory, rfl⟩
  split at h
  · rename_i directive hget
    have hn := (Store.get_plain_eq_ok_iff hp.sound).mp hget
    have hdirective := hp.sound.wellFormed.of_node? hn
    split at h
    · exact absurd h (by simp)
    · rename_i handler hfind
      have hmem := List.mem_of_find?_eq_some hfind
      split at h
      · rename_i outcome memory hcompose
        obtain ⟨houtcome, hmemory⟩ :=
          htidy.handlers handler hmem hdirective hp.sound hp.memory hcompose
        exact (Foundered.of_settle h).exists_memory (p := { p with memory }) htidy hretains hroot
          ⟨hp.sound, hmemory⟩ hn houtcome
      · rename_i refusal memory hcompose
        obtain ⟨-, rfl⟩ := Prod.mk.inj (Option.some.inj h)
        exact ⟨memory,
          hretains.handlers handler hmem hdirective hp.sound hp.memory hcompose, rfl⟩
  · exact absurd h (by simp)

/-- **Documents stay sound, however composing ends.** -/
theorem lasting_of_tidy (htidy : workshop.Tidy remembers) (hretains : workshop.Retains remembers) :
    Lasting workshop (Proper remembers) where
  toKept := kept_of_tidy htidy
  failed hroot hp h := by
    obtain ⟨memory, hmemory, rfl⟩ := invoke_failed htidy hretains hroot hp h
    exact ⟨⟨hp.sound, hmemory⟩, memory, rfl⟩

theorem separately_retains {handlers : List (Handler μ)}
    (htidy : ∀ handler ∈ handlers, handler.Tidy remembers)
    (hretains : ∀ handler ∈ handlers, handler.Retains remembers) (setting : Setting)
    (maxDepth levels : Nat) :
    Workshop.Retains remembers
      ⟨handlers, setting, separately handlers setting maxDepth levels⟩ := by
  induction levels with
  | zero =>
      refine ⟨hretains, fun {backend v memory fault memory'} _ hmemory h => ?_⟩
      obtain ⟨-, rfl⟩ := Prod.mk.inj (Option.some.inj h)
      exact hmemory
  | succ levels ih =>
      refine ⟨hretains, fun {backend v memory fault memory'} hv hmemory h => ?_⟩
      simp only [separately] at h
      split at h
      · exact absurd h (by simp)
      · exact absurd h (by simp)
      · rename_i refusal progress hpasses
        obtain ⟨-, rfl⟩ := Prod.mk.inj (Option.some.inj h)
        have hlasting := lasting_of_tidy (separately_tidy htidy setting maxDepth levels) ih
        exact (hlasting.ran (passes_eq_some_iff.mp hpasses)
          ⟨Store.sound_wrap hv backend, hmemory⟩).memory

theorem Run.lasting {run : Run μ} (htidy : ∀ handler ∈ run.handlers, handler.Tidy remembers)
    (hretains : ∀ handler ∈ run.handlers, handler.Retains remembers) :
    Lasting run.workshop (Proper remembers) :=
  lasting_of_tidy (separately_tidy htidy _ _ _) (separately_retains htidy hretains _ _ _)

/-- The documents that are composed on their own are sound at the beginning. -/
theorem Run.proper_of_nests {run inner : Run μ}
    (htidy : ∀ handler ∈ run.handlers, handler.Tidy remembers)
    (hp : Proper remembers run.progress) (h : run.Nests inner) :
    Proper remembers inner.progress := by
  induction h with
  | self => exact hp
  | @deeper run' levels site s directive handler v memory hnests _ hmeets hanswer ih =>
      have htidy' : ∀ handler ∈ run'.handlers, handler.Tidy remembers :=
        hnests.handlers_eq ▸ htidy
      have hs : Proper remembers s :=
        hmeets.meets.carried (kept_of_tidy (separately_tidy htidy' _ _ _)).carried ih
      have hn := (Store.get_plain_eq_ok_iff hs.sound).mp hmeets.get
      obtain ⟨hv, hmemory⟩ := htidy' handler (List.mem_of_find?_eq_some hmeets.find)
        (hs.sound.wellFormed.of_node? hn) hs.sound hs.memory hanswer
      exact ⟨Store.sound_wrap hv _, hmemory⟩

end Composing

namespace Composer

open Composing

variable {μ : Type} {remembers : μ → Prop} {composer composer' : Composer μ} {setting : Setting}
  {start : Pointer}

theorem lasting_workshop (htidy : ∀ handler ∈ composer.handlers, handler.Tidy remembers)
    (hretains : ∀ handler ∈ composer.handlers, handler.Retains remembers) (setting : Setting) :
    Lasting (composer.workshop setting) (Proper remembers) :=
  lasting_of_tidy (separately_tidy htidy _ _ _) (separately_retains htidy hretains _ _ _)

theorem proper_of_composeAt {result : Except Fault Unit}
    (htidy : ∀ handler ∈ composer.handlers, handler.Tidy remembers)
    (hretains : ∀ handler ∈ composer.handlers, handler.Retains remembers)
    (hp : Proper remembers composer.progress)
    (h : composer.composeAt setting start = some (result, composer')) :
    Proper remembers composer'.progress := by
  obtain ⟨q, hran, rfl⟩ := exists_ran_of_composeAt h
  have hq := (lasting_workshop htidy hretains setting).ran hran hp
  exact ⟨hq.sound, hq.memory⟩

/-- **A document stays sound whatever a composer is asked to do, also if it fails.** -/
theorem proper_of_serve {requests : List Request}
    (htidy : ∀ handler ∈ composer.handlers, handler.Tidy remembers)
    (hretains : ∀ handler ∈ composer.handlers, handler.Retains remembers)
    (hforget : ∀ memory, remembers memory →
      remembers (Handler.forgetAll composer.handlers memory))
    (hp : Proper remembers composer.progress) (h : composer.serve requests = some composer') :
    Proper remembers composer'.progress := by
  refine (serve_kept
    (P := fun c => c.handlers = composer.handlers ∧ Proper remembers c.progress)
    (fun {c _ _ _ _} ⟨hc, hproper⟩ hnext => ?_) (fun _ {c} ⟨hc, hproper⟩ => ?_) ⟨rfl, hp⟩ h).2
  · exact ⟨(handlers_of_composeAt hnext).trans hc,
      proper_of_composeAt (hc ▸ htidy) (hc ▸ hretains) hproper hnext⟩
  · have hforgotten := hforget _ hproper.memory
    rw [← hc] at hforgotten
    exact ⟨hc, hproper.sound, hforgotten⟩

end Composer

/-! ### The standard handlers -/

namespace Handler

variable {σ : Type} {generators : Generators σ} {matchers : Matchers} {access : FileAccess}

/-- **The standard handlers keep what they remember well-formed also when they fail.** -/
theorem retains_of_mem_standard : ∀ handler ∈ standard generators matchers access,
    handler.Retains Memory.WellFormed := by
  intro handler hmem directive context memory fault memory' _ _ hmemory h
  simp only [standard, List.mem_cons, List.not_mem_nil, or_false] at hmem
  rcases hmem with rfl | rfl | rfl | rfl | rfl | rfl
  · obtain ⟨-, rfl⟩ := Prod.mk.inj h
    exact hmemory
  · obtain ⟨-, rfl⟩ := Prod.mk.inj h
    exact hmemory
  · simp only [file] at h
    split at h
    · exact (Prod.mk.inj h).2 ▸ hmemory
    split at h
    · exact absurd (Prod.mk.inj h).1 (by simp)
    · exact (Prod.mk.inj h).2 ▸ hmemory
  · simp only [inclusion] at h
    split at h
    · exact (Prod.mk.inj h).2 ▸ hmemory
    split at h
    · exact absurd (Prod.mk.inj h).1 (by simp)
    · exact (Prod.mk.inj h).2 ▸ hmemory
  · simp only [generator, Directive.composeMade, Directive.make] at h
    split at h
    · exact (Prod.mk.inj h).2 ▸ hmemory
    split at h
    · rename_i hmake
      obtain ⟨-, rfl⟩ := Prod.mk.inj h
      split at hmake
      · exact absurd (Prod.mk.inj hmake).1 (by simp)
      · split at hmake
        -- A generator that fails may have drawn from the world.
        · exact (Prod.mk.inj hmake).2 ▸ ⟨hmemory.files, hmemory.includes, hmemory.made⟩
        · exact absurd (Prod.mk.inj hmake).1 (by simp)
    · exact absurd (Prod.mk.inj h).1 (by simp)
  · obtain ⟨-, rfl⟩ := Prod.mk.inj h
    exact hmemory

/-- The standard handlers forget everything but the world. -/
theorem forgetAll_standard (memory : Memory σ) :
    forgetAll (standard generators matchers access) memory = .start memory.world :=
  rfl

end Handler

/-- **Documents stay sound in a run with the standard handlers**, however it ends. -/
theorem Composing.lasting_standard {σ : Type} {generators : Generators σ} {matchers : Matchers}
    {access : FileAccess} {run : Run (Memory σ)}
    (hhandlers : run.handlers = Handler.standard generators matchers access)
    (hgenerators : generators.Tidy) : Lasting run.workshop (Proper Memory.WellFormed) :=
  Run.lasting (hhandlers ▸ Handler.tidy_of_mem_standard hgenerators)
    (hhandlers ▸ Handler.retains_of_mem_standard)

end Docweave
