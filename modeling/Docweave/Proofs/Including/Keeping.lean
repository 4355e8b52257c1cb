import Docweave.Proofs.Composing.Lending
import Docweave.Proofs.Composing.Lingering
import Docweave.Proofs.Including.Isolation
import Docweave.Proofs.Making.Sharing

/-!
What a composer has after it was asked for something: its handlers, and all they have learned.

A composer that owns its handlers lends them to every document that it composes on its own, and has
them back after every request (`Foreman.serve_eq`).  With them comes what they remember.  The
standard handlers only add to that (`Handler.Adds`): what was read of a file, or made for a name,
stays under its key until they are told to forget.  So what was learned in a document of its own is
still known when that document could not be composed, when it was one of many around each other, and
after any number of requests more (`Composer.handlers_handed_back`).
-/

namespace Docweave

variable {σ : Type} {generators : Generators σ} {matchers : Matchers} {access : FileAccess}

/-! ### Handlers that only add -/

/-- Everything that is remembered of files and of made values is remembered still. -/
structure Memory.Within (before after : Memory σ) : Prop where
  files : ∀ key v, Entries.find? before.files key = some v →
    Entries.find? after.files key = some v
  includes : ∀ key v, Entries.find? before.includes key = some v →
    Entries.find? after.includes key = some v
  made : ∀ key v, Entries.find? before.made key = some v → Entries.find? after.made key = some v

namespace Memory.Within

variable {a b c : Memory σ}

theorem refl (memory : Memory σ) : memory.Within memory :=
  ⟨fun _ _ h => h, fun _ _ h => h, fun _ _ h => h⟩

theorem trans (hab : a.Within b) (hbc : b.Within c) : a.Within c :=
  ⟨fun _ _ h => hbc.files _ _ (hab.files _ _ h), fun _ _ h => hbc.includes _ _ (hab.includes _ _ h),
    fun _ _ h => hbc.made _ _ (hab.made _ _ h)⟩

end Memory.Within

/-- What is under a key that is not used yet comes to what is there. -/
theorem Entries.find?_insert_of_new {α : Type} {entries : Entries α} {key : String} {value : α}
    (hnew : find? entries key = none) {other : String} {found : α}
    (h : find? entries other = some found) :
    find? (insert entries key value) other = some found := by
  rw [find?_insert, if_neg, h]
  rintro rfl
  exact absurd (hnew.symm.trans h) (by simp)

/-- What is remembered stays when something is read that is not. -/
theorem find?_of_remembered {caching : Bool} {entries entries' : Entries Value} {key : String}
    {read : Except Fault Value} {v : Value}
    (h : remembered caching entries key read = .ok (v, entries')) {other : String} {found : Value}
    (hfound : Entries.find? entries other = some found) :
    Entries.find? entries' other = some found := by
  cases caching with
  | false =>
      cases read with
      | error fault => exact absurd h (by simp [remembered])
      | ok w =>
          obtain ⟨-, rfl⟩ := Prod.mk.inj (Except.ok.inj h)
          exact hfound
  | true =>
      simp only [remembered, if_true] at h
      cases hfind : Entries.find? entries key with
      | some w =>
          simp only [hfind] at h
          obtain ⟨-, rfl⟩ := Prod.mk.inj (Except.ok.inj h)
          exact hfound
      | none =>
          simp only [hfind] at h
          cases read with
          | error fault => exact absurd h (by simp)
          | ok w =>
              obtain ⟨-, rfl⟩ := Prod.mk.inj (Except.ok.inj h)
              exact Entries.find?_insert_of_new hfind hfound

namespace Handler

/-- Whatever the handler answers, everything that was remembered is remembered still. -/
def Adds (handler : Handler (Memory σ)) : Prop :=
  ∀ directive context (memory : Memory σ),
    memory.Within (handler.compose directive context memory).2

/-- A handler of one's own, which cannot get at what the standard handlers remember. -/
structure Outside (handler : Handler (Memory σ)) : Prop where
  files : ∀ directive context memory,
    (handler.compose directive context memory).2.files = memory.files
  includes : ∀ directive context memory,
    (handler.compose directive context memory).2.includes = memory.includes
  made : ∀ directive context memory,
    (handler.compose directive context memory).2.made = memory.made

theorem Outside.adds {handler : Handler (Memory σ)} (h : handler.Outside) : handler.Adds :=
  fun directive context memory =>
    ⟨fun _ _ hfind => (h.files directive context memory).symm ▸ hfind,
      fun _ _ hfind => (h.includes directive context memory).symm ▸ hfind,
      fun _ _ hfind => (h.made directive context memory).symm ▸ hfind⟩

theorem adds_file (access : FileAccess) : (file access : Handler (Memory σ)).Adds := by
  intro directive context memory
  simp only [file]
  split
  · exact .refl memory
  · split
    · next hremembered =>
        exact ⟨fun _ _ => find?_of_remembered hremembered, fun _ _ h => h, fun _ _ h => h⟩
    · exact .refl memory

theorem adds_inclusion (access : FileAccess) : (inclusion access : Handler (Memory σ)).Adds := by
  intro directive context memory
  simp only [inclusion]
  split
  · exact .refl memory
  · split
    · next hremembered =>
        exact ⟨fun _ _ h => h, fun _ _ => find?_of_remembered hremembered, fun _ _ h => h⟩
    · exact .refl memory

/-- A value is made only if there is none under its key yet. -/
theorem within_make (generators : Generators σ) (call : Directive.Call) (key? : Option String)
    (memory : Memory σ) : memory.Within (Directive.make generators call key? memory).2 := by
  unfold Directive.make
  cases hfind : key?.bind (Entries.find? memory.made) with
  | some v => exact .refl memory
  | none =>
      rcases generators.generate call.name call.args memory.world with ⟨fault | v, world⟩
      · exact ⟨fun _ _ h => h, fun _ _ h => h, fun _ _ h => h⟩
      · refine ⟨fun _ _ h => h, fun _ _ h => h, fun other found h => ?_⟩
        cases key? with
        | none => exact h
        | some key => exact Entries.find?_insert_of_new hfind h

theorem adds_generator (generators : Generators σ) : (generator generators).Adds := by
  intro directive context memory
  simp only [generator, Directive.composeMade]
  cases Directive.readMade directive with
  | error fault => exact .refl memory
  | ok made =>
      obtain ⟨call, key?⟩ := made
      have hmake := within_make generators call key? memory
      simp only
      generalize Directive.make generators call key? memory = answer at hmake
      obtain ⟨fault | v, after⟩ := answer <;> exact hmake

/-- **The standard handlers only add to what they remember.** -/
theorem adds_of_mem_standard {handler : Handler (Memory σ)}
    (hmem : handler ∈ standard generators matchers access) : handler.Adds := by
  simp only [standard, List.mem_cons, List.not_mem_nil, or_false] at hmem
  rcases hmem with rfl | rfl | rfl | rfl | rfl | rfl
  · exact fun _ _ memory => .refl memory
  · exact fun _ _ memory => .refl memory
  · exact adds_file access
  · exact adds_inclusion access
  · exact adds_generator generators
  · exact fun _ _ memory => .refl memory

theorem Adds.preserves {handler : Handler (Memory σ)} (h : handler.Adds) (known : Memory σ)
    (setting : Setting) : handler.Preserves setting known.Within :=
  fun directive context memory _ hknown => hknown.trans (h directive context memory)

end Handler

/-! ### After every request -/

namespace Composer

open Composing

theorem serve_append {μ : Type} (composer : Composer μ) (earlier later : List Request) :
    composer.serve (earlier ++ later) =
      (composer.serve earlier).bind fun composer' => composer'.serve later := by
  induction earlier generalizing composer with
  | nil => rfl
  | cons request earlier ih =>
      cases request with
      | compose setting start =>
          simp only [List.cons_append, serve, Option.bind_assoc]
          exact Option.bind_congr fun end_ _ => ih end_.2
      | forget => exact ih composer.forget

/-- **A composer has its handlers after every request, and all that they have learned.**

The handlers are lent to every document that is composed on its own and to those inside of it, and
each of them may end in a fault.  Whatever was asked for, the composer that owns its handlers comes
to what the one comes to that has them for good, holds the same handlers in the same order, and
again after whatever it is asked next.  What was remembered right after an answer, however deep the
document that the directive stood in, is remembered until the composer is told to forget. -/
theorem handlers_handed_back (composer : Composer (Memory σ))
    (hhandlers : ∀ handler ∈ composer.handlers,
      handler ∈ Handler.standard generators matchers access ∨ handler.Outside)
    (requests : List Request) :
    composer.foreman.serve requests = (composer.serve requests).map Composer.foreman ∧
      ∀ foreman, composer.foreman.serve requests = some foreman →
        foreman.crew.handlers = composer.handlers ∧
        foreman.markers = Handler.markers composer.handlers ∧
        (∀ setting start result after, foreman.composeAt setting start = some (result, after) →
          after.crew.handlers = composer.handlers) ∧
        ∀ earlier setting start later composer' inner site s directive handler,
          requests = earlier ++ .compose setting start :: later → .forget ∉ later →
          composer.serve earlier = some composer' → (composer'.run setting start).Nests inner →
          inner.Meets site s directive handler →
          (handler.compose directive (contextAt inner.workshop site s) s.memory).2.Within
            foreman.crew.memory := by
  have hadds : ∀ handler ∈ composer.handlers, handler.Adds := fun handler hmem =>
    (hhandlers handler hmem).elim Handler.adds_of_mem_standard Handler.Outside.adds
  refine ⟨Foreman.serve_eq composer requests, fun foreman hforeman => ?_⟩
  rw [Foreman.serve_eq] at hforeman
  obtain ⟨end_, hserve, rfl⟩ := Option.map_eq_some_iff.mp hforeman
  have hend := handlers_of_serve hserve
  refine ⟨hend, congrArg Handler.markers hend, fun setting start result after h => ?_, ?_⟩
  · rw [Foreman.composeAt_eq] at h
    obtain ⟨⟨result, next⟩, hcompose, heq⟩ := Option.map_eq_some_iff.mp h
    obtain ⟨-, rfl⟩ := Prod.mk.inj heq
    exact (handlers_of_composeAt hcompose).trans hend
  · rintro earlier setting start later composer' inner site s directive handler rfl hlater hearlier
      hinner hmeets
    rw [serve_append, hearlier, Option.bind_some] at hserve
    have hkept : ∀ known setting, ∀ handler ∈ composer'.handlers,
        handler.Preserves setting (Memory.Within known) := fun known setting handler hmem =>
      (hadds handler (handlers_of_serve hearlier ▸ hmem)).preserves known setting
    exact known_of_serve (hkept _) hlater hinner hmeets (.refl _) hserve

/-- Content that cannot be composed as a whole: a number is made, and then a reference is none. -/
def madeInVain : Value :=
  .map [("n", sharing "Counter" "x"), ("r", .map [(Directive.referenceMarker, .null)])]

/-- What is wrong with it. -/
def vainFault : Fault :=
  .composition (.plain ["r"]) (.input (.payloadNotText "!ref" .null))

/-- A file with this content. -/
def vainSetting : Setting where
  files := .ofTexts [("vain.json", "\x7b\"n\":\x7b\"!gen\":\"Counter\",\"$id\":\"x\"\x7d," ++
    "\"r\":\x7b\"!ref\":null\x7d\x7d")]
  now := bareSetting.now

/-- A composer of a document that includes this content. -/
def lending : Composer (Memory Nat) :=
  .standard counters 0 { backend := .direct, caching := true }
    (.map [("a", .map (included "vain.json"))])

theorem load_vain :
    Reader.load vainSetting.files ((⟨none⟩ : Reader).resolve "vain.json") = .ok madeInVain := by
  with_unfolding_all rfl

/-- What is remembered when the content has been read. -/
def lent : Memory Nat :=
  { Memory.start 0 with includes := [("json:vain.json", madeInVain)] }

/-- What is remembered when the number has been made. -/
def learned : Memory Nat :=
  { lent with made := [("Counter.x", .int 1)], world := 1 }

/-- The run over the content. -/
def vainRun : Run (Memory Nat) :=
  (lending.run vainSetting .root).nested 31 .direct madeInVain lent

theorem round_vain {workshop : Workshop (Memory Nat)}
    (hhandlers : workshop.handlers = lending.handlers) (hsetting : workshop.setting = vainSetting) :
    round workshop [[]] vainRun.progress =
      some (.ended (.error vainFault)
        ⟨.direct ⟨.map [("n", .int 1), ("r", .map [(Directive.referenceMarker, .null)])]⟩, [],
          learned, [], true⟩) := by
  obtain ⟨handlers, setting, separately⟩ := workshop
  obtain rfl : handlers = lending.handlers := hhandlers
  obtain rfl : setting = vainSetting := hsetting
  cbv

theorem meets_vain : (lending.run vainSetting .root).Meets ["a"] lending.progress.fresh
    (included "vain.json") (.inclusion ⟨⟨none⟩, true⟩) :=
  ⟨.now (.first rfl rfl (.inside List.not_mem_nil (by decide)
    (.first (.here List.not_mem_nil rfl (by simp) rfl)))), rfl,
    Directive.IncludesComposed.find?_standard (.refl _)⟩

theorem answer_vain : (Handler.inclusion ⟨⟨none⟩, true⟩).compose (included "vain.json")
    (contextAt (lending.run vainSetting .root).workshop ["a"] lending.progress.fresh)
      lending.progress.fresh.memory = (.ok (.separate madeInVain), lent) := by
  have hdirective : Directive.IncludesComposed (included "vain.json") "vain.json" := .refl _
  refine Eq.trans (hdirective.compose_inclusion (Memory.coherent_start _ 0) load_vain) ?_
  with_unfolding_all rfl

theorem nests_vain : (lending.run vainSetting .root).Nests vainRun :=
  .deeper .self rfl meets_vain answer_vain

/-- The number is made in the document of its own. -/
theorem meets_sharing : vainRun.Meets ["n"] vainRun.progress.fresh
    [("!gen", .text "Counter"), ("$id", .text "x")] (.generator counters) :=
  ⟨.now (.first rfl rfl (.inside List.not_mem_nil (by decide)
    (.first (.here List.not_mem_nil rfl (by simp) rfl)))), rfl, rfl⟩

/-- The composer comes to the fault of the reference. -/
theorem composeAt_lending : ∃ composer, lending.composeAt vainSetting .root =
    some (.error (.composition (.plain ["a"]) vainFault), composer) := by
  let p := lending.progress.fresh
  let q : Progress (Memory Nat) := { p with memory := learned }
  let fault : Fault := .composition (.plain ["a"]) vainFault
  have hvain : vainRun.result = _ := passes_eq_some_iff.mpr (.ended (round_vain rfl rfl))
  have hseparately : (lending.workshop vainSetting).separately .direct madeInVain lent = _ :=
    (separately_succ (lending.run vainSetting .root) 31 .direct madeInVain lent).trans
      (congrArg (Option.map outcomeOf) hvain)
  have hsettle : settle (lending.workshop vainSetting) ["a"] (.separate madeInVain)
      { p with memory := lent } = some (.error fault, q) :=
    bind_eq_error.mpr (.inr ⟨_, _, rfl, bind_eq_error.mpr (.inl
      (remembering_eq_error.mpr ⟨_, _, hseparately, rfl, rfl⟩))⟩)
  have hinclude : scan (lending.workshop vainSetting) ["a"] (.map (included "vain.json")) p =
      some (.error fault, q) :=
    (scan_of_bare (Directive.IncludesComposed.wellFormed (.refl _)) List.not_mem_nil rfl (by simp)
      (Directive.IncludesComposed.bare (.refl _))).trans
      ((invoke_of_answer meets_vain.get meets_vain.find answer_vain).trans hsettle)
  have hscan : scan (lending.workshop vainSetting) []
      (.map [("a", .map (included "vain.json"))]) p = some (.error fault, q) := by
    rw [scan_of_plain List.not_mem_nil rfl]
    exact bind_eq_error.mpr (.inl hinclude)
  have hpass : pass (lending.workshop vainSetting) [[]] p = some (.error fault, q) :=
    (pass_cons_of_get [] rfl rfl).trans (bind_eq_error.mpr (.inl hscan))
  exact ⟨_, composeAt_of_ran (.ended (round_of_fault hpass))⟩

/-- After composing in vain the composer has its handlers, what it has read and the number. -/
theorem handlers_handed_back_by_vain :
    (∀ handler ∈ lending.handlers,
      handler ∈ Handler.standard counters Matchers.standard ⟨⟨none⟩, true⟩ ∨ handler.Outside) ∧
      ∃ foreman, lending.foreman.composeAt vainSetting .root =
          some (.error (.composition (.plain ["a"]) vainFault), foreman) ∧
        foreman.crew.handlers = lending.handlers ∧
        Entries.find? foreman.crew.memory.includes "json:vain.json" = some madeInVain ∧
        Entries.find? foreman.crew.memory.made "Counter.x" = some (.int 1) := by
  have hhandlers : ∀ handler ∈ lending.handlers,
      handler ∈ Handler.standard counters Matchers.standard ⟨⟨none⟩, true⟩ ∨ handler.Outside :=
    fun handler hmem => .inl hmem
  obtain ⟨composer, hcompose⟩ := composeAt_lending
  have hforeman : lending.foreman.composeAt vainSetting .root =
      some (.error (.composition (.plain ["a"]) vainFault), composer.foreman) := by
    rw [Foreman.composeAt_eq, hcompose]
    rfl
  obtain ⟨hserve, hback⟩ := handlers_handed_back lending hhandlers [.compose vainSetting .root]
  rw [serve_compose hcompose] at hserve
  obtain ⟨hsame, -, -, hkept⟩ := hback composer.foreman hserve
  have hwithin := hkept [] vainSetting .root [] lending vainRun _ _ _ _ rfl List.not_mem_nil rfl
    nests_vain meets_sharing
  exact ⟨hhandlers, composer.foreman, hforeman, hsame, hwithin.includes _ _ rfl,
    hwithin.made _ _ rfl⟩

end Composer

end Docweave
