import Docweave.Proofs.Composing.Lasting
import Docweave.Proofs.References.Composing

/-!
What a reference is answered with in the course of composing.

A reference, with changes or without, is read first, then its chain is followed, and then it is
answered by what the chain has led to (`Directive.composeCopy_of_standard`).  So there is a copy
exactly if the chain leads to a node that is no directive, and if it leads to a directive of another
kind, or to nothing, the reference waits (`Composer.references_copy_where_they_lead`).

Whether a node stands inside of a directive is not asked.  An entry of a directive that is still to
be composed is a node like any other, and is copied as it is written
(`Composer.copies_entry_of_directive`).
-/

namespace Docweave

open Composing

namespace Directive

/-- A reference, with changes or without, as it is written. -/
def Overlay.ofDirective (marker : String) (directive : Fields) : Except Fault Overlay :=
  if marker = overlayMarker then Overlay.read directive
  else (target directive referenceMarker).map fun path => ⟨path, [], [], [], []⟩

/-- What a reference is answered with, by what its chain leads to. -/
def Overlay.answer (overlay : Overlay) : Target → Except Fault Outcome
  | .missing | .pending => .ok .retry
  | .found v => if overlay.isDue v then (overlay.apply v).map .success else .ok .retry

/-- What a reference is answered with: it is read, and then its chain is followed. -/
def composeCopy (marker : String) (directive : Fields) (context : Context) :
    Except Fault Outcome := do
  let overlay ← Overlay.ofDirective marker directive
  overlay.answer (← follow context overlay.path)

theorem composeReference_eq_composeCopy (directive : Fields) (context : Context) :
    composeReference directive context = composeCopy referenceMarker directive context := by
  have hne : referenceMarker ≠ overlayMarker := by decide
  unfold composeReference composeCopy
  rw [Overlay.ofDirective, if_neg hne]
  cases target directive referenceMarker with
  | error fault => rfl
  | ok path =>
      show (follow context path >>= fun found => _) = follow context path >>= fun found => _
      cases follow context path with
      | error fault => rfl
      | ok found => cases found <;> rfl

theorem composeOverlay_eq_composeCopy (directive : Fields) (context : Context) :
    composeOverlay directive context = composeCopy overlayMarker directive context := by
  unfold composeOverlay composeCopy
  rw [Overlay.ofDirective, if_pos rfl]
  cases Overlay.read directive with
  | error fault => rfl
  | ok overlay =>
      show (follow context overlay.path >>= fun found => _) = follow context overlay.path >>= _
      cases follow context overlay.path with
      | error fault => rfl
      | ok found =>
          cases found with
          | missing => rfl
          | pending => rfl
          | found v =>
              show (if overlay.isDue v then _ else _) = overlay.answer (.found v)
              rw [Overlay.answer]
              split
              · cases overlay.apply v <;> rfl
              · rfl

/-- Both handlers of references answer in the same way, and remember nothing. -/
theorem composeCopy_of_standard {σ : Type} {generators : Generators σ} {matchers : Matchers}
    {access : FileAccess} {handler : Handler (Memory σ)}
    (hmem : handler ∈ Handler.standard generators matchers access)
    (hmarker : handler.marker = referenceMarker ∨ handler.marker = overlayMarker)
    (directive : Fields) (context : Context) (memory : Memory σ) :
    handler.compose directive context memory =
      (composeCopy handler.marker directive context, memory) := by
  simp only [Handler.standard, List.mem_cons, List.not_mem_nil, or_false] at hmem
  rcases hmem with rfl | rfl | rfl | rfl | rfl | rfl
  · exact Prod.ext (composeReference_eq_composeCopy directive context) rfl
  · exact Prod.ext (composeOverlay_eq_composeCopy directive context) rfl
  all_goals
    exact absurd hmarker (by simp [Handler.file, Handler.inclusion, Handler.generator,
      Handler.matcher, fileMarker, includeMarker, generatorMarker, matcherMarker, referenceMarker,
      overlayMarker])

variable {marker : String} {directive : Fields} {context : Context}

/-- **A reference is copied from where its chain leads**, if no directive is there. -/
theorem composeCopy_eq_success_iff (hsound : context.document.Sound)
    (hmarker : referenceMarker ∈ context.markers) {copy : Value} :
    composeCopy marker directive context = .ok (.success copy) ↔
      ∃ overlay last v, Overlay.ofDirective marker directive = .ok overlay ∧
        Leads context.document.content context.path overlay.path last ∧
        context.document.content.node? last = some v ∧ isDirective context.markers v = false ∧
        overlay.isDue v = true ∧ overlay.apply v = .ok copy := by
  constructor
  · intro h
    obtain ⟨overlay, hread, h⟩ := Except.bind_eq_ok_iff.mp h
    obtain ⟨found, hfollow, h⟩ := Except.bind_eq_ok_iff.mp h
    obtain ⟨last, hleads, hfound⟩ := (follow_eq_ok_iff hsound hmarker).mp hfollow
    cases found with
    | missing | pending => exact absurd (Except.ok.inj h) (by simp)
    | found v =>
        obtain ⟨hlast, hplain⟩ := Target.ofNode?_eq_found_iff.mp hfound.symm
        rw [Overlay.answer] at h
        split at h
        · rename_i hdue
          cases happly : overlay.apply v with
          | error fault => exact absurd h (by simp [happly, Except.map])
          | ok copy' =>
              obtain rfl : copy' = copy := by simpa [happly, Except.map] using h
              exact ⟨overlay, last, v, hread, hleads, hlast, hplain, hdue, happly⟩
        · exact absurd (Except.ok.inj h) (by simp)
  · rintro ⟨overlay, last, v, hread, hleads, hlast, hplain, hdue, happly⟩
    have hfollow : follow context overlay.path = .ok (.found v) :=
      (follow_eq_ok_iff hsound hmarker).mpr
        ⟨last, hleads, (Target.ofNode?_eq_found_iff.mpr ⟨hlast, hplain⟩).symm⟩
    refine Except.bind_eq_ok_iff.mpr ⟨overlay, hread, Except.bind_eq_ok_iff.mpr
      ⟨.found v, hfollow, ?_⟩⟩
    rw [Overlay.answer, if_pos hdue, happly, Except.map]

/-- **A reference waits if its chain leads to another directive**, or to nothing. -/
theorem composeCopy_of_not_settled (hsound : context.document.Sound)
    (hmarker : referenceMarker ∈ context.markers) {overlay : Overlay} {last : Path}
    (hread : Overlay.ofDirective marker directive = .ok overlay)
    (hleads : Leads context.document.content context.path overlay.path last)
    (hlast : ∀ v, context.document.content.node? last = some v →
      isDirective context.markers v = true) :
    composeCopy marker directive context = .ok .retry := by
  have hfollow := (follow_eq_ok_iff hsound hmarker).mpr ⟨last, hleads, rfl⟩
  refine Except.bind_eq_ok_iff.mpr ⟨overlay, hread, Except.bind_eq_ok_iff.mpr ⟨_, hfollow, ?_⟩⟩
  cases hn : context.document.content.node? last with
  | none => rfl
  | some v =>
      rw [Target.ofNode?, if_pos (hlast v hn)]
      rfl

end Directive

namespace Composer

variable {σ : Type} {generators : Generators σ} {world : σ} {options : ComposeOptions}
  {content : Value} {composer : Composer (Memory σ)} {requests : List Request} {setting : Setting}
  {start : Pointer} {run : Run (Memory σ)} {site : Path} {s : Progress (Memory σ)}
  {directive : Fields} {handler : Handler (Memory σ)}

/-- Whatever a composer has been asked before, the document is sound when a directive is met. -/
theorem sound_of_meets (hgenerators : generators.Tidy) (hcontent : content.WellFormed)
    (hserve : (Composer.standard generators world options content).serve requests = some composer)
    (hnests : (composer.run setting start).Nests run)
    (hmeets : run.Meets site s directive handler) : s.document.Sound := by
  have hhandlers : composer.handlers =
      Handler.standard generators Matchers.standard ⟨⟨options.base?⟩, options.caching⟩ :=
    handlers_of_serve hserve
  have htidy : ∀ handler ∈ composer.handlers, handler.Tidy Memory.WellFormed :=
    hhandlers ▸ Handler.tidy_of_mem_standard hgenerators
  have hstart : Proper Memory.WellFormed
      (Composer.standard generators world options content).progress :=
    ⟨Store.sound_wrap hcontent _, Memory.wellFormed_start world⟩
  have hforgets : ∀ memory : Memory σ, memory.WellFormed →
      (Handler.forgetAll (Composer.standard generators world options content).handlers
        memory).WellFormed :=
    fun memory _ => Memory.wellFormed_start memory.world
  have hcomposer : Proper Memory.WellFormed composer.progress :=
    proper_of_serve
      (Handler.tidy_of_mem_standard hgenerators) Handler.retains_of_mem_standard
      hforgets hstart hserve
  have htidy' : ∀ handler ∈ run.handlers, handler.Tidy Memory.WellFormed :=
    hnests.handlers_eq ▸ htidy
  have hkept := kept_of_tidy (separately_tidy htidy' run.setting run.maxDepth run.levels)
  exact (hmeets.meets.carried hkept.carried (Run.proper_of_nests htidy hcomposer hnests)).sound

/-- **References copy from where they lead.**  Whatever a composer has been asked before, and
whichever document it is composing, a reference, with changes or without, is answered with a copy
exactly if its chain leads to a node that is no directive, fits the conditions and can be changed as
it says.  Where its chain leads to a directive, or to nothing, it waits. -/
theorem references_copy_where_they_lead (hgenerators : generators.Tidy)
    (hcontent : content.WellFormed)
    (hserve : (Composer.standard generators world options content).serve requests = some composer)
    (hnests : (composer.run setting start).Nests run)
    (hmeets : run.Meets site s directive handler)
    (hmarker : handler.marker = Directive.referenceMarker ∨
      handler.marker = Directive.overlayMarker) :
    (∀ copy, (handler.compose directive (contextAt run.workshop site s) s.memory).1 =
        .ok (.success copy) ↔
      ∃ overlay last v, Directive.Overlay.ofDirective handler.marker directive = .ok overlay ∧
        Leads s.document.content site overlay.path last ∧
        s.document.content.node? last = some v ∧ isDirective standardMarkers v = false ∧
        overlay.isDue v = true ∧ overlay.apply v = .ok copy) ∧
    ∀ overlay last, Directive.Overlay.ofDirective handler.marker directive = .ok overlay →
      Leads s.document.content site overlay.path last →
      (∀ v, s.document.content.node? last = some v → isDirective standardMarkers v = true) →
      (handler.compose directive (contextAt run.workshop site s) s.memory).1 = .ok .retry := by
  have hhandlers : run.handlers =
      Handler.standard generators Matchers.standard ⟨⟨options.base?⟩, options.caching⟩ :=
    hnests.handlers_eq.trans (handlers_of_serve hserve)
  have hmarkers : (contextAt run.workshop site s).markers = standardMarkers := by
    show Handler.markers run.handlers = standardMarkers
    rw [hhandlers]
    rfl
  have hreference : Directive.referenceMarker ∈ (contextAt run.workshop site s).markers :=
    hmarkers ▸ List.mem_cons_self
  have hsound : (contextAt run.workshop site s).document.Sound :=
    sound_of_meets hgenerators hcontent hserve hnests hmeets
  have hmem := hhandlers ▸ List.mem_of_find?_eq_some hmeets.find
  rw [Directive.composeCopy_of_standard hmem hmarker, ← hmarkers]
  exact ⟨fun copy => Directive.composeCopy_eq_success_iff hsound hreference,
    fun overlay last => Directive.composeCopy_of_not_settled hsound hreference⟩

/-- A reference with changes to a reference to a text. -/
def twoHops : Value :=
  .map [("a", .map [(Directive.overlayMarker, .text "/b")]), ("b", .reference "/c"),
    ("c", .text "x")]

/-- A composer of the document. -/
abbrev twoHopsComposer : Composer (Memory Unit) :=
  .standard (Generators.standard fun _ => (0, ())) () { backend := .direct } twoHops

/-- The chain is followed to the text, which is copied at once. -/
theorem two_hops_copy_the_text :
    (Generators.standard fun _ => (0, ()) : Generators Unit).Tidy ∧ twoHops.WellFormed ∧
      twoHopsComposer.serve [] = some twoHopsComposer ∧
      ∃ s, (twoHopsComposer.run bareSetting .root).Meets ["a"] s
          [(Directive.overlayMarker, .text "/b")] .overlay ∧
        (Handler.overlay.compose [(Directive.overlayMarker, .text "/b")]
          (contextAt (twoHopsComposer.run bareSetting .root).workshop ["a"] s) s.memory).1 =
            .ok (.success (.text "x")) := by
  have hgenerators : (Generators.standard fun _ => (0, ()) : Generators Unit).Tidy :=
    Generators.tidy_standard _
  have hwell : twoHops.WellFormed := by
    simp [twoHops, Value.reference, Value.wellFormed_map_iff, Entries.Distinct, Entries.keys]
  have hserve : twoHopsComposer.serve [] = some twoHopsComposer := rfl
  let s := twoHopsComposer.progress.fresh
  have hnode : MeetsNode (twoHopsComposer.run bareSetting .root).workshop ["a"] s ["a"]
      (.map [(Directive.overlayMarker, .text "/b")]) s :=
    .here List.not_mem_nil rfl (by simp) rfl
  have hmeets : (twoHopsComposer.run bareSetting .root).Meets ["a"] s
      [(Directive.overlayMarker, .text "/b")] .overlay :=
    ⟨.now (.first rfl rfl (.inside List.not_mem_nil (by decide) (.first hnode))), rfl, rfl⟩
  have hn : s.document.content.node? ["c"] = some (.text "x") := rfl
  have hstops : Leads s.document.content ["a"] ["c"] ["c"] :=
    .stops (by decide) fun fields hn' => absurd (hn.symm.trans hn') (by simp)
  have hleads : Leads s.document.content ["a"] ["b"] ["c"] := .link (by decide) rfl rfl hstops
  refine ⟨hgenerators, hwell, hserve, s, hmeets, ?_⟩
  exact ((references_copy_where_they_lead hgenerators hwell hserve .self hmeets (.inr rfl)).1
    (.text "x")).mpr ⟨⟨["b"], [], [], [], []⟩, ["c"], .text "x", rfl, hleads, hn, rfl, rfl, rfl⟩

/-- A composer of a reference to an entry of another directive. -/
def referenceToEntryComposer : Composer (Memory Unit) :=
  .standard .empty () { backend := .direct }
    (.map [("a", .reference "/b/x"),
      ("b", .map [(Directive.referenceMarker, .text "/c"), ("x", .text "old")]),
      ("c", .map [("x", .text "new")])])

/-- The entry is copied although it stands inside of a directive that is still to be composed, and
there is another in its place once it is. -/
theorem copies_entry_of_directive :
    (∃ s b, (referenceToEntryComposer.run bareSetting .root).Meets ["a"] s
        [(Directive.referenceMarker, .text "/b/x")] .reference ∧
      s.document.content.node? ["b"] = some b ∧ isDirective standardMarkers b = true ∧
      s.completed = [] ∧ s.document.content.node? ["b", "x"] = some (.text "old") ∧
      (Handler.reference.compose [(Directive.referenceMarker, .text "/b/x")]
        (contextAt (referenceToEntryComposer.run bareSetting .root).workshop ["a"] s) s.memory).1 =
          .ok (.success (.text "old"))) ∧
    ∃ composer, referenceToEntryComposer.compose bareSetting = some (.ok (), composer) ∧
      composer.store.content = .map [("a", .text "old"), ("b", .map [("x", .text "new")]),
        ("c", .map [("x", .text "new")])] := by
  let s := referenceToEntryComposer.progress.fresh
  have hnode : MeetsNode (referenceToEntryComposer.run bareSetting .root).workshop ["a"] s ["a"]
      (.reference "/b/x") s :=
    .here List.not_mem_nil rfl (by simp) rfl
  have hmeets : (referenceToEntryComposer.run bareSetting .root).Meets ["a"] s
      [(Directive.referenceMarker, .text "/b/x")] .reference :=
    ⟨.now (.first rfl rfl (.inside List.not_mem_nil (by decide) (.first hnode))), rfl, rfl⟩
  let composed : Store := .direct ⟨.map [("a", .text "old"), ("b", .map [("x", .text "new")]),
    ("c", .map [("x", .text "new")])]⟩
  have hpass : pass (referenceToEntryComposer.workshop bareSetting) [[]] s =
      some (.ok (), ⟨composed, [], .start (), [["b"]], true⟩) := rfl
  have hfirst : round (referenceToEntryComposer.workshop bareSetting) [[]]
      referenceToEntryComposer.progress =
        some (.next [["b"]] ⟨composed, [], Memory.start (), [["b"]], true⟩) :=
    (round_of_pass hpass).trans (by cbv)
  have hlast : round (referenceToEntryComposer.workshop bareSetting) [["b"]]
      ⟨composed, [], Memory.start (), [["b"]], true⟩ =
        some (.ended (.ok ()) ⟨composed, [], Memory.start (), [], false⟩) := rfl
  exact ⟨⟨s, _, hmeets, rfl, rfl, rfl, rfl, rfl⟩, _,
    composeAt_of_ran (.next hfirst (.ended hlast)), rfl⟩

end Composer

end Docweave
