import Docweave.Composition
import Docweave.Proofs.Composing.Completeness
import Docweave.Proofs.References.Following
import Docweave.Proofs.References.Values

/-!
Composing documents with references only.

As long as the only directives of a document are references, the only handler that is asked is
theirs, and all it does is to wait or to put a copy in the place of a reference (`invoked_copies`).
So composing such a document is a run of copies.  It never marks a node as holding its value for
good, so when it ends no directive is left at all, and the document agrees with what it has come
to.
-/

namespace Docweave

open Relation

namespace Handler

variable {σ : Type} {generators : Generators σ} {matchers : Matchers} {access : FileAccess}

theorem matchesMarkers_standard : MatchesMarkers (standard generators matchers access) := by
  intro handler hmem directive
  simp only [standard, List.mem_cons, List.not_mem_nil, or_false] at hmem
  rcases hmem with rfl | rfl | rfl | rfl | rfl | rfl <;> rfl

theorem referenceMarker_mem_standard :
    Directive.referenceMarker ∈ markers (standard generators matchers access) :=
  List.mem_cons_self

/-- Maps with the marker of references go to their handler. -/
theorem find?_standard_of_contains {fields : Fields}
    (h : Entries.contains fields Directive.referenceMarker = true) :
    find? (standard generators matchers access) fields = some .reference := by
  have htakes : (reference : Handler (Memory σ)).takes fields = true := h
  rw [find?, standard, List.find?_cons, htakes]

theorem find?_standard_reference (raw : String) :
    find? (standard generators matchers access) [(Directive.referenceMarker, .text raw)] =
      some .reference :=
  find?_standard_of_contains (by simp [Entries.contains, Entries.find?_cons])

end Handler

/-- A chain that leads to a node that is no directive comes by references only. -/
theorem Leads.chain {markers : List String} {D v : Value} {site path last : Path}
    (hmarker : Directive.referenceMarker ∈ markers) (h : Leads D site path last)
    (hlast : D.node? last = some v) (hplain : isDirective markers v = false) :
    Chain markers D site path last := by
  induction h with
  | stops habove _ => exact .found habove hlast hplain
  | link habove hn htarget _ ih =>
      have hdirective :=
        isDirective_map_iff.mpr ⟨_, hmarker, Directive.contains_of_target htarget⟩
      exact .link habove hn hdirective htarget (ih hlast)

namespace Composing

/-! ### What a reference is answered with -/

/-- A reference is answered with a copy of what its chain leads to, or not yet. -/
theorem chain_of_composeReference {context : Context} (hsound : context.document.Sound)
    (hmarker : Directive.referenceMarker ∈ context.markers) {directive : Fields}
    {outcome : Outcome} (h : Directive.composeReference directive context = .ok outcome) :
    outcome = .retry ∨ ∃ target last v,
      Directive.target directive Directive.referenceMarker = .ok target ∧
      Chain context.markers context.document.content context.path target last ∧
      context.document.content.node? last = some v ∧ isDirective context.markers v = false ∧
      outcome = .success v := by
  rcases Directive.composeReference_eq_ok h with hretry | ⟨target, v, htarget, hfollow, hsuccess⟩
  · exact .inl hretry
  · obtain ⟨last, hleads, hfound⟩ := (Directive.follow_eq_ok_iff hsound hmarker).mp hfollow
    obtain ⟨hlast, hplain⟩ := Directive.Target.ofNode?_eq_found_iff.mp hfound.symm
    have hchain := hleads.chain hmarker hlast hplain
    exact .inr ⟨target, last, v, htarget, hchain, hlast, hplain, hsuccess⟩

/-- What a reference is answered with is a node of the document. -/
theorem answer_of_composeReference {context : Context} (hsound : context.document.Sound)
    (hmarker : Directive.referenceMarker ∈ context.markers) {directive : Fields}
    {outcome : Outcome} (h : Directive.composeReference directive context = .ok outcome) :
    outcome = .retry ∨ ∃ v : Value, v.WellFormed ∧ outcome = .success v := by
  refine (chain_of_composeReference hsound hmarker h).imp_right ?_
  rintro ⟨-, last, v, -, -, hlast, -, rfl⟩
  exact ⟨v, hsound.wellFormed.of_node? hlast, rfl⟩

/-! ### Runs of copies -/

variable {σ : Type} {generators : Generators σ} {matchers : Matchers} {access : FileAccess}
  {workshop : Workshop (Memory σ)} {p q : Progress (Memory σ)} {path : Path} {b : Bool}
  {worklist : List Path}

/-- The only directives of the document are references, and no node holds its value for good. -/
structure Referring (markers : List String) (p : Progress (Memory σ)) : Prop where
  sound : p.document.Sound
  refsOnly : RefsOnly markers p.document.content
  completed : p.completed = []

/-- The reference at a node is answered with a retry. -/
def Stuck (workshop : Workshop (Memory σ)) (document : Store) (path : Path) : Prop :=
  ∃ raw, document.content.node? path = some (.reference raw) ∧
    Directive.composeReference [(Directive.referenceMarker, .text raw)]
      ⟨document, path, Handler.markers workshop.handlers, workshop.setting⟩ = .ok .retry

/-- The only directives that are handed over are references, to their own handler. -/
theorem reference_of_find {directive : Fields} {handler : Handler (Memory σ)}
    (hhandlers : workshop.handlers = Handler.standard generators matchers access)
    (hp : Referring (Handler.markers workshop.handlers) p)
    (hn : p.document.content.node? path = some (.map directive))
    (hfind : Handler.find? workshop.handlers directive = some handler) :
    handler = .reference ∧ ∃ raw, directive = [(Directive.referenceMarker, .text raw)] ∧
      isDirective (Handler.markers workshop.handlers) (.map directive) = true := by
  have hmatches : Handler.MatchesMarkers workshop.handlers :=
    hhandlers ▸ Handler.matchesMarkers_standard
  have hdirective := Handler.isDirective_of_find? hmatches hfind
  obtain ⟨raw, heq, -⟩ := (hp.refsOnly.of_node? hn).reference_of_directive hdirective
  obtain rfl := Value.map.inj heq
  rw [hhandlers, Handler.find?_standard_reference] at hfind
  exact ⟨(Option.some.inj hfind).symm, raw, rfl, hdirective⟩

/-- **Handing over a reference does nothing but wait or put a copy in its place**, of the node that
its chain leads to. -/
theorem invoked_chain (hhandlers : workshop.handlers = Handler.standard generators matchers access)
    (hroot : path ≠ []) (hp : Referring (Handler.markers workshop.handlers) p)
    (h : Invoked workshop path p b q) :
    (b = false ∧ q = p ∧ ∀ directive, p.document.get (.plain path) = .ok (.map directive) →
      Handler.find? workshop.handlers directive = none) ∨
    (∃ memory, Effect path { p with memory } b q) ∧ q.completed = [] ∧
      (q = p.noting path ∧ Stuck workshop p.document path ∨
        q.changed = true ∧ ∃ target last v,
          p.document.content.PointsTo path target ∧
          Chain (Handler.markers workshop.handlers) p.document.content path target last ∧
          p.document.content.node? last = some v ∧
          q.document.content = p.document.content.put path v) := by
  have hmarker : Directive.referenceMarker ∈ Handler.markers workshop.handlers :=
    hhandlers ▸ Handler.referenceMarker_mem_standard
  obtain huntaken | ⟨directive, handler, outcome, memory, hn, hfind, hcompose, hsettle⟩ :=
    h.untaken_or_handled hp.sound
  · exact .inl huntaken
  refine .inr ?_
  obtain ⟨rfl, raw, rfl, hdirective⟩ := reference_of_find hhandlers hp hn hfind
  obtain ⟨houtcome, rfl⟩ := Prod.mk.inj hcompose
  rcases chain_of_composeReference hp.sound hmarker houtcome with
    rfl | ⟨target, last, v, htarget, hchain, hlast, hplain, rfl⟩
  · cases hsettle
    exact ⟨⟨p.memory, .retry⟩, hp.completed, .inl ⟨rfl, raw, hn, houtcome⟩⟩
  · obtain ⟨heffect, hcompleted, hchanged, hcontent⟩ := hsettle.put hp.sound hp.completed hroot hn
      hdirective (hp.sound.wellFormed.of_node? hlast) hplain
    exact ⟨⟨p.memory, heffect⟩, hcompleted,
      .inr ⟨hchanged, target, last, v, ⟨raw, hn, htarget⟩, hchain, hlast, hcontent⟩⟩

theorem invoked_copies (hhandlers : workshop.handlers = Handler.standard generators matchers access)
    (hroot : path ≠ []) (hp : Referring (Handler.markers workshop.handlers) p)
    (h : Invoked workshop path p b q) :
    (b = false ∧ q = p ∧ ∀ directive, p.document.get (.plain path) = .ok (.map directive) →
      Handler.find? workshop.handlers directive = none) ∨
    (∃ memory, Effect path { p with memory } b q) ∧ q.completed = [] ∧
      (q = p.noting path ∧ Stuck workshop p.document path ∨
        q.changed = true ∧
          Copied (Handler.markers workshop.handlers) p.document.content q.document.content) := by
  have hmarker : Directive.referenceMarker ∈ Handler.markers workshop.handlers :=
    hhandlers ▸ Handler.referenceMarker_mem_standard
  refine (invoked_chain hhandlers hroot hp h).imp_right (And.imp_right (And.imp_right ?_))
  refine Or.imp_right (And.imp_right ?_)
  rintro ⟨target, last, v, ⟨raw, hn, htarget⟩, hchain, hlast, hcontent⟩
  rw [hcontent]
  exact .copy hp.sound.wellFormed hp.refsOnly hn (isDirective_reference hmarker raw) htarget hchain
    hlast

theorem kept_of_standard
    (hhandlers : workshop.handlers = Handler.standard generators matchers access) :
    Kept workshop (Referring (Handler.markers workshop.handlers)) where
  sound hp := hp.sound
  noting hp := ⟨hp.sound, hp.refsOnly, hp.completed⟩
  fresh hp := ⟨hp.sound, hp.refsOnly, hp.completed⟩
  invoked := fun {path p b q} hroot hp h => by
    obtain ⟨-, rfl, -⟩ | ⟨⟨memory, heffect⟩, hcompleted, ⟨rfl, -⟩ | ⟨-, hcopied⟩⟩ :=
      invoked_copies hhandlers hroot hp h
    · exact hp
    · exact ⟨hp.sound, hp.refsOnly, hp.completed⟩
    · obtain ⟨old, hn⟩ := h.exists_node hp.sound
      exact ⟨heffect.sound hp.sound hroot hn, hcopied.refsOnly, hcompleted⟩
  effect := fun hroot hp h =>
    (invoked_copies hhandlers hroot hp h).imp id fun ⟨heffect, _⟩ => heffect

/-- Nothing is written, or the document goes on by copies. -/
def GoesOn (markers : List String) (p q : Progress (Memory σ)) : Prop :=
  q.document = p.document ∧ q.changed = p.changed ∨
    q.changed = true ∧ TransGen (Copied markers) p.document.content q.document.content

namespace GoesOn

variable {markers : List String} {r : Progress (Memory σ)}

theorem trans (hpq : GoesOn markers p q) (hqr : GoesOn markers q r) : GoesOn markers p r := by
  rcases hpq with ⟨hdocument, hchanged⟩ | ⟨hchanged, hcopies⟩
  · rcases hqr with ⟨hdocument', hchanged'⟩ | ⟨hchanged', hcopies'⟩
    · exact .inl ⟨hdocument'.trans hdocument, hchanged'.trans hchanged⟩
    · exact .inr ⟨hchanged', hdocument ▸ hcopies'⟩
  · rcases hqr with ⟨hdocument', hchanged'⟩ | ⟨hchanged', hcopies'⟩
    · exact .inr ⟨hchanged'.trans hchanged, hdocument' ▸ hcopies⟩
    · exact .inr ⟨hchanged', hcopies.trans hcopies'⟩

theorem copies (h : GoesOn markers p q) :
    ReflTransGen (Copied markers) p.document.content q.document.content := by
  rcases h with ⟨hdocument, -⟩ | ⟨-, hcopies⟩
  · rw [hdocument]
  · exact hcopies.to_reflTransGen

end GoesOn

/-- Looking through a node is a run of copies. -/
theorem frame_of_standard
    (hhandlers : workshop.handlers = Handler.standard generators matchers access) :
    Frame workshop fun _ p q => Referring (Handler.markers workshop.handlers) p →
      Referring (Handler.markers workshop.handlers) q ∧
        GoesOn (Handler.markers workshop.handlers) p q where
  refl _ _ hp := ⟨hp, .inl ⟨rfl, rfl⟩⟩
  trans hpq hqr hp :=
    have ⟨hq, hgoes⟩ := hpq hp
    ⟨(hqr hq).1, hgoes.trans (hqr hq).2⟩
  widen h := h
  noting _ _ hp := ⟨⟨hp.sound, hp.refsOnly, hp.completed⟩, .inl ⟨rfl, rfl⟩⟩
  invoked := fun {path p b q} hroot h hp => by
    refine ⟨(kept_of_standard hhandlers).invoked hroot hp h, ?_⟩
    obtain ⟨-, rfl, -⟩ | ⟨-, -, ⟨rfl, -⟩ | ⟨hchanged, hcopied⟩⟩ :=
      invoked_copies hhandlers hroot hp h
    · exact .inl ⟨rfl, rfl⟩
    · exact .inl ⟨rfl, rfl⟩
    · exact .inr ⟨hchanged, .single hcopied⟩

theorem Ended.copies (hhandlers : workshop.handlers = Handler.standard generators matchers access)
    (h : Ended workshop worklist p q) (hp : Referring (Handler.markers workshop.handlers) p) :
    Referring (Handler.markers workshop.handlers) q ∧
      ReflTransGen (Copied (Handler.markers workshop.handlers)) p.document.content
        q.document.content := by
  induction h with
  | last hpass hnone =>
      have hfresh := (kept_of_standard hhandlers).fresh hp
      obtain ⟨hq, hgoes⟩ := (frame_of_standard hhandlers).passed hpass hfresh
      exact ⟨hq, hgoes.copies⟩
  | next hpass hrest ih =>
      have hfresh := (kept_of_standard hhandlers).fresh hp
      obtain ⟨hq, hgoes⟩ := (frame_of_standard hhandlers).passed hpass hfresh
      obtain ⟨hr, hrest⟩ := ih hq
      exact ⟨hr, hgoes.copies.trans hrest⟩

/-- When composing ends no reference is left at or below the node it started at. -/
theorem Ended.plain {start r : Path} {w : Value}
    (hhandlers : workshop.handlers = Handler.standard generators matchers access)
    (h : Ended workshop [start] p q) (hp : Referring (Handler.markers workshop.handlers) p)
    (hn : q.document.content.node? (start ++ r) = some w) :
    isDirective (Handler.markers workshop.handlers) w = false :=
  h.plain_of_kept (kept_of_standard hhandlers)
    (Handler.taking_of_matchesMarkers (hhandlers ▸ Handler.matchesMarkers_standard))
    (fun hp => hp.completed) hp hn

end Composing

namespace Composer

open Composing

variable {σ : Type} {generators : Generators σ} {world : σ} {options : ComposeOptions}
  {setting : Setting} {content : Value} {composer : Composer (Memory σ)}

/-- The markers of the standard handlers. -/
def standardMarkers : List String :=
  [Directive.referenceMarker, Directive.overlayMarker, Directive.fileMarker,
    Directive.includeMarker, Directive.generatorMarker, Directive.matcherMarker]

theorem handlers_standard :
    ((Composer.standard generators world options content).workshop setting).handlers =
      Handler.standard generators Matchers.standard ⟨⟨options.base?⟩, options.caching⟩ :=
  rfl

theorem content_standard :
    (Composer.standard generators world options content).progress.document.content = content :=
  Store.content_wrap _ _

theorem referring_standard (hwell : content.WellFormed) (hrefs : RefsOnly standardMarkers content) :
    Referring standardMarkers (Composer.standard generators world options content).progress := by
  refine ⟨Store.sound_wrap hwell _, ?_, rfl⟩
  rwa [content_standard]

/-- Composing a document with references only is a run of copies, until no directive is left. -/
theorem compose_copies (hwell : content.WellFormed) (hrefs : RefsOnly standardMarkers content)
    (h : (Composer.standard generators world options content).compose setting =
      some (.ok (), composer)) :
    composer.store.content.WellFormed ∧
      (∀ path v, composer.store.content.node? path = some v →
        isDirective standardMarkers v = false) ∧
      ReflTransGen (Copied standardMarkers) content composer.store.content := by
  obtain ⟨q, hended, rfl⟩ := exists_ended_of_composeAt h
  have hstart : Referring standardMarkers
      (Composer.standard generators world options content).progress :=
    referring_standard hwell hrefs
  obtain ⟨hq, hcopies⟩ := hended.copies handlers_standard hstart
  rw [content_standard] at hcopies
  exact ⟨hq.sound.wellFormed, fun path v hv => hended.plain handlers_standard hstart hv, hcopies⟩

/-- **Composing a document with references only keeps everything outside of references, leaves no
directive, and makes every reference what its target is in the end.** -/
theorem compose_references (hwell : content.WellFormed) (hrefs : RefsOnly standardMarkers content)
    (h : (Composer.standard generators world options content).compose setting =
      some (.ok (), composer)) :
    (∀ path v, content.node? path = some v →
      (∀ above d, above <+: path → content.node? above = some d →
        isDirective standardMarkers d = false) →
      ∃ w, composer.store.content.node? path = some w ∧ w.head = v.head) ∧
    (∀ path v, composer.store.content.node? path = some v →
      isDirective standardMarkers v = false) ∧
    ∀ path raw, content.node? path = some (.reference raw) →
      ∃ target v, Directive.target [(Directive.referenceMarker, .text raw)]
          Directive.referenceMarker = .ok target ∧
        composer.store.content.node? path = some v ∧
        composer.store.content.node? target = some v := by
  obtain ⟨hF, hplain, hcopies⟩ := compose_copies hwell hrefs h
  have hagrees := Agrees.of_copies hF hplain hcopies
  refine ⟨hagrees.heads, hplain, fun path raw hn => ?_⟩
  refine hagrees.refs path _ hn (isDirective_map_iff.mpr ⟨_, List.mem_cons_self, ?_⟩)
  simp [Entries.contains, Entries.find?_cons]

/-- A text and a reference to it. -/
def textAndReference : Value :=
  .map [("a", .text "x"), ("b", .reference "/a")]

/-- A composer of a text and a reference to it. -/
def textAndReferenceComposer : Composer (Memory Unit) :=
  .standard .empty () { backend := .direct } textAndReference

/-- The reference becomes the text. -/
theorem compose_text_and_reference :
    textAndReference.WellFormed ∧ RefsOnly standardMarkers textAndReference ∧
      ∃ composer, textAndReferenceComposer.compose bareSetting = some (.ok (), composer) ∧
        ∃ target v, Directive.target [(Directive.referenceMarker, .text "/a")]
            Directive.referenceMarker = .ok target ∧
          composer.store.content.node? ["b"] = some v ∧
          composer.store.content.node? target = some v := by
  have hwell : textAndReference.WellFormed := by
    simp [textAndReference, Value.reference, Value.wellFormed_map_iff, Entries.Distinct,
      Entries.keys]
  have hreference : RefsOnly standardMarkers (.reference "/a") := .reference rfl (by decide)
  have hrefs : RefsOnly standardMarkers textAndReference := by
    refine .node (fun h => absurd h (by decide)) ?_
    simpa [textAndReference, Value.entries, hreference] using .scalar rfl
  obtain ⟨q, hround⟩ : ∃ q, round (textAndReferenceComposer.workshop bareSetting) [[]]
      textAndReferenceComposer.progress = some (.ended (.ok ()) q) := ⟨_, rfl⟩
  have hcompose : textAndReferenceComposer.compose bareSetting =
      some (.ok (), textAndReferenceComposer.resume q) :=
    Option.map_eq_some_iff.mpr ⟨_, passes_eq_some_iff.mpr (.ended hround), rfl⟩
  exact ⟨hwell, hrefs, _, hcompose, (compose_references hwell hrefs hcompose).2.2 ["b"] "/a" rfl⟩

end Composer

end Docweave
