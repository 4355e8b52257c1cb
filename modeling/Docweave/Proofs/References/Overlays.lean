import Docweave.Proofs.References.Relabelling
import Docweave.Proofs.References.Reordering

/-!
Composing a document in which some references are written as references with changes.

A target that is a reference is followed at once, and one that is a reference with changes has to
be waited for, so the two ways of writing a document are composed in different orders and in
different numbers of passes.  Still every value that is written is a copy, and the original is
composed along: what it comes to has not changed, and the document at hand is the original with the
same references exchanged (`Mixing`).  Of all the references some one has a target that is a node
already, and it is copied however it is written.  So composing ends exactly if the original comes
to something, and with that.
-/

namespace Docweave

open Relation

/-! ### References with changes that list none -/

namespace Directive

theorem target_overlay (raw : String) :
    target [(overlayMarker, .text raw)] overlayMarker =
      target [(referenceMarker, .text raw)] referenceMarker := by
  simp [target, payload, Entries.find?_cons]

/-- **A reference with changes that lists none is answered like a reference.** -/
theorem composeOverlay_eq (raw : String) (context : Context) :
    composeOverlay [(overlayMarker, .text raw)] context =
      composeReference [(referenceMarker, .text raw)] context := by
  have hoption : ∀ name, "$" ++ name ≠ overlayMarker → "!" ++ name ≠ overlayMarker →
      option? [(overlayMarker, .text raw)] name = none := by
    intro name hdollar hmark
    simp [option?, Entries.find?_cons, Ne.symm hdollar, Ne.symm hmark]
  have hpresent := hoption "ifPresent" (by decide) (by decide)
  have hmissing := hoption "ifMissing" (by decide) (by decide)
  have hextend := hoption "extend" (by decide) (by decide)
  have hdelete := hoption "delete" (by decide) (by decide)
  unfold composeOverlay Overlay.read composeReference
  rw [target_overlay]
  cases target [(referenceMarker, .text raw)] referenceMarker with
  | error fault => rfl
  | ok path =>
      simp only [optionPointers, extensions, hpresent, hmissing, hextend, hdelete, bind,
        Except.bind]
      cases follow context path with
      | error fault => rfl
      | ok found => cases found <;> rfl

end Directive

namespace Handler

variable {σ : Type} {generators : Generators σ} {matchers : Matchers} {access : FileAccess}

theorem overlayMarker_mem_standard :
    Directive.overlayMarker ∈ markers (standard generators matchers access) :=
  List.mem_cons_of_mem _ List.mem_cons_self

/-- References with changes go to their handler. -/
theorem find?_standard_overlay (raw : String) :
    find? (standard generators matchers access) [(Directive.overlayMarker, .text raw)] =
      some .overlay := by
  have hreference : (reference : Handler (Memory σ)).takes [(Directive.overlayMarker, .text raw)] =
      false := by
    simp [reference, stateless, Entries.contains, Entries.find?_cons, Directive.overlayMarker,
      Directive.referenceMarker]
  have hoverlay : (overlay : Handler (Memory σ)).takes [(Directive.overlayMarker, .text raw)] =
      true := by
    simp [overlay, stateless, Entries.contains, Entries.find?_cons]
  rw [find?, standard, List.find?_cons, hreference, List.find?_cons, hoverlay]

end Handler

/-! ### Originals -/

variable {markers : List String} {D E M F v w : Value} {p l t path target last : Path}

/-- A document with references only, none of which leads into a reference with changes. -/
structure Original (markers : List String) (E : Value) : Prop where
  wellFormed : E.WellFormed
  refsOnly : RefsOnly markers E
  free : ∀ l t, E.PointsTo l t → Directive.overlayMarker ∉ t

namespace Value.PointsTo

/-- The references of a document that is none are in its entries. -/
theorem exists_entry (h : D.PointsTo l t) (hroot : ∀ raw, D ≠ .reference raw) :
    ∃ e ∈ D.entries, ∃ below, e.2.PointsTo below t := by
  obtain ⟨raw, hn, htarget⟩ := h
  cases l with
  | nil => exact absurd (Option.some.inj ((Value.node?_nil D).symm.trans hn)) (hroot raw)
  | cons token below =>
      rw [Value.node?_cons] at hn
      obtain ⟨c, hc, hn⟩ := Option.bind_eq_some_iff.mp hn
      exact ⟨_, Value.mem_entries_of_child? hc, below, raw, hn, htarget⟩

theorem isContainer (h : D.PointsTo l t) : D.isContainer = true := by
  by_contra hscalar
  have hroot : ∀ raw, D ≠ .reference raw := fun raw heq => hscalar (heq ▸ rfl)
  obtain ⟨e, he, -⟩ := h.exists_entry hroot
  rw [Value.entries_of_isContainer_eq_false (Bool.eq_false_iff.mpr hscalar)] at he
  exact absurd he List.not_mem_nil

/-- A reference has no target but its own. -/
theorem of_reference {raw : String} (h : (Value.reference raw).PointsTo l t) :
    Directive.target [(Directive.referenceMarker, .text raw)] Directive.referenceMarker =
      .ok t := by
  obtain ⟨raw', hn, htarget⟩ := h
  cases l with
  | nil =>
      have heq := Option.some.inj ((Value.node?_nil _).symm.trans hn)
      obtain rfl : raw = raw' := by simpa [Value.reference] using heq
      exact htarget
  | cons token below =>
      rw [Value.node?_cons] at hn
      obtain ⟨c, hc, hn⟩ := Option.bind_eq_some_iff.mp hn
      obtain ⟨-, rfl⟩ := Value.child?_reference hc
      exact absurd (isContainer ⟨raw', hn, htarget⟩) (by simp [Value.isContainer])

end Value.PointsTo

/-- A copy brings no targets. -/
theorem Value.PointsTo.of_copied (hmarker : Directive.referenceMarker ∈ markers)
    (h : Copied markers D E) (hl : E.PointsTo l t) : ∃ l', D.PointsTo l' t := by
  obtain ⟨path, last, x, rfl, hc⟩ := h.copying hmarker
  have hl' := hl
  obtain ⟨raw, hn, hraw⟩ := hl
  by_cases hfront : path <+: l
  · obtain ⟨r, rfl⟩ := hfront
    exact ⟨last ++ r, raw, (hc.below r).symm.trans hn, hraw⟩
  · have hback : ¬ l <+: path := fun hback =>
      hfront (hl'.eq_of_prefix hmarker hc.refs' hc.free hc.copy hback ▸ List.prefix_refl path)
    exact ⟨l, raw, (Value.node?_put_beside D hfront hback x).symm.trans hn, hraw⟩

namespace Original

theorem copied (hmarker : Directive.referenceMarker ∈ markers) (hD : Original markers D)
    (h : Copied markers D E) : Original markers E where
  wellFormed := by
    obtain ⟨hwell, -, -, -, -, -, hlast⟩ := h
    exact hwell.put (hwell.of_node? hlast) _
  refsOnly := h.refsOnly
  free := fun l t hl => by
    obtain ⟨l', hl'⟩ := hl.of_copied hmarker h
    exact hD.free l' t hl'

variable (hmarker : Directive.referenceMarker ∈ markers)
  (hoverlay : Directive.overlayMarker ∈ markers)

include hmarker hoverlay

/-- A chain in the document at hand is one in the original, and leads to the same node there. -/
theorem exists_chain (hE : Original markers E) (h : E.Relabelled M)
    (hfree : Directive.overlayMarker ∉ target) (hchain : Chain markers M path target last)
    (hlast : M.node? last = some w) :
    Chain markers E path target last ∧ ∃ v, E.node? last = some v ∧ v.Relabelled w := by
  induction hchain with
  | @found target w' habove hn hplain =>
      obtain ⟨v, hv, hvw⟩ := h.exists_original (.inl hfree) hlast
      obtain rfl := Option.some.inj (hn.symm.trans hlast)
      exact ⟨.found habove hv ((hvw.isDirective_eq hoverlay hmarker).trans hplain), v, hv, hvw⟩
  | @link target next last fields habove hn hdirective htarget _ ih =>
      obtain ⟨raw, hD, heq | heq⟩ := h.exists_reference hoverlay hmarker hE.refsOnly hn hdirective
      · obtain rfl := Value.map.inj heq
        obtain ⟨hrest, hnode⟩ := ih (hE.free target next ⟨raw, hD, htarget⟩) hlast
        exact ⟨.link habove hD hdirective htarget hrest, hnode⟩
      · -- A reference with changes is not followed.
        obtain rfl := Value.map.inj heq
        exact absurd htarget (by simp [Directive.target, Directive.payload, Entries.find?_cons,
          Directive.overlayMarker, Directive.referenceMarker])

end Original

/-! ### What is missing -/

/-- What a path comes to has no directives. -/
theorem Comes.plain (h : Comes markers D p v) {q : Path} {u : Value} (hn : v.node? q = some u) :
    isDirective markers u = false := by
  induction h generalizing q with
  | hop _ _ ih => exact ih hn
  | @node p w v _ _ hplain hhead _ ih =>
      cases q with
      | nil =>
          rw [Value.node?_nil] at hn
          exact Option.some.inj hn ▸ (isDirective_of_head_eq hhead).trans hplain
      | cons token q =>
          rw [Value.node?_cons] at hn
          obtain ⟨c, hc, hn⟩ := Option.bind_eq_some_iff.mp hn
          exact ih token c hc hn

/-- No path in a document without directives leads through a marker. -/
theorem marker_not_mem_of_plain {marker : String} (hmarker : marker ∈ markers)
    (hindex : index? marker = none)
    (hplain : ∀ q u, F.node? q = some u → isDirective markers u = false)
    (hn : (F.node? p).isSome = true) : marker ∉ p := by
  intro hmem
  obtain ⟨above, below, rfl⟩ := List.append_of_mem hmem
  have hfront : Path.child above marker <+: above ++ marker :: below :=
    ⟨below, by simp [Path.child]⟩
  have hsome := Value.node?_isSome_of_prefix hfront hn
  rw [Value.node?_concat] at hsome
  obtain ⟨c, hc⟩ := Option.isSome_iff_exists.mp hsome
  obtain ⟨w, hw, hc⟩ := Option.bind_eq_some_iff.mp hc
  have hwplain := hplain above w hw
  cases w with
  | map fields =>
      rw [isDirective_map_iff.mpr ⟨marker, hmarker, Option.isSome_of_eq_some hc⟩] at hwplain
      exact absurd hwplain (by simp)
  | list items =>
      rw [Value.child?, hindex] at hc
      exact absurd hc (by simp)
  | _ => exact absurd hc (by simp [Value.child?])

/-- The document at hand misses the nodes that the original misses. -/
theorem missingNodes_eq_of_relabelled (hmarker : Directive.referenceMarker ∈ markers)
    (hoverlay : Directive.overlayMarker ∈ markers) (hF : Comes markers E [] F)
    (h : E.Relabelled M) : missingNodes markers F M = missingNodes markers F E := by
  ext p
  refine and_congr_right fun hnode => not_congr ?_
  have hfree : Directive.overlayMarker ∉ p :=
    marker_not_mem_of_plain hoverlay (by decide) (fun q u hu => hF.plain hu) hnode
  refine and_congr_right fun hpfree => ⟨fun ⟨w, hw, hplain⟩ => ?_, fun ⟨v, hv, hplain⟩ => ?_⟩
  · obtain ⟨v, hv, hvw⟩ := h.exists_original (.inl hfree) hw
    exact ⟨v, hv, (hvw.isDirective_eq hoverlay hmarker).trans hplain⟩
  · obtain ⟨w, hw, hvw⟩ := h.exists_node hpfree hv
    exact ⟨w, hw, (hvw.isDirective_eq hoverlay hmarker).symm.trans hplain⟩

namespace Composing

variable {σ : Type} {generators : Generators σ} {matchers : Matchers} {access : FileAccess}
  {workshop : Workshop (Memory σ)} {p q : Progress (Memory σ)} {path : Path} {b : Bool}
  {worklist : List Path}

/-- A document that has references exchanged in what the original has been copied to. -/
structure Mixing (markers : List String) (D : Value) (p : Progress (Memory σ)) : Prop where
  sound : p.document.Sound
  completed : p.completed = []
  original : ∃ E, ReflTransGen (Copied markers) D E ∧ Original markers E ∧
    E.Relabelled p.document.content

/-- The directive at a node stands for a reference, with changes or not, and is answered with a
retry. -/
def Halted (workshop : Workshop (Memory σ)) (document : Store) (path : Path) : Prop :=
  ∃ raw w, document.content.node? path = some w ∧
    (w = .reference raw ∨ w = .overlay raw) ∧
    Directive.composeReference [(Directive.referenceMarker, .text raw)]
      ⟨document, path, Handler.markers workshop.handlers, workshop.setting⟩ = .ok .retry

section

variable (hhandlers : workshop.handlers = Handler.standard generators matchers access)

include hhandlers

theorem overlayMarker_mem : Directive.overlayMarker ∈ Handler.markers workshop.handlers :=
  hhandlers ▸ Handler.overlayMarker_mem_standard

/-- However a reference is written, its handler answers it like a reference. -/
theorem exists_handler {raw : String} {fields : Fields}
    (hw : Value.map fields = .reference raw ∨ Value.map fields = .overlay raw) :
    ∃ handler, Handler.find? workshop.handlers fields = some handler ∧
      ∀ context memory, handler.compose fields context memory =
        (Directive.composeReference [(Directive.referenceMarker, .text raw)] context, memory) := by
  rw [hhandlers]
  rcases hw with heq | heq <;> obtain rfl := Value.map.inj heq
  · exact ⟨_, Handler.find?_standard_reference raw, fun context memory => rfl⟩
  · refine ⟨_, Handler.find?_standard_overlay raw, fun context memory => ?_⟩
    exact Prod.ext (Directive.composeOverlay_eq raw context) rfl

/-- **Handing over a directive does nothing but wait or put a copy in its place, and the original
can be copied along.** -/
theorem invoked_mixing (hroot : path ≠ [])
    (hp : Mixing (Handler.markers workshop.handlers) D p) (h : Invoked workshop path p b q) :
    (b = false ∧ q = p ∧ ∀ directive, p.document.get (.plain path) = .ok (.map directive) →
      Handler.find? workshop.handlers directive = none) ∨
    (∃ memory, Effect path { p with memory } b q) ∧ q.completed = [] ∧
      (q = p.noting path ∧ Halted workshop p.document path ∨
        q.changed = true ∧ ∃ E E', ReflTransGen (Copied (Handler.markers workshop.handlers)) D E ∧
          Original (Handler.markers workshop.handlers) E ∧ E.Relabelled p.document.content ∧
          Copied (Handler.markers workshop.handlers) E E' ∧ E'.Relabelled q.document.content) := by
  have hmarker := referenceMarker_mem hhandlers
  have hoverlay := overlayMarker_mem hhandlers
  obtain huntaken | ⟨directive, handler, outcome, memory, hn, hfind, hcompose, hsettle⟩ :=
    h.untaken_or_handled hp.sound
  · exact .inl huntaken
  refine .inr ?_
  obtain ⟨E, hcopies, hE, hrelabelled⟩ := hp.original
  have hdirective := Handler.isDirective_of_find?
    (hhandlers ▸ Handler.matchesMarkers_standard) hfind
  obtain ⟨raw, hat, hw⟩ :=
    hrelabelled.exists_reference hoverlay hmarker hE.refsOnly hn hdirective
  obtain ⟨handler', hfind', hanswer⟩ := exists_handler hhandlers hw
  obtain rfl := Option.some.inj (hfind.symm.trans hfind')
  rw [hanswer] at hcompose
  obtain ⟨houtcome, rfl⟩ := Prod.mk.inj hcompose
  rcases chain_of_composeReference hp.sound hmarker houtcome with
    rfl | ⟨target, last, w, htarget, hchain, hlast, hplain, rfl⟩
  · cases hsettle
    exact ⟨⟨p.memory, .retry⟩, hp.completed, .inl ⟨rfl, raw, _, hn, hw, houtcome⟩⟩
  · obtain ⟨hchainE, v, hv, hvw⟩ := hE.exists_chain hmarker hoverlay hrelabelled
      (hE.free path target ⟨raw, hat, htarget⟩) hchain hlast
    have hcopied : Copied (Handler.markers workshop.handlers) E (E.put path v) :=
      .copy hE.wellFormed hE.refsOnly hat (isDirective_reference hmarker raw) htarget hchainE hv
    have hexchanged : (E.put path v).Relabelled (p.document.content.put path w) :=
      hrelabelled.put (Option.isSome_of_eq_some hat) (Option.isSome_of_eq_some hn) hvw
    obtain ⟨heffect, hcompleted, hchanged, hcontent⟩ := hsettle.put hp.sound hp.completed hroot hn
      hdirective (hp.sound.wellFormed.of_node? hlast) hplain
    exact ⟨⟨p.memory, heffect⟩, hcompleted,
      .inr ⟨hchanged, E, _, hcopies, hE, hrelabelled, hcopied, hcontent ▸ hexchanged⟩⟩

theorem kept_mixing : Kept workshop (Mixing (Handler.markers workshop.handlers) D) where
  sound hp := hp.sound
  noting hp := ⟨hp.sound, hp.completed, hp.original⟩
  fresh hp := ⟨hp.sound, hp.completed, hp.original⟩
  invoked := fun {path p b q} hroot hp h => by
    obtain ⟨-, rfl, -⟩ | ⟨⟨memory, heffect⟩, hcompleted, ⟨rfl, -⟩ |
        ⟨-, E, E', hcopies, hE, -, hcopied, hrelabelled⟩⟩ := invoked_mixing hhandlers hroot hp h
    · exact hp
    · exact ⟨hp.sound, hp.completed, hp.original⟩
    · obtain ⟨old, hn⟩ := h.exists_node hp.sound
      exact ⟨heffect.sound hp.sound hroot hn, hcompleted, E', hcopies.tail hcopied,
        hE.copied (referenceMarker_mem hhandlers) hcopied, hrelabelled⟩
  effect := fun hroot hp h =>
    (invoked_mixing hhandlers hroot hp h).imp id fun ⟨heffect, _⟩ => heffect

/-! ### Every reference is copied or waits -/

variable (hF : Comes (Handler.markers workshop.handlers) D [] F)

include hF

theorem Mixing.exists_original (hp : Mixing (Handler.markers workshop.handlers) D p) :
    ∃ E, Original (Handler.markers workshop.handlers) E ∧
      Comes (Handler.markers workshop.handlers) E [] F ∧ E.Relabelled p.document.content := by
  obtain ⟨E, hcopies, hE, hrelabelled⟩ := hp.original
  exact ⟨E, hE, (comes_iff_of_copies (referenceMarker_mem hhandlers) hcopies).mp hF, hrelabelled⟩

/-- A directive is handed over without a fault. -/
theorem exists_invoke_of_mixing (hp : Mixing (Handler.markers workshop.handlers) D p)
    (hroot : path ≠ []) {d : Value} (hn : p.document.content.node? path = some d)
    (hd : isDirective (Handler.markers workshop.handlers) d = true) :
    ∃ b q, invoke workshop path p = some (.ok b, q) := by
  have hmarker := referenceMarker_mem hhandlers
  have hoverlay := overlayMarker_mem hhandlers
  obtain ⟨E, hE, hcomes, hrelabelled⟩ := hp.exists_original hhandlers hF
  obtain ⟨raw, hat, hw⟩ := hrelabelled.exists_reference hoverlay hmarker hE.refsOnly hn hd
  obtain ⟨fields, rfl⟩ : ∃ fields, d = .map fields := by
    rcases hw with rfl | rfl
    · exact ⟨_, rfl⟩
    · exact ⟨_, rfl⟩
  obtain ⟨handler, hfind, hanswer⟩ := exists_handler hhandlers hw
  obtain ⟨u, hu⟩ := hcomes.exists_of_container hmarker hE.refsOnly hat rfl
  obtain ⟨outcome, houtcome⟩ : ∃ outcome, Directive.composeReference
      [(Directive.referenceMarker, .text raw)] (contextAt workshop path p) = .ok outcome :=
    Directive.exists_composeReference_eq_ok hmarker hE.refsOnly hat hp.sound
      (hrelabelled.linksIn hoverlay hmarker hE.refsOnly) hu
  have hcompose : handler.compose fields (contextAt workshop path p) p.memory =
      (.ok outcome, p.memory) := by rw [hanswer, houtcome]
  exact exists_invoke_of_answer hp.sound hroot hn hfind hcompose
    (answer_of_composeReference hp.sound hmarker houtcome)

/-- As long as there is a directive, there is one with a target that is a node already, so it does
not wait. -/
theorem exists_not_halted (hp : Mixing (Handler.markers workshop.handlers) D p) {d : Value}
    (hn : p.document.content.node? path = some d)
    (hd : isDirective (Handler.markers workshop.handlers) d = true) :
    ∃ l d', p.document.content.node? l = some d' ∧
      isDirective (Handler.markers workshop.handlers) d' = true ∧
      ¬ Halted workshop p.document l := by
  have hmarker := referenceMarker_mem hhandlers
  have hoverlay := overlayMarker_mem hhandlers
  obtain ⟨E, hE, hcomes, hrelabelled⟩ := hp.exists_original hhandlers hF
  obtain ⟨raw, hat, -⟩ := hrelabelled.exists_reference hoverlay hmarker hE.refsOnly hn hd
  obtain ⟨u, hu⟩ := hcomes.exists_of_container hmarker hE.refsOnly hat rfl
  obtain ⟨l, v, t, hl, hv, hplain⟩ := hu.exists_ready hmarker hE.refsOnly
    (hE.refsOnly.not_mem_of_container hmarker hat rfl) fun w hw =>
      Option.some.inj (hat.symm.trans hw) ▸ isDirective_reference hmarker raw
  obtain ⟨raw', hat', -⟩ := id hl
  obtain ⟨d', hd', hlink⟩ := hrelabelled.exists_node
    (hE.refsOnly.not_mem_of_container hmarker hat' rfl) hat'
  obtain ⟨w, hw, hvw⟩ := hrelabelled.exists_node (hl.marker_not_mem hmarker hE.refsOnly) hv
  refine ⟨l, d', hd', (hlink.isDirective_eq hoverlay hmarker).symm.trans
    (isDirective_reference hmarker raw'), fun ⟨raw'', d'', hd'', hlink', hretry⟩ => ?_⟩
  obtain rfl := Option.some.inj (hd'.symm.trans hd'')
  obtain ⟨u, hu⟩ := hcomes.exists_of_container hmarker hE.refsOnly hat' rfl
  have hcopy : Directive.composeReference [(Directive.referenceMarker, .text raw')]
      (contextAt workshop l p) = .ok (.success w) :=
    Directive.composeReference_of_plain hmarker hE.refsOnly hat' hp.sound hu hl hw
      ((hvw.isDirective_eq hoverlay hmarker).symm.trans hplain)
  obtain rfl : raw' = raw'' := by
    rcases hlink.eq_of_reference with rfl | rfl <;>
      simpa [Value.reference, Value.overlay, Directive.referenceMarker, Directive.overlayMarker]
        using hlink'
  exact absurd (hcopy.symm.trans hretry) (by simp)

theorem advancing_mixing : Advancing workshop (Mixing (Handler.markers workshop.handlers) D)
    (Halted workshop)
    fun content => (missingNodes (Handler.markers workshop.handlers) F content).ncard where
  kept := kept_mixing hhandlers
  taking := Handler.taking_of_matchesMarkers (hhandlers ▸ Handler.matchesMarkers_standard)
  completed hp := hp.completed
  root := fun hp => by
    obtain ⟨E, hE, hcomes, hrelabelled⟩ := hp.exists_original hhandlers hF
    exact (hrelabelled.isDirective_eq (overlayMarker_mem hhandlers)
      (referenceMarker_mem hhandlers)).symm.trans
        (hcomes.root_plain (referenceMarker_mem hhandlers) hE.refsOnly)
  inside := fun hp hn hd e he => by
    obtain ⟨E, hE, -, hrelabelled⟩ := hp.exists_original hhandlers hF
    obtain ⟨raw, -, rfl | rfl⟩ := hrelabelled.exists_reference (overlayMarker_mem hhandlers)
      (referenceMarker_mem hhandlers) hE.refsOnly hn hd
    all_goals
      obtain rfl := List.mem_singleton.mp he
      rfl
  answers hroot hp hn hd := exists_invoke_of_mixing hhandlers hF hp hroot hn hd
  advances := fun {path p b q} hroot hp h => by
    have hmarker := referenceMarker_mem hhandlers
    have hoverlay := overlayMarker_mem hhandlers
    obtain ⟨-, rfl, -⟩ | ⟨-, -, ⟨rfl, hhalted⟩ |
        ⟨hchanged, E, E', hcopies, hE, hrelabelled, hcopied, hrelabelled'⟩⟩ :=
      invoked_mixing hhandlers hroot hp h
    · exact .inl ⟨rfl, rfl, fun r hr => .inl hr⟩
    · refine .inl ⟨rfl, rfl, fun r hr => ?_⟩
      rcases List.mem_cons.mp hr with rfl | hr
      · exact .inr hhalted
      · exact .inl hr
    · have hcomes := (comes_iff_of_copies hmarker hcopies).mp hF
      have hcomes' := (comes_iff_of_copied hmarker hcopied).mp hcomes
      refine .inr ⟨hchanged, ?_⟩
      rw [missingNodes_eq_of_relabelled hmarker hoverlay hcomes hrelabelled,
        missingNodes_eq_of_relabelled hmarker hoverlay hcomes' hrelabelled']
      exact ncard_missingNodes_lt hmarker hcopied.refsOnly hcomes' (.single hcopied)
  waits := fun hp hhalted => by
    obtain ⟨raw, w, hn, hw, -⟩ := hhalted
    refine ⟨w, hn, ?_⟩
    rcases hw with rfl | rfl
    · exact isDirective_reference (referenceMarker_mem hhandlers) raw
    · exact Value.isDirective_overlay (overlayMarker_mem hhandlers) raw
  going hp hn hd := exists_not_halted hhandlers hF hp hn hd

end

end Composing

namespace Composer

open Composing

variable {σ : Type} {generators : Generators σ} {world : σ} {options : ComposeOptions}
  {setting : Setting} {content content' : Value}

theorem mixing_standard (hcontent : Original standardMarkers content)
    (hrelabelled : content.Relabelled content') :
    Mixing standardMarkers content
      (Composer.standard generators world options content').progress := by
  refine ⟨Store.sound_wrap (hrelabelled.wellFormed hcontent.wellFormed) _, rfl, content, .refl,
    hcontent, ?_⟩
  rwa [content_standard]

/-- **A document with some references written as references with changes is composed to what the
original comes to, if it comes to anything.** -/
theorem compose_relabelled_iff_comes (hcontent : Original standardMarkers content)
    (hrelabelled : content.Relabelled content') :
    (∃ composer, (Composer.standard generators world options content').compose setting =
      some (.ok (), composer) ∧ composer.store.content = F) ↔
    Comes standardMarkers content [] F := by
  have hmarker : Directive.referenceMarker ∈ standardMarkers := List.mem_cons_self
  have hoverlay : Directive.overlayMarker ∈ standardMarkers :=
    List.mem_cons_of_mem _ List.mem_cons_self
  have hstart : Mixing standardMarkers content
      (Composer.standard generators world options content').progress :=
    mixing_standard hcontent hrelabelled
  have hcome : ∀ {composer}, (Composer.standard generators world options content').compose setting =
      some (.ok (), composer) → Comes standardMarkers content [] composer.store.content := by
    intro composer h
    obtain ⟨q, hended, rfl⟩ := exists_ended_of_composeAt h
    obtain ⟨E, hcopies, hE, hend⟩ := ((kept_mixing handlers_standard).ended hended hstart).original
    have hplain : ∀ r w, q.document.content.node? r = some w →
        isDirective standardMarkers w = false := fun r w hw =>
      hended.plain_of_kept (kept_mixing handlers_standard)
        (Handler.taking_of_matchesMarkers Handler.matchesMarkers_standard)
        (fun hp => hp.completed) hstart hw
    -- Without directives the document is the one that the original was copied to.
    obtain rfl := hend.eq_of_plain hoverlay hE.wellFormed hplain
    exact (comes_iff_of_copies hmarker hcopies).mpr
      (comes_of_no_directive hmarker hplain List.not_mem_nil (Value.node?_nil _))
  constructor
  · rintro ⟨composer, h, rfl⟩
    exact hcome h
  · intro hcomes
    obtain ⟨q, hran⟩ : ∃ q, Ran ((Composer.standard generators world options content').workshop
        setting) [[]] (Composer.standard generators world options content').progress (.ok (), q) :=
      (advancing_mixing handlers_standard hcomes).exists_ran hstart
        fun v _ => .todo List.mem_cons_self
    have hcompose : (Composer.standard generators world options content').compose setting =
        some (.ok (), (Composer.standard generators world options content').resume q) :=
      composeAt_of_ran hran
    refine ⟨_, hcompose, ?_⟩
    exact (hcome hcompose).unique hmarker hcontent.refsOnly hcontent.wellFormed hcomes

/-- **Whether references are written as references with changes decides neither whether a document
is composed nor what it is composed to.** -/
theorem compose_relabelled (hwell : content.WellFormed) (hrefs : RefsOnly standardMarkers content)
    (hfree : ∀ l t, content.PointsTo l t → Directive.overlayMarker ∉ t)
    (hrelabelled : content.Relabelled content') :
    ((∃ composer, (Composer.standard generators world options content).compose setting =
        some (.ok (), composer)) ↔
      ∃ composer, (Composer.standard generators world options content').compose setting =
        some (.ok (), composer)) ∧
    ∀ composer composer',
      (Composer.standard generators world options content).compose setting =
        some (.ok (), composer) →
      (Composer.standard generators world options content').compose setting =
        some (.ok (), composer') →
      composer.store.content = composer'.store.content := by
  have hcontent : Original standardMarkers content := ⟨hwell, hrefs, hfree⟩
  refine ⟨⟨fun ⟨composer, h⟩ => ?_, fun ⟨composer, h⟩ => ?_⟩, fun composer composer' h h' => ?_⟩
  · have hcomes := (compose_iff_comes hwell hrefs).mp ⟨composer, h, rfl⟩
    obtain ⟨composer', h', -⟩ := (compose_relabelled_iff_comes hcontent hrelabelled).mpr hcomes
    exact ⟨composer', h'⟩
  · have hcomes := (compose_relabelled_iff_comes hcontent hrelabelled).mp ⟨composer, h, rfl⟩
    obtain ⟨composer', h', -⟩ := (compose_iff_comes hwell hrefs).mpr hcomes
    exact ⟨composer', h'⟩
  · have hcomes := (compose_iff_comes hwell hrefs).mp ⟨composer, h, rfl⟩
    have hcomes' := (compose_relabelled_iff_comes hcontent hrelabelled).mp ⟨composer', h', rfl⟩
    exact hcomes.unique List.mem_cons_self hrefs hwell hcomes'

/-- A text behind a chain of two references, the second of which is one with changes. -/
def textAndOverlay : Fields :=
  [("a", .reference "/b"), ("b", .overlay "/c"), ("c", .text "x")]

/-- A chain is followed to its end, or has to wait at the reference with changes. -/
theorem compose_chain_with_overlay :
    (Value.map textAndChain).WellFormed ∧ RefsOnly standardMarkers (.map textAndChain) ∧
      (∀ l t, (Value.map textAndChain).PointsTo l t → Directive.overlayMarker ∉ t) ∧
      (Value.map textAndChain).Relabelled (.map textAndOverlay) ∧
      ∃ composer composer',
        (fieldsComposer textAndChain).compose bareSetting = some (.ok (), composer) ∧
        (fieldsComposer textAndOverlay).compose bareSetting = some (.ok (), composer') ∧
        composer.store.content = composer'.store.content := by
  have hwell : (Value.map textAndChain).WellFormed := by
    simp [textAndChain, Value.reference, Value.wellFormed_map_iff, Entries.Distinct, Entries.keys]
  have hfirst : RefsOnly standardMarkers (.reference "/b") := .reference rfl (by decide)
  have hsecond : RefsOnly standardMarkers (.reference "/c") := .reference rfl (by decide)
  have hrefs : RefsOnly standardMarkers (.map textAndChain) := by
    refine .node (fun h => absurd h (by decide)) ?_
    simpa [textAndChain, Value.entries, hfirst, hsecond] using .scalar rfl
  have hfree : ∀ l t, (Value.map textAndChain).PointsTo l t → Directive.overlayMarker ∉ t := by
    intro l t h
    have hroot : ∀ raw, Value.map textAndChain ≠ .reference raw := fun raw => by
      simp [textAndChain, Value.reference]
    obtain ⟨e, he, below, h⟩ := h.exists_entry hroot
    simp only [textAndChain, Value.entries, List.mem_cons, List.not_mem_nil, or_false] at he
    obtain rfl | rfl | rfl := he
    · obtain rfl : t = ["b"] := Except.ok.inj (h.of_reference.symm.trans rfl)
      decide
    · obtain rfl : t = ["c"] := Except.ok.inj (h.of_reference.symm.trans rfl)
      decide
    · exact absurd h.isContainer (by simp [Value.isContainer])
  have hrelabelled : (Value.map textAndChain).Relabelled (.map textAndOverlay) :=
    .of_entries (.cons ⟨rfl, .refl _⟩ (.cons ⟨rfl, .exchanged "/c"⟩ (.cons ⟨rfl, .refl _⟩ .nil)))
  obtain ⟨q, hround⟩ : ∃ q, round ((fieldsComposer textAndChain).workshop bareSetting) [[]]
      (fieldsComposer textAndChain).progress = some (.ended (.ok ()) q) := ⟨_, rfl⟩
  have hcompose : (fieldsComposer textAndChain).compose bareSetting =
      some (.ok (), (fieldsComposer textAndChain).resume q) :=
    composeAt_of_ran (.ended hround)
  obtain ⟨hiff, hequal⟩ := @compose_relabelled Unit .empty () { backend := .direct } bareSetting _ _
    hwell hrefs hfree hrelabelled
  obtain ⟨composer', hcompose'⟩ := hiff.mp ⟨_, hcompose⟩
  exact ⟨hwell, hrefs, hfree, hrelabelled, _, composer', hcompose, hcompose',
    hequal _ _ hcompose hcompose'⟩

end Composer

end Docweave
