import Docweave.Proofs.Composing.Advancing
import Docweave.Proofs.References.Composing
import Docweave.Proofs.References.Needs

/-!
Composing a document with references only comes to what the document stands for.

Composing is a run of copies, and copies change no value, so a document without references that
composing ends with is what the document came to all along.  The other direction is that composing
ends whenever there is something to come to, which is what `Advancing` is for.  No reference is
answered with a fault, every one that is not answered with a retry is copied, and of the references
of a document one is ready for a copy.  The measure is the number of nodes that the document comes
to and does not have yet; it falls with every copy.
-/

namespace Docweave

open Relation

variable {markers : List String} {D D' F : Value}

/-! ### The measure -/

/-- The nodes of a document that are no references, without the texts inside references. -/
def plainNodes (markers : List String) (D : Value) : Set Path :=
  {p | Directive.referenceMarker ∉ p ∧ ∃ w, D.node? p = some w ∧ isDirective markers w = false}

/-- A copy makes a reference one of them. -/
theorem Copied.plainNodes_grow (hmarker : Directive.referenceMarker ∈ markers)
    (h : Copied markers D D') : plainNodes markers D ⊆ plainNodes markers D' ∧
      ∃ p ∈ plainNodes markers D', p ∉ plainNodes markers D := by
  obtain ⟨path, last, x, rfl, hc⟩ := h.copying hmarker
  obtain ⟨target, hat⟩ := hc.reference
  refine ⟨?_, path, ⟨hc.free, x, hc.copy, hc.plain⟩, ?_⟩
  · rintro p ⟨hfree, w, hw, hplain⟩
    obtain ⟨w', hw', hhead⟩ :=
      Value.head_node?_put (hat.not_prefix hmarker hc.refs hfree hw hplain) hw x
    exact ⟨hfree, w', hw', (isDirective_of_head_eq hhead).trans hplain⟩
  · rintro ⟨hfree, w, hw, hplain⟩
    exact hat.not_prefix hmarker hc.refs hfree hw hplain (List.prefix_refl path)

theorem plainNodes_grow_of_copies (hmarker : Directive.referenceMarker ∈ markers)
    (h : TransGen (Copied markers) D D') : plainNodes markers D ⊆ plainNodes markers D' ∧
      ∃ p ∈ plainNodes markers D', p ∉ plainNodes markers D := by
  induction h with
  | single hstep => exact hstep.plainNodes_grow hmarker
  | tail _ hstep ih =>
      obtain ⟨hsubset, p, hp, hnew⟩ := ih
      obtain ⟨hsubset', -⟩ := hstep.plainNodes_grow hmarker
      exact ⟨hsubset.trans hsubset', p, hsubset' hp, hnew⟩

/-- The nodes that a document comes to and does not have yet. -/
def missingNodes (markers : List String) (F D : Value) : Set Path :=
  {p | (F.node? p).isSome = true} \ plainNodes markers D

theorem ncard_missingNodes_lt (hmarker : Directive.referenceMarker ∈ markers)
    (hrefs : RefsOnly markers D') (hcomes : Comes markers D' [] F)
    (h : TransGen (Copied markers) D D') :
    (missingNodes markers F D').ncard < (missingNodes markers F D).ncard := by
  obtain ⟨hsubset, p, hp, hnew⟩ := plainNodes_grow_of_copies hmarker h
  have hnode : (F.node? p).isSome = true := by
    obtain ⟨hfree, w, hw, -⟩ := hp
    obtain ⟨u, hu, -⟩ := hcomes.exists_of_node hmarker hrefs hfree hw
    exact Option.isSome_of_eq_some hu
  refine Set.ncard_lt_ncard ?_ (F.finite_nodes.subset Set.sdiff_subset)
  exact Set.ssubset_iff_of_subset (Set.sdiff_subset_sdiff_right hsubset) |>.mpr
    ⟨p, ⟨hnode, hnew⟩, fun hmissing => hmissing.2 hp⟩

namespace Composing

variable {σ : Type} {generators : Generators σ} {matchers : Matchers} {access : FileAccess}
  {workshop : Workshop (Memory σ)} {p q : Progress (Memory σ)} {path : Path} {b : Bool}
  {worklist : List Path}

/-- A document with references only that comes to another. -/
structure Settling (markers : List String) (F : Value) (p : Progress (Memory σ)) : Prop where
  referring : Referring markers p
  comes : Comes markers p.document.content [] F

/-! ### Every reference is copied or waits -/

section

variable (hhandlers : workshop.handlers = Handler.standard generators matchers access)

include hhandlers

theorem referenceMarker_mem : Directive.referenceMarker ∈ Handler.markers workshop.handlers :=
  hhandlers ▸ Handler.referenceMarker_mem_standard

theorem Settling.of_goesOn (hp : Settling (Handler.markers workshop.handlers) F p)
    (hq : Referring (Handler.markers workshop.handlers) q)
    (h : GoesOn (Handler.markers workshop.handlers) p q) :
    Settling (Handler.markers workshop.handlers) F q :=
  ⟨hq, (comes_iff_of_copies (referenceMarker_mem hhandlers) h.copies).mp hp.comes⟩

/-- A reference is handed over without a fault. -/
theorem exists_invoke (hp : Settling (Handler.markers workshop.handlers) F p) (hroot : path ≠ [])
    {raw : String} (hn : p.document.content.node? path = some (.reference raw)) :
    ∃ b q, invoke workshop path p = some (.ok b, q) := by
  have hmarker := referenceMarker_mem hhandlers
  have hsound := hp.referring.sound
  have hrefs := hp.referring.refsOnly
  have hfind : Handler.find? workshop.handlers [(Directive.referenceMarker, .text raw)] =
      some .reference := by
    rw [hhandlers, Handler.find?_standard_reference]
  obtain ⟨u, hcomes⟩ := hp.comes.exists_of_container hmarker hrefs hn rfl
  obtain ⟨outcome, houtcome⟩ : ∃ outcome, Directive.composeReference
      [(Directive.referenceMarker, .text raw)] (contextAt workshop path p) = .ok outcome :=
    Directive.exists_composeReference_eq_ok hmarker hrefs hn hsound (hrefs.linksIn hmarker) hcomes
  refine exists_invoke_of_answer hsound hroot hn hfind (Prod.ext houtcome rfl) ?_
  exact answer_of_composeReference hsound hmarker houtcome

/-- What a document comes to is kept. -/
theorem kept_settling : Kept workshop (Settling (Handler.markers workshop.handlers) F) where
  sound hp := hp.referring.sound
  noting hp := ⟨(kept_of_standard hhandlers).noting hp.referring, hp.comes⟩
  fresh hp := ⟨(kept_of_standard hhandlers).fresh hp.referring, hp.comes⟩
  invoked hroot hp h :=
    have ⟨hq, hgoes⟩ := (frame_of_standard hhandlers).invoked hroot h hp.referring
    hp.of_goesOn hhandlers hq hgoes
  effect hroot hp h := (kept_of_standard hhandlers).effect hroot hp.referring h

/-- As long as there is a reference, there is one that is ready, so it does not wait. -/
theorem exists_not_stuck (hp : Settling (Handler.markers workshop.handlers) F p) {raw : String}
    (hn : p.document.content.node? path = some (.reference raw)) :
    ∃ l raw', p.document.content.node? l = some (.reference raw') ∧
      ¬ Stuck workshop p.document l := by
  have hmarker := referenceMarker_mem hhandlers
  have hrefs := hp.referring.refsOnly
  obtain ⟨u, hu⟩ := hp.comes.exists_of_container hmarker hrefs hn rfl
  obtain ⟨l, w, t, hat, hw, hplain⟩ := hu.exists_ready hmarker hrefs
    (hrefs.not_mem_of_container hmarker hn rfl) fun w hw =>
      Option.some.inj (hn.symm.trans hw) ▸ isDirective_reference hmarker raw
  obtain ⟨raw', hl, -⟩ := id hat
  refine ⟨l, raw', hl, fun ⟨raw'', hl', hretry⟩ => ?_⟩
  obtain ⟨u, hu⟩ := hp.comes.exists_of_container hmarker hrefs hl' rfl
  have hcopy : Directive.composeReference [(Directive.referenceMarker, .text raw'')]
      (contextAt workshop l p) = .ok (.success w) :=
    Directive.composeReference_of_plain hmarker hrefs hl' hp.referring.sound hu hat hw hplain
  exact absurd (hcopy.symm.trans hretry) (by simp)

/-- **Every reference is copied or waits, and never all of them wait.** -/
theorem advancing_settling : Advancing workshop (Settling (Handler.markers workshop.handlers) F)
    (Stuck workshop)
    fun D => (missingNodes (Handler.markers workshop.handlers) F D).ncard where
  kept := kept_settling hhandlers
  taking := Handler.taking_of_matchesMarkers (hhandlers ▸ Handler.matchesMarkers_standard)
  completed hp := hp.referring.completed
  root hp := hp.comes.root_plain (referenceMarker_mem hhandlers) hp.referring.refsOnly
  inside := fun hp hn hd e he => by
    obtain ⟨raw, rfl, -⟩ := (hp.referring.refsOnly.of_node? hn).reference_of_directive hd
    obtain rfl := List.mem_singleton.mp he
    rfl
  answers := fun hroot hp hn hd => by
    obtain ⟨raw, rfl, -⟩ := (hp.referring.refsOnly.of_node? hn).reference_of_directive hd
    exact exists_invoke hhandlers hp hroot hn
  advances := fun {path p b q} hroot hp h => by
    have hq := (kept_settling hhandlers).invoked hroot hp h
    obtain ⟨-, rfl, -⟩ | ⟨-, -, ⟨rfl, hstuck⟩ | ⟨hchanged, hcopied⟩⟩ :=
      invoked_copies hhandlers hroot hp.referring h
    · exact .inl ⟨rfl, rfl, fun r hr => .inl hr⟩
    · refine .inl ⟨rfl, rfl, fun r hr => ?_⟩
      rcases List.mem_cons.mp hr with rfl | hr
      · exact .inr hstuck
      · exact .inl hr
    · exact .inr ⟨hchanged, ncard_missingNodes_lt (referenceMarker_mem hhandlers)
        hq.referring.refsOnly hq.comes (.single hcopied)⟩
  waits := fun hp ⟨raw, hn, _⟩ => ⟨_, hn, isDirective_reference (referenceMarker_mem hhandlers) raw⟩
  going := fun hp hn hd => by
    obtain ⟨raw, rfl, -⟩ := (hp.referring.refsOnly.of_node? hn).reference_of_directive hd
    obtain ⟨l, raw', hl, hgoing⟩ := exists_not_stuck hhandlers hp hn
    exact ⟨l, _, hl, isDirective_reference (referenceMarker_mem hhandlers) raw', hgoing⟩

/-- A pass comes to its end, and the document still comes to what it came to. -/
theorem exists_settled_pass (worklist : List Path)
    (hp : Settling (Handler.markers workshop.handlers) F p) :
    ∃ q, pass workshop worklist p.fresh = some (.ok (), q) ∧
      Settling (Handler.markers workshop.handlers) F q ∧
      GoesOn (Handler.markers workshop.handlers) p.fresh q := by
  have hfresh := (kept_of_standard hhandlers).fresh hp.referring
  have hstart : Settling (Handler.markers workshop.handlers) F p.fresh := ⟨hfresh, hp.comes⟩
  obtain ⟨q, hrun⟩ := (advancing_settling hhandlers).exists_pass worklist hstart
  obtain ⟨hq, hgoes⟩ := (frame_of_standard hhandlers).passed (.of_pass hrun) hfresh
  exact ⟨q, hrun, hstart.of_goesOn hhandlers hq hgoes, hgoes⟩

end

end Composing

namespace Composer

open Composing

variable {σ : Type} {generators : Generators σ} {world : σ} {options : ComposeOptions}
  {setting : Setting} {content : Value}

/-- **Composing a document with references only ends without a fault exactly if the document comes
to something, and that is what it ends with.** -/
theorem compose_iff_comes (hwell : content.WellFormed) (hrefs : RefsOnly standardMarkers content) :
    (∃ composer, (Composer.standard generators world options content).compose setting =
      some (.ok (), composer) ∧ composer.store.content = F) ↔
    Comes standardMarkers content [] F := by
  have hmarker : Directive.referenceMarker ∈ standardMarkers := List.mem_cons_self
  have hcome : ∀ {composer}, (Composer.standard generators world options content).compose setting =
      some (.ok (), composer) → Comes standardMarkers content [] composer.store.content := by
    intro composer h
    obtain ⟨-, hplain, hcopies⟩ := compose_copies hwell hrefs h
    exact (comes_iff_of_copies hmarker hcopies).mpr
      (comes_of_no_directive hmarker hplain List.not_mem_nil (Value.node?_nil _))
  constructor
  · rintro ⟨composer, h, rfl⟩
    exact hcome h
  · intro hcomes
    have hstart : Referring standardMarkers
        (Composer.standard generators world options content).progress :=
      referring_standard hwell hrefs
    obtain ⟨q, hran⟩ : ∃ q, Ran ((Composer.standard generators world options content).workshop
        setting) [[]] (Composer.standard generators world options content).progress (.ok (), q) :=
      (advancing_settling handlers_standard).exists_ran ⟨hstart, by rwa [content_standard]⟩
        fun v _ => .todo List.mem_cons_self
    have hcompose : (Composer.standard generators world options content).compose setting =
        some (.ok (), (Composer.standard generators world options content).resume q) :=
      composeAt_of_ran hran
    exact ⟨_, hcompose, (hcome hcompose).unique hmarker hrefs hwell hcomes⟩

end Composer

end Docweave
