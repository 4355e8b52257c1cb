import Docweave.Proofs.References.Settling

/-!
Composing a part of a document agrees with composing the whole.

A part is composed without what its references lead to being composed first: references are copied
as they stand and followed again where they were copied to.  Copies change no value, though, and
what a document comes to says nothing about where composing began.  So if the whole document comes
to something, no pass over a part meets a fault, and a part that is left without directives is what
stands there in the end.

It is not said that the part is left without directives.  A reference may lead below a directive
outside of the part, where there is no node as long as that directive is not composed, and then
composing gives up.  But it does come to an end.  A pass that writes makes copies, and there are
only so many until the nodes are those the document comes to.  Once no pass writes any more, the
worklists can only shrink (`passes_isSome_iff`).
-/

namespace Docweave

open Relation

variable {markers : List String} {D D' F : Value} {p : Path}

/-! ### Nodes outside of references stay -/

/-- A copy leaves a node at every path that is not inside a reference. -/
theorem Copied.node?_isSome (hmarker : Directive.referenceMarker ∈ markers)
    (h : Copied markers D D') (hfree : Directive.referenceMarker ∉ p)
    (hn : (D.node? p).isSome = true) : (D'.node? p).isSome = true := by
  obtain ⟨path, last, x, rfl, hc⟩ := h.copying hmarker
  obtain ⟨w, hw⟩ := Option.isSome_iff_exists.mp hn
  by_cases hfront : path <+: p
  · obtain ⟨target, hat⟩ := hc.reference
    obtain rfl := hat.eq_of_prefix hmarker hc.refs hfree hw hfront
    exact Option.isSome_of_eq_some hc.copy
  · obtain ⟨w', hw', -⟩ := Value.head_node?_put hfront hw x
    exact Option.isSome_of_eq_some hw'

theorem node?_isSome_of_copies (hmarker : Directive.referenceMarker ∈ markers)
    (h : ReflTransGen (Copied markers) D D') (hfree : Directive.referenceMarker ∉ p)
    (hn : (D.node? p).isSome = true) : (D'.node? p).isSome = true := by
  induction h with
  | refl => exact hn
  | tail _ hstep ih => exact hstep.node?_isSome hmarker hfree ih

namespace Composing

variable {σ : Type} {generators : Generators σ} {matchers : Matchers} {access : FileAccess}
  {workshop : Workshop (Memory σ)} {p q : Progress (Memory σ)} {worklist next : List Path}
  {result : Except Fault Unit}

/-- No fault, or references that are left. -/
def Unfailing (result : Except Fault Unit) : Prop :=
  result = .ok () ∨ ∃ nodes, result = .error (.unresolvable nodes)

/-! ### Rounds over any worklist -/

/-- What a round of a document that comes to something leads to. -/
inductive Advanced (workshop : Workshop (Memory σ)) (F : Value) (p : Progress (Memory σ)) :
    Round (Memory σ) → Prop
  | ended {result : Except Fault Unit} {q : Progress (Memory σ)} (hresult : Unfailing result) :
      Advanced workshop F p (.ended result q)
  | next {worklist : List Path} {q : Progress (Memory σ)}
      (hq : Settling (Handler.markers workshop.handlers) F q)
      (hgoes : GoesOn (Handler.markers workshop.handlers) p.fresh q) :
      Advanced workshop F p (.next worklist q)

section

variable (hhandlers : workshop.handlers = Handler.standard generators matchers access)

include hhandlers

/-- **A round ends composing without a fault or with references that are left, or it goes on to the
next one.** -/
theorem exists_advanced (worklist : List Path)
    (hp : Settling (Handler.markers workshop.handlers) F p) :
    ∃ r, round workshop worklist p = some r ∧ Advanced workshop F p r := by
  obtain ⟨q, hrun, hq, hgoes⟩ := exists_settled_pass hhandlers worklist hp
  refine ⟨verdict worklist q, round_of_pass hrun, ?_⟩
  rw [verdict]
  split
  · exact .ended (.inl rfl)
  · split
    · exact .ended (.inr ⟨_, rfl⟩)
    · exact .next hq hgoes

theorem Ran.unfailing (h : Ran workshop worklist p (result, q))
    (hp : Settling (Handler.markers workshop.handlers) F p) : Unfailing result := by
  generalize hend : (result, q) = end_ at h
  induction h with
  | @ended worklist p q' result' hround =>
      obtain ⟨rfl, rfl⟩ := Prod.mk.inj hend
      obtain ⟨r, hr, hadvanced⟩ := exists_advanced hhandlers worklist hp
      obtain rfl := Option.some.inj (hround.symm.trans hr)
      cases hadvanced with
      | ended hresult => exact hresult
  | @next worklist next p q' end_ hround hrest ih =>
      obtain ⟨r, hr, hadvanced⟩ := exists_advanced hhandlers worklist hp
      obtain rfl := Option.some.inj (hround.symm.trans hr)
      cases hadvanced with
      | next hq _ => exact ih hq hend

/-- What so many rounds lead to: there is a state, and the document has gone on by copies, at least
one of them if the last round wrote anything. -/
theorem rounds_settling (hp : Settling (Handler.markers workshop.handlers) F p) (n : Nat) :
    rounds workshop worklist p n ≠ none ∧
      ∀ next q, rounds workshop worklist p n = some (.next next q) →
        Settling (Handler.markers workshop.handlers) F q ∧
          ReflTransGen (Copied (Handler.markers workshop.handlers)) p.document.content
            q.document.content ∧
          (0 < n → q.changed = true → TransGen (Copied (Handler.markers workshop.handlers))
            p.document.content q.document.content) := by
  induction n with
  | zero =>
      refine ⟨by simp [rounds], fun next q h => ?_⟩
      obtain ⟨-, rfl⟩ := Round.next.inj (Option.some.inj h)
      exact ⟨hp, .refl, fun hpos => absurd hpos (Nat.lt_irrefl 0)⟩
  | succ n ih =>
      obtain ⟨hsome, ih⟩ := ih
      rcases hn : rounds workshop worklist p n with _ | ⟨result, m⟩ | ⟨between, m⟩
      · exact absurd hn hsome
      · simp [rounds, hn]
      · obtain ⟨hm, hcopies, -⟩ := ih between m hn
        obtain ⟨r, hr, hadvanced⟩ := exists_advanced hhandlers between hm
        rw [rounds_succ_of_next hn, hr]
        refine ⟨by simp, fun next q h => ?_⟩
        obtain rfl := Option.some.inj h
        cases hadvanced with
        | next hq hgoes =>
            refine ⟨hq, hcopies.trans hgoes.copies, fun _ hchanged => ?_⟩
            rcases hgoes with ⟨-, hsame⟩ | ⟨-, hmore⟩
            · rw [hchanged] at hsame
              exact absurd hsame (by simp [Progress.fresh])
            · exact TransGen.trans_right hcopies hmore

/-- **From some round on nothing is written.** -/
theorem exists_calm (hp : Settling (Handler.markers workshop.handlers) F p) :
    ∃ N, ∀ n, N < n → ∀ next q, rounds workshop worklist p n = some (.next next q) →
      q.changed = false := by
  induction hmeasure : (missingNodes (Handler.markers workshop.handlers) F
      p.document.content).ncard using Nat.strong_induction_on generalizing worklist p with
  | _ measure ih =>
      by_cases hwrites : ∃ n, 0 < n ∧ ∃ next q,
          rounds workshop worklist p n = some (.next next q) ∧ q.changed = true
      · obtain ⟨n, hpos, next, q, hn, hchanged⟩ := hwrites
        obtain ⟨hq, -, hcopies⟩ := (rounds_settling hhandlers hp n).2 next q hn
        have hlt := ncard_missingNodes_lt (referenceMarker_mem hhandlers) hq.referring.refsOnly
          hq.comes (hcopies hpos hchanged)
        obtain ⟨N, hN⟩ := ih _ (hmeasure ▸ hlt) hq rfl
        refine ⟨n + N, fun m hm next' q' h => ?_⟩
        have hle : n ≤ m := by omega
        obtain ⟨k, rfl⟩ := Nat.exists_eq_add_of_le hle
        rw [rounds_add_of_next hn] at h
        exact hN k (by omega) next' q' h
      · refine ⟨0, fun n hpos next q h => ?_⟩
        by_contra hchanged
        exact hwrites ⟨n, hpos, next, q, h, Bool.eq_true_of_not_eq_false hchanged⟩

/-- **Composing any part of a document that comes to something ends, without a fault or with
references that are left.** -/
theorem exists_unfailing (worklist : List Path)
    (hp : Settling (Handler.markers workshop.handlers) F p) :
    ∃ result q, passes workshop worklist p = some (result, q) ∧ Unfailing result := by
  have hcalms : Calms workshop worklist p :=
    ⟨fun n => (rounds_settling hhandlers hp n).1, exists_calm hhandlers hp⟩
  obtain ⟨⟨result, q⟩, hpasses⟩ := Option.isSome_iff_exists.mp
    ((passes_isSome_iff (kept_of_standard hhandlers) hp.referring).mpr hcalms)
  exact ⟨result, q, hpasses, Ran.unfailing hhandlers (passes_eq_some_iff.mp hpasses) hp⟩

end

end Composing

namespace Composer

open Composing

variable {σ : Type} {generators generators' : Generators σ} {world world' : σ}
  {options options' : ComposeOptions} {setting setting' : Setting} {content : Value}

/-- What is left of a part that composing ends with is what stands there in the end. -/
theorem get_of_part {q : Progress (Memory σ)} {start : Pointer} {path : Path}
    (hwell : content.WellFormed) (hrefs : RefsOnly standardMarkers content)
    (hcomes : Comes standardMarkers content [] F) (hpath : start.path? = some path)
    (hfree : Directive.referenceMarker ∉ path) (hn : (content.node? path).isSome = true)
    (h : passes ((Composer.standard generators world options content).workshop setting)
      (startWorklist start) (Composer.standard generators world options content).progress =
        some (.ok (), q)) :
    ∃ v, q.document.get start = .ok v ∧ F.lookup start = .ok v := by
  have hmarker : Directive.referenceMarker ∈ standardMarkers := List.mem_cons_self
  have hstart : Referring standardMarkers
      (Composer.standard generators world options content).progress :=
    referring_standard hwell hrefs
  rw [startWorklist, hpath] at h
  have hended := Ended.of_passes h
  obtain ⟨hq, hcopies⟩ := hended.copies handlers_standard hstart
  rw [content_standard] at hcopies
  obtain ⟨v, hv⟩ := Option.isSome_iff_exists.mp
    (node?_isSome_of_copies hmarker hcopies hfree hn)
  have hpart : Comes standardMarkers content path v := by
    refine (comes_iff_of_copies hmarker hcopies).mpr
      (comes_of_no_directive_below hmarker (fun r w hr => ?_) hfree hv)
    refine hended.plain handlers_standard hstart (r := r) ?_
    rw [Value.node?_append, hv, Option.bind_some, hr]
  obtain ⟨w, hw⟩ := Option.isSome_iff_exists.mp hn
  obtain ⟨u, hu, hwhole⟩ := hcomes.exists_of_node hmarker hrefs hfree hw
  obtain rfl := hpart.unique hmarker hrefs hwell hwhole
  exact ⟨v, (Store.get_eq_ok_iff hq.sound).mpr ⟨path, hpath, hv⟩,
    Value.lookup_eq_ok_iff.mpr ⟨path, hpath, hu⟩⟩

/-- **If composing a whole document with references only ends without a fault, composing a node of
it ends as well, without a fault or with references that are left; and without a fault it ends with
what the whole document has there.** -/
theorem composeAt_part {whole : Composer (Memory σ)} {start : Pointer} {path : Path}
    (hwell : content.WellFormed) (hrefs : RefsOnly standardMarkers content)
    (hpath : start.path? = some path) (hfree : Directive.referenceMarker ∉ path)
    (hn : (content.node? path).isSome = true)
    (h : (Composer.standard generators world options content).compose setting =
      some (.ok (), whole)) :
    ∃ result part,
      (Composer.standard generators' world' options' content).composeAt setting' start =
        some (result, part) ∧
      ((result = .ok () ∧ ∃ v, part.store.get start = .ok v ∧
          whole.store.content.lookup start = .ok v) ∨
        ∃ nodes, result = .error (.unresolvable nodes)) := by
  have hcomes : Comes standardMarkers content [] whole.store.content :=
    (compose_iff_comes hwell hrefs).mp ⟨whole, h, rfl⟩
  have hstart : Referring standardMarkers
      (Composer.standard generators' world' options' content).progress :=
    referring_standard hwell hrefs
  obtain ⟨result, q, hpasses, hresult⟩ : ∃ result q,
      passes ((Composer.standard generators' world' options' content).workshop setting')
        (startWorklist start) (Composer.standard generators' world' options' content).progress =
          some (result, q) ∧ Unfailing result :=
    exists_unfailing handlers_standard _ ⟨hstart, by rwa [content_standard]⟩
  refine ⟨result, (Composer.standard generators' world' options' content).resume q,
    Option.map_eq_some_iff.mpr ⟨_, hpasses, rfl⟩, ?_⟩
  rcases hresult with rfl | hleft
  · exact .inl ⟨rfl, get_of_part hwell hrefs hcomes hpath hfree hn hpasses⟩
  · exact .inr hleft

/-- A reference to a reference in another part of the document. -/
def crossReference : Value :=
  .map [("a", .map [("x", .reference "/c")]), ("b", .reference "/a/x"), ("c", .text "y")]

/-- The part is composed although the reference it leads to never is. -/
theorem composeAt_cross_reference :
    crossReference.WellFormed ∧ RefsOnly standardMarkers crossReference ∧
      (Pointer.plain ["b"]).path? = some ["b"] ∧ Directive.referenceMarker ∉ ["b"] ∧
      (crossReference.node? ["b"]).isSome = true ∧
      ∃ whole, (Composer.standard .empty () { backend := .direct } crossReference).compose
          bareSetting = some (.ok (), whole) ∧
        ∃ result part, (Composer.standard .empty () {} crossReference).composeAt bareSetting
            (.plain ["b"]) = some (result, part) ∧
          ((result = .ok () ∧ ∃ v, part.store.get (.plain ["b"]) = .ok v ∧
              whole.store.content.lookup (.plain ["b"]) = .ok v) ∨
            ∃ nodes, result = .error (.unresolvable nodes)) := by
  have hwell : crossReference.WellFormed := by
    simp [crossReference, Value.reference, Value.wellFormed_map_iff, Entries.Distinct,
      Entries.keys]
  have hrefs : RefsOnly standardMarkers crossReference := by
    have hx : RefsOnly standardMarkers (.reference "/c") := .reference rfl (by decide)
    have hb : RefsOnly standardMarkers (.reference "/a/x") := .reference rfl (by decide)
    refine .node (fun h => absurd h (by decide)) ?_
    simp only [crossReference, Value.entries, List.forall_mem_cons, List.not_mem_nil,
      IsEmpty.forall_iff, implies_true, and_true]
    refine ⟨.node (fun h => absurd h (by decide)) ?_, hb, .scalar rfl⟩
    simpa [Value.entries] using hx
  have hfree : Directive.referenceMarker ∉ ["b"] := by decide
  obtain ⟨q, hround⟩ : ∃ q,
      round ((Composer.standard .empty () { backend := .direct } crossReference).workshop
        bareSetting) [[]] (Composer.standard .empty () { backend := .direct }
          crossReference).progress = some (.ended (.ok ()) q) := ⟨_, rfl⟩
  have hcompose : (Composer.standard .empty () { backend := .direct } crossReference).compose
      bareSetting = some (.ok (), Composer.resume _ q) :=
    Option.map_eq_some_iff.mpr ⟨_, passes_eq_some_iff.mpr (.ended hround), rfl⟩
  exact ⟨hwell, hrefs, rfl, hfree, rfl, _, hcompose,
    composeAt_part hwell hrefs rfl hfree rfl hcompose⟩

end Composer

end Docweave
