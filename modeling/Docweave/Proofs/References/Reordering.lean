import Docweave.Proofs.References.Settling
import Docweave.Proofs.Reordering

/-!
Composing documents with references only does not depend on the order of keys.

The order decides which reference is looked at first, so which copies still hold references of their
own, which references have to wait, and in how many passes the document is done.  None of this is in
what the document comes to (`Comes`): a value of a path in one document is built up again in the
reordered one, node by node and reference by reference.  Composing ends without a fault exactly if
the document comes to something (`Composer.compose_iff_comes`), so it does for both or for neither.
-/

namespace Docweave

variable {markers : List String} {D D' v w : Value} {p l t : Path}

namespace Value

theorem Reordered.eq_of_scalar (h : Reordered v w) (hv : v.isContainer = false) : w = v := by
  cases h with
  | scalar _ => rfl
  | list _ _ | map _ _ => exact absurd hv (by simp [isContainer])

/-- A map with one key has no other order. -/
theorem Reordered.eq_reference {raw : String} (h : Reordered (reference raw) w) :
    w = reference raw := by
  rw [reference] at h
  cases h with
  | scalar hscalar => exact absurd hscalar (by simp [isContainer])
  | @map _ fields' hkeys hfields =>
      obtain ⟨⟨key, c⟩, rfl, rfl⟩ : ∃ e : String × Value,
          fields' = [e] ∧ e.1 = Directive.referenceMarker :=
        List.map_eq_singleton_iff.mp (List.singleton_perm.mp hkeys).symm
      have hc : Reordered (.text raw) c :=
        hfields Directive.referenceMarker _ _ (by simp [Entries.find?_cons])
          (by simp [Entries.find?_cons])
      rw [hc.eq_of_scalar rfl, reference]

theorem PointsTo.reordered (h : D.PointsTo l t) (hD : D.Reordered D') : D'.PointsTo l t := by
  obtain ⟨raw, hn, htarget⟩ := h
  obtain ⟨w, hw, hreordered⟩ := hD.exists_node hn
  exact ⟨raw, hreordered.eq_reference ▸ hw, htarget⟩

end Value

theorem RefsOnly.reordered (h : RefsOnly markers v) (hvw : v.Reordered w) (hw : w.WellFormed) :
    RefsOnly markers w := by
  induction h generalizing w with
  | node hreference _ ih =>
      refine .node (fun hd => ?_) fun e he => ?_
      · obtain ⟨raw, rfl, hfree⟩ := hreference (hvw.isDirective_eq.trans hd)
        exact ⟨raw, hvw.eq_reference, hfree⟩
      · obtain ⟨c, hc, hce⟩ := hvw.symm.exists_child (Value.child?_of_mem_entries hw he)
        exact ih _ (Value.mem_entries_of_child? hc) hce.symm (hw.of_mem_entries he)

/-- **What a path comes to in a reordered document is reordered.** -/
theorem Comes.exists_reordered (h : Comes markers D p v) (hD : D.Reordered D') :
    ∃ v', Comes markers D' p v' ∧ v.Reordered v' := by
  induction h with
  | hop hl _ ih =>
      obtain ⟨v', hv', hreordered⟩ := ih
      exact ⟨v', .hop (hl.reordered hD) hv', hreordered⟩
  | @node p w v hfree hn hplain hhead _ ih =>
      obtain ⟨w', hn', hww'⟩ := hD.exists_node hn
      have hsome : ∀ token, (w'.child? token).isSome = true →
          ∃ u', Comes markers D' (p.child token) u' ∧
            ∀ u, v.child? token = some u → u.Reordered u' := by
        intro token htoken
        obtain ⟨d, hd⟩ := Option.isSome_iff_exists.mp htoken
        obtain ⟨c, hc, -⟩ := hww'.symm.exists_child hd
        have hsome := Value.child?_isSome_of_head_eq hhead token
        rw [hc, Option.isSome_some] at hsome
        obtain ⟨u, hu⟩ := Option.isSome_iff_exists.mp hsome
        obtain ⟨u', hu', hreordered⟩ := ih token u hu
        exact ⟨u', hu', fun x hx => Option.some.inj (hu.symm.trans hx) ▸ hreordered⟩
      obtain ⟨v', hhead', hchildren'⟩ := w'.exists_of_children hsome
      refine ⟨v', .node hfree hn' (hww'.isDirective_eq.symm.trans hplain) hhead'
        fun token u' hu' => (hchildren' token u' hu').1, ?_⟩
      exact .of_heads hww' hhead hhead' fun token u u' hu hu' => (hchildren' token u' hu').2 u hu

namespace Composer

open Composing

variable {σ : Type} {generators : Generators σ} {world : σ} {options : ComposeOptions}
  {setting : Setting} {content content' : Value}

theorem exists_compose_of_reordered (hwell : content.WellFormed)
    (hrefs : RefsOnly standardMarkers content) (hreordered : content.Reordered content')
    {composer : Composer (Memory σ)}
    (h : (Composer.standard generators world options content).compose setting =
      some (.ok (), composer)) :
    ∃ composer', (Composer.standard generators world options content').compose setting =
        some (.ok (), composer') ∧
      composer.store.content.Reordered composer'.store.content := by
  have hwell' := hreordered.wellFormed hwell
  obtain ⟨F, hF, hreorderedF⟩ :=
    ((compose_iff_comes hwell hrefs).mp ⟨composer, h, rfl⟩).exists_reordered hreordered
  obtain ⟨composer', h', heq⟩ :=
    (compose_iff_comes hwell' (hrefs.reordered hreordered hwell')).mpr hF
  exact ⟨composer', h', heq ▸ hreorderedF⟩

/-- **The order of keys decides neither whether a document with references only is composed nor what
it is composed to.** -/
theorem compose_reordered (hwell : content.WellFormed) (hrefs : RefsOnly standardMarkers content)
    (hreordered : content.Reordered content') :
    ((∃ composer, (Composer.standard generators world options content).compose setting =
        some (.ok (), composer)) ↔
      ∃ composer, (Composer.standard generators world options content').compose setting =
        some (.ok (), composer)) ∧
    ∀ composer composer',
      (Composer.standard generators world options content).compose setting =
        some (.ok (), composer) →
      (Composer.standard generators world options content').compose setting =
        some (.ok (), composer') →
      composer.store.content.Reordered composer'.store.content ∧
        composer.store.content.same composer'.store.content = true := by
  have hwell' := hreordered.wellFormed hwell
  have hrefs' := hrefs.reordered hreordered hwell'
  refine ⟨⟨fun ⟨composer, h⟩ => ?_, fun ⟨composer, h⟩ => ?_⟩, fun composer composer' h h' => ?_⟩
  · obtain ⟨composer', h', -⟩ := exists_compose_of_reordered hwell hrefs hreordered h
    exact ⟨composer', h'⟩
  · obtain ⟨composer', h', -⟩ := exists_compose_of_reordered hwell' hrefs' hreordered.symm h
    exact ⟨composer', h'⟩
  · obtain ⟨composer'', h'', hF⟩ := exists_compose_of_reordered hwell hrefs hreordered h
    obtain rfl : composer'' = composer' := (Prod.mk.inj (Option.some.inj (h''.symm.trans h'))).2
    exact ⟨hF, hF.same (compose_copies hwell hrefs h).1⟩

/-- A text behind a chain of two references. -/
def textAndChain : Fields :=
  [("a", .reference "/b"), ("b", .reference "/c"), ("c", .text "x")]

/-- A composer of a map. -/
def fieldsComposer (fields : Fields) : Composer (Memory Unit) :=
  .standard .empty () { backend := .direct } (.map fields)

/-- From the front the whole chain is followed, and from the back one reference at a time. -/
theorem compose_from_either_end :
    (Value.map textAndChain).WellFormed ∧ RefsOnly standardMarkers (.map textAndChain) ∧
      (Value.map textAndChain).Reordered (.map textAndChain.reverse) ∧
      ∃ composer composer',
        (fieldsComposer textAndChain).compose bareSetting = some (.ok (), composer) ∧
        (fieldsComposer textAndChain.reverse).compose bareSetting = some (.ok (), composer') ∧
        composer.store.content.same composer'.store.content = true := by
  have hwell : (Value.map textAndChain).WellFormed := by
    simp [textAndChain, Value.reference, Value.wellFormed_map_iff, Entries.Distinct, Entries.keys]
  have hreordered : (Value.map textAndChain).Reordered (.map textAndChain.reverse) :=
    .of_perm (Value.wellFormed_map_iff.mp hwell).1 (List.reverse_perm _).symm
  have hfirst : RefsOnly standardMarkers (.reference "/b") := .reference rfl (by decide)
  have hsecond : RefsOnly standardMarkers (.reference "/c") := .reference rfl (by decide)
  have hrefs : RefsOnly standardMarkers (.map textAndChain) := by
    refine .node (fun h => absurd h (by decide)) ?_
    simpa [textAndChain, Value.entries, hfirst, hsecond] using .scalar rfl
  obtain ⟨q, hround⟩ : ∃ q, round ((fieldsComposer textAndChain).workshop bareSetting) [[]]
      (fieldsComposer textAndChain).progress = some (.ended (.ok ()) q) := ⟨_, rfl⟩
  have hcompose : (fieldsComposer textAndChain).compose bareSetting =
      some (.ok (), (fieldsComposer textAndChain).resume q) :=
    Option.map_eq_some_iff.mpr ⟨_, passes_eq_some_iff.mpr (.ended hround), rfl⟩
  obtain ⟨hiff, hsame⟩ := @compose_reordered Unit .empty () { backend := .direct } bareSetting _ _
    hwell hrefs hreordered
  obtain ⟨composer', hcompose'⟩ := hiff.mp ⟨_, hcompose⟩
  exact ⟨hwell, hrefs, hreordered, _, composer', hcompose, hcompose',
    (hsame _ _ hcompose hcompose').2⟩

end Composer

end Docweave
