import Docweave.Proofs.References.Settling

/-!
Documents in which some references are written as references with changes.

A reference with changes that lists none stands for the same copy as a reference.  `Relabelled`
says that a document has such a one in the place of some references of another document, and that
nothing else differs.  The two documents have the same nodes but for the texts inside the
references, so every path that does not lead into one can be looked up in either, and what is put
in both keeps them related.  What is without directives is related to nothing but itself.
-/

namespace Docweave

/-- A reference with changes that lists none. -/
def Value.overlay (raw : String) : Value :=
  .map [(Directive.overlayMarker, .text raw)]

/-- The second document has references with changes that list none in the place of some references
of the first. -/
inductive Value.Relabelled : Value → Value → Prop
  | exchanged (raw : String) : Relabelled (.reference raw) (.overlay raw)
  | node {v w : Value} (hhead : v.head = w.head)
      (hchildren : ∀ token c d, v.child? token = some c → w.child? token = some d →
        Relabelled c d) : Relabelled v w

namespace Value

variable {markers : List String} {v w x y c d D M F : Value} {p q l t : Path} {token : String}

theorem child?_overlay {raw : String} (h : (overlay raw).child? token = some d) :
    token = Directive.overlayMarker ∧ d = .text raw := by
  simp only [overlay, child?, Entries.find?_cons, Entries.find?_nil] at h
  split at h
  · rename_i htoken
    exact ⟨htoken.symm, (Option.some.inj h).symm⟩
  · exact absurd h (by simp)

theorem child?_reference {raw : String} (h : (reference raw).child? token = some d) :
    token = Directive.referenceMarker ∧ d = .text raw := by
  simp only [reference, child?, Entries.find?_cons, Entries.find?_nil] at h
  split at h
  · rename_i htoken
    exact ⟨htoken.symm, (Option.some.inj h).symm⟩
  · exact absurd h (by simp)

theorem isDirective_overlay (hmarker : Directive.overlayMarker ∈ markers) (raw : String) :
    isDirective markers (overlay raw) = true := by
  refine isDirective_map_iff.mpr ⟨_, hmarker, ?_⟩
  simp [Entries.contains, Entries.find?_cons]

namespace Relabelled

theorem refl (v : Value) : Relabelled v v := by
  induction v using entries_induction with
  | node v ih =>
      refine .node rfl fun token c d hc hd => ?_
      obtain rfl := Option.some.inj (hc.symm.trans hd)
      exact ih _ (mem_entries_of_child? hc)

/-- Maps are related if their entries are, one by one. -/
theorem of_entries {fields fields' : Fields}
    (h : List.Forall₂ (fun e e' => e.1 = e'.1 ∧ Relabelled e.2 e'.2) fields fields') :
    Relabelled (.map fields) (.map fields') := by
  have hkeys : Entries.keys fields = Entries.keys fields' := by
    induction h with
    | nil => rfl
    | cons he _ ih =>
        rw [Entries.keys, Entries.keys, List.map_cons, List.map_cons, he.1]
        exact congrArg _ ih
  refine .node (congrArg Head.map hkeys) fun token c d hc hd => ?_
  clear hkeys
  rw [child?] at hc hd
  induction h with
  | nil => exact absurd hc (by simp [Entries.find?_nil])
  | @cons e e' es es' he _ ih =>
      rw [Entries.find?_cons] at hc hd
      by_cases hkey : e.1 = token
      · rw [if_pos hkey] at hc
        rw [if_pos (he.1 ▸ hkey)] at hd
        exact Option.some.inj hc ▸ Option.some.inj hd ▸ he.2
      · rw [if_neg hkey] at hc
        rw [if_neg (he.1 ▸ hkey)] at hd
        exact ih hc hd

theorem eq_of_reference {raw : String} (h : Relabelled (reference raw) w) :
    w = reference raw ∨ w = overlay raw := by
  generalize hv : reference raw = v at h
  cases h with
  | exchanged raw' =>
      obtain rfl : raw = raw' := by simpa [reference] using hv
      exact .inr rfl
  | node hhead hchildren =>
      subst hv
      obtain ⟨fields, rfl, hkeys⟩ := map_of_head_eq hhead.symm
      obtain ⟨⟨key, d⟩, rfl, rfl⟩ : ∃ e : String × Value,
          fields = [e] ∧ e.1 = Directive.referenceMarker := List.map_eq_singleton_iff.mp hkeys
      refine .inl ?_
      have hd : Relabelled (.text raw) d :=
        hchildren Directive.referenceMarker _ _ (by simp [reference, child?, Entries.find?_cons])
          (by simp [child?, Entries.find?_cons])
      generalize htext : Value.text raw = c at hd
      cases hd with
      | exchanged _ => exact absurd htext (by simp [reference])
      | node hhead _ =>
          subst htext
          rw [reference, ← eq_of_head_eq_of_scalar hhead.symm rfl]

theorem wellFormed (h : Relabelled v w) (hv : v.WellFormed) : w.WellFormed := by
  induction h with
  | exchanged raw => simp [overlay, wellFormed_map_iff, Entries.Distinct, Entries.keys]
  | @node v w hhead _ ih =>
      refine hv.of_head_eq hhead.symm fun token d hd => ?_
      obtain ⟨c, hc⟩ := exists_child?_of_head_eq hhead.symm hd
      exact ih token c d hc hd (hv.of_mem_entries (mem_entries_of_child? hc))

/-! ### Nodes -/

theorem exists_child (h : Relabelled v w) (htoken : token ≠ Directive.referenceMarker)
    (hc : v.child? token = some c) : ∃ d, w.child? token = some d ∧ Relabelled c d := by
  cases h with
  | exchanged raw => exact absurd (child?_reference hc).1 htoken
  | node hhead hchildren =>
      obtain ⟨d, hd⟩ := exists_child?_of_head_eq hhead hc
      exact ⟨d, hd, hchildren token c d hc hd⟩

theorem exists_original_child (h : Relabelled v w)
    (houtside : token ≠ Directive.overlayMarker ∨ d.isContainer = true)
    (hd : w.child? token = some d) : ∃ c, v.child? token = some c ∧ Relabelled c d := by
  cases h with
  | exchanged raw =>
      obtain ⟨rfl, rfl⟩ := child?_overlay hd
      exact (houtside.elim (absurd rfl) fun hcontainer => absurd hcontainer (by simp [isContainer]))
  | node hhead hchildren =>
      obtain ⟨c, hc⟩ := exists_child?_of_head_eq hhead.symm hd
      exact ⟨c, hc, hchildren token c d hc hd⟩

theorem exists_node (h : Relabelled D M) (hfree : Directive.referenceMarker ∉ p)
    (hn : D.node? p = some v) : ∃ w, M.node? p = some w ∧ Relabelled v w := by
  induction p generalizing D M with
  | nil =>
      rw [node?_nil] at hn
      exact ⟨M, node?_nil M, Option.some.inj hn ▸ h⟩
  | cons token p ih =>
      obtain ⟨htoken, hfree⟩ := not_or.mp fun hmem => hfree (List.mem_cons.mpr hmem)
      rw [node?_cons] at hn
      obtain ⟨c, hc, hn⟩ := Option.bind_eq_some_iff.mp hn
      obtain ⟨d, hd, hcd⟩ := h.exists_child (Ne.symm htoken) hc
      obtain ⟨w, hw, hvw⟩ := ih hcd hfree hn
      exact ⟨w, by rw [node?_cons, hd, Option.bind_some, hw], hvw⟩

/-- What stands in a relabelled document and not inside a reference with changes stands in the
original. -/
theorem exists_original (h : Relabelled D M)
    (houtside : Directive.overlayMarker ∉ p ∨ w.isContainer = true) (hn : M.node? p = some w) :
    ∃ v, D.node? p = some v ∧ Relabelled v w := by
  induction p generalizing D M with
  | nil =>
      rw [node?_nil] at hn
      exact ⟨D, node?_nil D, Option.some.inj hn ▸ h⟩
  | cons token p ih =>
      rw [node?_cons] at hn
      obtain ⟨d, hd, hn⟩ := Option.bind_eq_some_iff.mp hn
      have hhere : token ≠ Directive.overlayMarker ∨ d.isContainer = true := by
        refine houtside.imp (fun hfree heq => hfree (by simp [heq])) fun hcontainer => ?_
        -- What a container is below is one itself.
        cases p with
        | nil =>
            rw [node?_nil] at hn
            exact Option.some.inj hn ▸ hcontainer
        | cons next p =>
            rw [node?_cons] at hn
            obtain ⟨x, hx, -⟩ := Option.bind_eq_some_iff.mp hn
            cases d <;> first | rfl | exact absurd hx (by simp [child?])
      obtain ⟨c, hc, hcd⟩ := h.exists_original_child hhere hd
      obtain ⟨v, hv, hvw⟩ :=
        ih hcd (houtside.imp_left fun hfree hmem => hfree (List.mem_cons_of_mem _ hmem)) hn
      exact ⟨v, by rw [node?_cons, hc, Option.bind_some, hv], hvw⟩

/-- Values that are put at the same node of both documents are exchanged for another. -/
theorem put (h : Relabelled D M) (hD : (D.node? p).isSome = true) (hM : (M.node? p).isSome = true)
    (hxy : Relabelled x y) : Relabelled (D.put p x) (M.put p y) := by
  induction p generalizing D M with
  | nil => simpa using hxy
  | cons token p ih =>
      obtain ⟨v, hv⟩ := Option.isSome_iff_exists.mp hD
      obtain ⟨w, hw⟩ := Option.isSome_iff_exists.mp hM
      rw [node?_cons] at hv hw
      obtain ⟨c, hc, hv⟩ := Option.bind_eq_some_iff.mp hv
      obtain ⟨d, hd, hw⟩ := Option.bind_eq_some_iff.mp hw
      rw [put_cons_of_child? hc, put_cons_of_child? hd]
      cases h with
      | exchanged raw =>
          have hmarkers := (child?_reference hc).1.symm.trans (child?_overlay hd).1
          exact absurd hmarkers (by decide)
      | node hhead hchildren =>
          have hcd := ih (hchildren token c d hc hd) (Option.isSome_of_eq_some hv)
            (Option.isSome_of_eq_some hw)
          refine .node ((head_setChild hc _).trans (hhead.trans (head_setChild hd _).symm)) ?_
          intro other a b ha hb
          by_cases hne : token = other
          · subst hne
            rw [child?_setChild_self hc] at ha
            rw [child?_setChild_self hd] at hb
            exact Option.some.inj ha ▸ Option.some.inj hb ▸ hcd
          · rw [child?_setChild_of_ne _ hne] at ha hb
            exact hchildren other a b ha hb

/-! ### Directives -/

variable (hoverlay : Directive.overlayMarker ∈ markers)

include hoverlay

/-- Without directives nothing is relabelled. -/
theorem eq_of_plain (h : Relabelled v w) (hv : v.WellFormed)
    (hplain : ∀ q u, w.node? q = some u → isDirective markers u = false) : v = w := by
  induction h with
  | exchanged raw =>
      have hroot := hplain [] _ (node?_nil _)
      rw [isDirective_overlay hoverlay] at hroot
      exact absurd hroot (by simp)
  | @node v w hhead hchildren ih =>
      have hw : w.WellFormed := (Relabelled.node hhead hchildren).wellFormed hv
      refine eq_of_head_eq hv hw hhead fun token => ?_
      cases hc : v.child? token with
      | none =>
          refine (Option.eq_none_iff_forall_ne_some.mpr fun d hd => ?_).symm
          obtain ⟨c, hc'⟩ := exists_child?_of_head_eq hhead.symm hd
          exact absurd (hc.symm.trans hc') (by simp)
      | some c =>
          obtain ⟨d, hd⟩ := exists_child?_of_head_eq hhead hc
          rw [hd, ih token c d hc hd (hv.of_mem_entries (mem_entries_of_child? hc))
            fun q u hu => hplain (token :: q) u (by rw [node?_cons, hd, Option.bind_some, hu])]

variable (hmarker : Directive.referenceMarker ∈ markers)

include hmarker

theorem isDirective_eq (h : Relabelled v w) : isDirective markers v = isDirective markers w := by
  cases h with
  | exchanged raw => rw [isDirective_reference hmarker, isDirective_overlay hoverlay]
  | node hhead _ => exact isDirective_of_head_eq hhead

/-- Every directive of a relabelled document stands for a reference. -/
theorem exists_reference (h : Relabelled D M) (hrefs : RefsOnly markers D)
    (hn : M.node? p = some w) (hd : isDirective markers w = true) :
    ∃ raw, D.node? p = some (.reference raw) ∧ (w = reference raw ∨ w = overlay raw) := by
  obtain ⟨v, hv, hvw⟩ := h.exists_original (.inr (isContainer_of_isDirective hd)) hn
  obtain ⟨raw, rfl, -⟩ :=
    (hrefs.of_node? hv).reference_of_directive ((hvw.isDirective_eq hoverlay hmarker).trans hd)
  exact ⟨raw, hv, hvw.eq_of_reference⟩

theorem linksIn (h : Relabelled D M) (hrefs : RefsOnly markers D) : LinksIn D M := by
  intro q fields hn hcontains
  obtain ⟨raw, hD, heq | heq⟩ := h.exists_reference hoverlay hmarker hrefs hn
    (isDirective_map_iff.mpr ⟨_, hmarker, hcontains⟩)
  · exact ⟨raw, heq, hD⟩
  · obtain rfl := map.inj heq
    exact absurd hcontains (by simp [Entries.contains, Entries.find?_cons]; decide)

end Relabelled

end Value

end Docweave
