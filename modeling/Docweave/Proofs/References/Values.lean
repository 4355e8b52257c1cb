import Docweave.Proofs.References.Copies

/-!
What the nodes of a document with references stand for.

`Comes` says of a path what stands there once every reference is followed, whether the path leads to
a node already or only through references.  It does not mention composing and no order of
anything.  A path has at most one value (`Comes.unique`), and a copy in the place of a reference
changes no value of any path (`comes_iff_of_copied`): at a reference the value is that of the end of
its chain, and what is put there is what stands at that end, reference by reference.

A path with a value does not need itself.  `Needs` has a step for every hop from a reference and
for every child of a node; a value is a finite tree of such steps, so no chain of them comes back
(`Comes.acc`).
-/

namespace Docweave

/-- At `l` stands a reference with the target `t`. -/
def Value.PointsTo (D : Value) (l t : Path) : Prop :=
  ∃ raw, D.node? l = some (.reference raw) ∧
    Directive.target [(Directive.referenceMarker, .text raw)] Directive.referenceMarker = .ok t

/-- What a path comes to: at or below a reference what the target comes to, and elsewhere the node
with its children as they come to.  No path leads to the text inside a reference. -/
inductive Comes (markers : List String) (D : Value) : Path → Value → Prop
  | hop {l t q : Path} {v : Value} (hl : D.PointsTo l t) (hrest : Comes markers D (t ++ q) v) :
      Comes markers D (l ++ q) v
  | node {p : Path} {w v : Value} (hfree : Directive.referenceMarker ∉ p)
      (hn : D.node? p = some w) (hplain : isDirective markers w = false) (hhead : v.head = w.head)
      (hchildren : ∀ token u, v.child? token = some u → Comes markers D (p.child token) u) :
      Comes markers D p v

variable {markers : List String} {D D' v w : Value} {l t p q : Path}

/-! ### References and paths -/

theorem isDirective_reference (hmarker : Directive.referenceMarker ∈ markers) (raw : String) :
    isDirective markers (.reference raw) = true := by
  refine isDirective_map_iff.mpr ⟨_, hmarker, ?_⟩
  simp [Entries.contains, Entries.find?_cons]

theorem not_mem_child {token : String} (hmarker : Directive.referenceMarker ∈ markers)
    (hfree : Directive.referenceMarker ∉ p) (hplain : isDirective markers w = false)
    (hc : (w.child? token).isSome = true) : Directive.referenceMarker ∉ p.child token := by
  rw [Path.child, List.mem_append, List.mem_singleton]
  rintro (hmem | rfl)
  · exact hfree hmem
  cases w with
  | map fields =>
      have hdirective : isDirective markers (.map fields) = true :=
        isDirective_map_iff.mpr ⟨_, hmarker, hc⟩
      rw [hplain] at hdirective
      exact absurd hdirective (by simp)
  | list items =>
      -- The marker is no index.
      have hindex : index? Directive.referenceMarker = none := by decide
      rw [Value.child?, hindex] at hc
      exact absurd hc (by simp)
  | _ => exact absurd hc (by simp [Value.child?])

namespace RefsOnly

/-- A container is not inside a reference. -/
theorem not_mem_of_container (h : RefsOnly markers D)
    (hmarker : Directive.referenceMarker ∈ markers) (hn : D.node? p = some w)
    (hcontainer : w.isContainer = true) : Directive.referenceMarker ∉ p := by
  induction p using List.reverseRecOn generalizing w with
  | nil => exact List.not_mem_nil
  | append_singleton p token ih =>
      rw [← Path.child] at hn ⊢
      have hn' := hn
      rw [Value.node?_concat] at hn
      obtain ⟨above, habove, hc⟩ := Option.bind_eq_some_iff.mp hn
      have hplain : isDirective markers above = false := by
        by_contra hd
        have heq := h.eq_of_prefix (List.prefix_append p [token]) habove
          (Bool.of_not_eq_false hd) hn' hcontainer
        exact absurd heq (by simp)
      have habovecontainer : above.isContainer = true := by
        cases above <;> first | rfl | exact absurd hc (by simp [Value.child?])
      exact not_mem_child hmarker (ih habove habovecontainer) hplain (Option.isSome_of_eq_some hc)

end RefsOnly

namespace Value.PointsTo

theorem target_eq {raw : String} (h : D.PointsTo l t) (hn : D.node? l = some (.reference raw)) :
    Directive.target [(Directive.referenceMarker, .text raw)] Directive.referenceMarker =
      .ok t := by
  obtain ⟨raw', hn', htarget⟩ := h
  obtain rfl : raw = raw' := by simpa [reference] using hn.symm.trans hn'
  exact htarget

theorem unique {t' : Path} (h : D.PointsTo l t) (h' : D.PointsTo l t') : t = t' := by
  obtain ⟨raw, hn, htarget⟩ := h
  exact Except.ok.inj (htarget.symm.trans (h'.target_eq hn))

theorem marker_not_mem (h : D.PointsTo l t) (hmarker : Directive.referenceMarker ∈ markers)
    (hrefs : RefsOnly markers D) : Directive.referenceMarker ∉ t := by
  obtain ⟨raw, hn, htarget⟩ := h
  obtain ⟨raw', heq, hfree⟩ :=
    (hrefs.of_node? hn).reference_of_directive (isDirective_reference hmarker raw)
  obtain rfl : raw = raw' := by simpa [reference] using heq
  exact hfree t htarget

/-- A path leads through one reference at most. -/
theorem eq_of_append {l' t' q' : Path} (h : D.PointsTo l t) (h' : D.PointsTo l' t')
    (hmarker : Directive.referenceMarker ∈ markers) (hrefs : RefsOnly markers D)
    (heq : l ++ q = l' ++ q') : l = l' ∧ q = q' := by
  obtain ⟨raw, hn, -⟩ := h
  obtain ⟨raw', hn', -⟩ := h'
  have hl : l <+: l ++ q := List.prefix_append l q
  have hl' : l' <+: l ++ q := heq ▸ List.prefix_append l' q'
  have hsame : l = l' := by
    rcases List.prefix_or_prefix_of_prefix hl hl' with hfront | hfront
    · exact hrefs.eq_of_prefix hfront hn (isDirective_reference hmarker raw) hn' rfl
    · exact (hrefs.eq_of_prefix hfront hn' (isDirective_reference hmarker raw') hn rfl).symm
  subst hsame
  exact ⟨rfl, List.append_cancel_left heq⟩

/-- There is no reference above a node that is not inside one. -/
theorem eq_of_prefix (h : D.PointsTo l t) (hmarker : Directive.referenceMarker ∈ markers)
    (hrefs : RefsOnly markers D) (hfree : Directive.referenceMarker ∉ p)
    (hn : D.node? p = some w) (hfront : l <+: p) : l = p := by
  obtain ⟨raw, hl, -⟩ := h
  obtain ⟨r, rfl⟩ := hfront
  by_contra hne
  have hr : r ≠ [] := fun heq => hne (by rw [heq, List.append_nil])
  have heq := (hrefs.eq_of_below hl (isDirective_reference hmarker raw) hr hn).1
  exact hfree (by rw [heq]; simp)

/-- No reference is above another one. -/
theorem eq_of_reference {k s : Path} (hk : D.PointsTo k t)
    (hmarker : Directive.referenceMarker ∈ markers) (hrefs : RefsOnly markers D)
    (hl : D.PointsTo l s) (hfront : k <+: l) : k = l := by
  obtain ⟨raw, hn, -⟩ := hl
  exact hk.eq_of_prefix hmarker hrefs (hrefs.not_mem_of_container hmarker hn rfl) hn hfront

/-- There is no reference at or above a node that is none. -/
theorem not_prefix (h : D.PointsTo l t) (hmarker : Directive.referenceMarker ∈ markers)
    (hrefs : RefsOnly markers D) (hfree : Directive.referenceMarker ∉ p)
    (hn : D.node? p = some w) (hplain : isDirective markers w = false) : ¬ l <+: p := by
  intro hfront
  obtain rfl := h.eq_of_prefix hmarker hrefs hfree hn hfront
  obtain ⟨raw, hl, -⟩ := h
  obtain rfl := Option.some.inj (hl.symm.trans hn)
  rw [isDirective_reference hmarker] at hplain
  exact absurd hplain (by simp)

end Value.PointsTo

/-! ### Reading values -/

namespace Comes

variable (hmarker : Directive.referenceMarker ∈ markers) (hrefs : RefsOnly markers D)

include hmarker hrefs

/-- At or below a reference stands what stands at or below its target. -/
theorem append_iff (hl : D.PointsTo l t) :
    Comes markers D (l ++ q) v ↔ Comes markers D (t ++ q) v := by
  refine ⟨fun h => ?_, .hop hl⟩
  generalize hp : l ++ q = p at h
  cases h with
  | hop hl' hrest =>
      obtain ⟨rfl, rfl⟩ := hl.eq_of_append hl' hmarker hrefs hp
      exact hl.unique hl' ▸ hrest
  | node hfree hn hplain _ _ =>
      exact absurd (hp ▸ List.prefix_append l q) (hl.not_prefix hmarker hrefs hfree hn hplain)

theorem target_iff (hl : D.PointsTo l t) : Comes markers D l v ↔ Comes markers D t v := by
  simpa only [List.append_nil] using append_iff hmarker hrefs hl (q := []) (v := v)

theorem of_node (h : Comes markers D p v) (hfree : Directive.referenceMarker ∉ p)
    (hn : D.node? p = some w) (hplain : isDirective markers w = false) :
    v.head = w.head ∧ ∀ token u, v.child? token = some u → Comes markers D (p.child token) u := by
  cases h with
  | hop hl hrest =>
      exact absurd (List.prefix_append _ _) (hl.not_prefix hmarker hrefs hfree hn hplain)
  | node _ hn' _ hhead hchildren =>
      obtain rfl := Option.some.inj (hn'.symm.trans hn)
      exact ⟨hhead, hchildren⟩

/-- **A path comes to one value at most.** -/
theorem unique (hwell : D.WellFormed) {v' : Value} (h : Comes markers D p v)
    (h' : Comes markers D p v') : v = v' := by
  have hvalue : ∀ {p v}, Comes markers D p v → v.WellFormed := fun h => by
    induction h with
    | hop _ _ ih => exact ih
    | node _ hn _ hhead _ ih => exact (hwell.of_node? hn).of_head_eq hhead ih
  induction h generalizing v' with
  | hop hl _ ih => exact ih ((append_iff hmarker hrefs hl).mp h')
  | @node p w v hfree hn hplain hhead hchildren ih =>
      obtain ⟨hhead', hchildren'⟩ := h'.of_node hmarker hrefs hfree hn hplain
      have hv := hvalue (.node hfree hn hplain hhead hchildren)
      refine Value.eq_of_head_eq hv (hvalue h') (hhead.trans hhead'.symm) fun token => ?_
      have hsome := Value.child?_isSome_of_head_eq (hhead.trans hhead'.symm) token
      cases hu : v.child? token with
      | none =>
          rw [hu] at hsome
          exact (Option.isNone_iff_eq_none.mp (Option.isSome_eq_false_iff.mp hsome.symm)).symm
      | some u =>
          rw [hu, Option.isSome_some] at hsome
          obtain ⟨u', hu'⟩ := Option.isSome_iff_exists.mp hsome.symm
          rw [hu', ih token u hu (hchildren' token u' hu')]

/-- Nodes that hold the same value come to the same. -/
theorem of_same_node {a b : Path} {x : Value} (ha : D.node? a = some x) (hb : D.node? b = some x)
    (hafree : Directive.referenceMarker ∉ a) (hbfree : Directive.referenceMarker ∉ b)
    (h : Comes markers D (a ++ q) v) : Comes markers D (b ++ q) v := by
  have hbelow : ∀ r, D.node? (b ++ r) = D.node? (a ++ r) := fun r => by
    rw [Value.node?_append, Value.node?_append, ha, hb]
  generalize hp : a ++ q = p at h
  induction h generalizing q with
  | @hop l t q' v hl hrest _ =>
      -- The reference is at or below the node, so it is there below the other one as well.
      have hfront : a <+: l := by
        rcases List.prefix_or_prefix_of_prefix (List.prefix_append l q')
          (hp ▸ List.prefix_append a q) with hfront | hfront
        · exact (hl.eq_of_prefix hmarker hrefs hafree ha hfront) ▸ List.prefix_refl l
        · exact hfront
      obtain ⟨r, rfl⟩ := hfront
      rw [List.append_assoc] at hp
      rw [List.append_cancel_left hp, ← List.append_assoc]
      obtain ⟨raw, hn, htarget⟩ := hl
      exact .hop ⟨raw, (hbelow r).trans hn, htarget⟩ hrest
  | @node p w v hfree hn hplain hhead hchildren ih =>
      subst hp
      refine .node ?_ ((hbelow q).trans hn) hplain hhead fun token u hu => ?_
      · rw [List.mem_append] at hfree ⊢
        exact fun hmem => hmem.elim hbfree fun hq => hfree (.inr hq)
      · rw [Path.child, List.append_assoc]
        exact ih token u hu (by rw [Path.child, List.append_assoc])

end Comes

/-! ### Copies -/

theorem Value.PointsTo.of_directive (hrefs : RefsOnly markers D) {fields : Fields}
    (hn : D.node? l = some (.map fields)) (hd : isDirective markers (.map fields) = true)
    (htarget : Directive.target fields Directive.referenceMarker = .ok t) : D.PointsTo l t := by
  obtain ⟨raw, heq, -⟩ := (hrefs.of_node? hn).reference_of_directive hd
  obtain rfl := Value.map.inj heq
  exact ⟨raw, hn, htarget⟩

/-- Where the references of a chain stand, its first node comes to what its last comes to. -/
theorem Chain.comes_iff {E : Value} {path target last : Path}
    (hmarker : Directive.referenceMarker ∈ markers) (hD : RefsOnly markers D)
    (hE : RefsOnly markers E)
    (hstand : ∀ {l t}, D.PointsTo l t → ¬ l <+: path → E.PointsTo l t)
    (h : Chain markers D path target last) :
    Comes markers E (target ++ q) v ↔ Comes markers E (last ++ q) v := by
  induction h with
  | found _ _ _ => exact Iff.rfl
  | link habove hn hdirective htarget _ ih =>
      have hlink := hstand (.of_directive hD hn hdirective htarget) habove
      exact (Comes.append_iff hmarker hE hlink).trans ih

/-- What a copy of the node at `last` in the place of the reference at `path` leaves as it was. -/
structure Copying (markers : List String) (D : Value) (path last : Path) (x : Value) : Prop where
  refs : RefsOnly markers D
  refs' : RefsOnly markers (D.put path x)
  free : Directive.referenceMarker ∉ path
  lastFree : Directive.referenceMarker ∉ last
  reference : ∃ target, D.PointsTo path target
  /-- The reference and the node stand for the same. -/
  comes : ∀ {q v}, Comes markers D (path ++ q) v ↔ Comes markers D (last ++ q) v
  /-- The copy and the node hold the same. -/
  copy : (D.put path x).node? path = some x
  plain : isDirective markers x = false
  source : (D.put path x).node? last = some x
  below : ∀ r, (D.put path x).node? (path ++ r) = D.node? (last ++ r)
  /-- Every other reference stays. -/
  stands : ∀ {l t}, D.PointsTo l t → ¬ l <+: path → (D.put path x).PointsTo l t
  chain : ∀ {target q v}, D.PointsTo path target → Comes markers (D.put path x) (target ++ q) v →
    Comes markers (D.put path x) (last ++ q) v

/-- The node that the chain of a reference leads to can be copied to the reference. -/
theorem Chain.copying {path target last : Path} {x : Value}
    (hmarker : Directive.referenceMarker ∈ markers) (hD : RefsOnly markers D)
    (hat : D.PointsTo path target) (hchain : Chain markers D path target last)
    (hlast : D.node? last = some x) : Copying markers D path last x := by
  obtain ⟨raw, hn, -⟩ := id hat
  have hdirective := isDirective_reference hmarker raw
  have hD' : RefsOnly markers (D.put path x) := hD.put hn hdirective (hD.of_node? hlast)
  have hlastfree := hchain.marker_not_mem hD (hat.marker_not_mem hmarker hD)
  have hsome := Option.isSome_of_eq_some hn
  have hstands : ∀ {l t}, D.PointsTo l t → ¬ l <+: path → (D.put path x).PointsTo l t := by
    rintro l t ⟨raw, hl, hraw⟩ hnot
    refine ⟨raw, ?_, hraw⟩
    rw [Value.node?_put_beside D (fun hfront => ?_) hnot, hl]
    exact hnot (hD.eq_of_prefix hfront hn hdirective hl rfl ▸ List.prefix_refl _)
  exact {
    refs := hD
    refs' := hD'
    free := hD.not_mem_of_container hmarker hn rfl
    lastFree := hlastfree
    reference := ⟨target, hat⟩
    comes := (Comes.append_iff hmarker hD hat).trans (hchain.comes_iff hmarker hD hD fun h _ => h)
    copy := Value.node?_put_self hsome x
    plain := by
      obtain ⟨x', hlast', hplain⟩ := hchain.exists_plain
      exact Option.some.inj (hlast'.symm.trans hlast) ▸ hplain
    source := by
      rw [Value.node?_put_beside D (hchain.beside hD hn hdirective hlast hlastfree)
        hchain.not_above, hlast]
    below := fun r => by
      rw [Value.node?_put_append hsome, Value.node?_append, hlast, Option.bind_some]
    stands := hstands
    chain := fun hat' h => (hchain.comes_iff hmarker hD hD' hstands).mp (hat'.unique hat ▸ h) }

/-- A copy is made at a reference, of the node that its chain leads to. -/
theorem Copied.exists_chain (h : Copied markers D D') : ∃ path target last x,
    D' = D.put path x ∧ RefsOnly markers D ∧ D.PointsTo path target ∧
      Chain markers D path target last ∧ D.node? last = some x := by
  cases h with
  | copy _ hD hn hdirective htarget hchain hlast =>
      exact ⟨_, _, _, _, rfl, hD, .of_directive hD hn hdirective htarget, hchain, hlast⟩

theorem Copied.copying (hmarker : Directive.referenceMarker ∈ markers) (h : Copied markers D D') :
    ∃ path last x, D' = D.put path x ∧ Copying markers D path last x := by
  obtain ⟨path, target, last, x, rfl, hD, hat, hchain, hlast⟩ := h.exists_chain
  exact ⟨path, last, x, rfl, hchain.copying hmarker hD hat hlast⟩

namespace Copying

variable {path last : Path} {x : Value} (hmarker : Directive.referenceMarker ∈ markers)
  (hc : Copying markers D path last x)

include hmarker hc

/-- Values stay when a copy is made. -/
theorem comes_put (h : Comes markers D p v) : Comes markers (D.put path x) p v := by
  obtain ⟨target, hat⟩ := hc.reference
  obtain ⟨raw, hn, -⟩ := hat
  induction h with
  | @hop l t q v hl hrest ih =>
      by_cases hfront : l <+: path
      · obtain rfl := hl.eq_of_prefix hmarker hc.refs hc.free hn hfront
        exact .of_same_node hmarker hc.refs' hc.source hc.copy hc.lastFree hc.free (hc.chain hl ih)
      · exact .hop (hc.stands hl hfront) ih
  | @node p w v hfree hw hplain hhead hchildren ih =>
      obtain ⟨target, hat⟩ := hc.reference
      have hnot := hat.not_prefix hmarker hc.refs hfree hw hplain
      obtain ⟨w', hw', hwhead⟩ := Value.head_node?_put hnot hw x
      exact .node hfree hw' ((isDirective_of_head_eq hwhead).trans hplain)
        (hhead.trans hwhead.symm) ih

/-- A copy brings no values. -/
theorem comes_of_put (h : Comes markers (D.put path x) p v) : Comes markers D p v := by
  induction h with
  | @hop l t q v hl hrest ih =>
      have hl' := hl
      obtain ⟨raw, hn, hraw⟩ := hl
      by_cases hfront : path <+: l
      · -- A reference in the copy is one in what was copied.
        obtain ⟨r, rfl⟩ := hfront
        rw [List.append_assoc, hc.comes, ← List.append_assoc]
        exact .hop ⟨raw, (hc.below r).symm.trans hn, hraw⟩ ih
      · have hback : ¬ l <+: path := fun hback =>
          hfront (hl'.eq_of_prefix hmarker hc.refs' hc.free hc.copy hback ▸ List.prefix_refl path)
        exact .hop ⟨raw, (Value.node?_put_beside D hfront hback x).symm.trans hn, hraw⟩ ih
  | @node p w v hfree hw hplain hhead hchildren ih =>
      by_cases hfront : path <+: p
      · obtain ⟨r, rfl⟩ := hfront
        rw [hc.comes]
        refine .node ?_ ((hc.below r).symm.trans hw) hplain hhead fun token u hu => ?_
        · rw [List.mem_append] at hfree ⊢
          exact fun hmem => hmem.elim hc.lastFree fun hr => hfree (.inr hr)
        · have hchild := ih token u hu
          rwa [Path.child, List.append_assoc, hc.comes, ← List.append_assoc] at hchild
      · obtain ⟨w', hw', hwhead⟩ := Value.head_node?_of_put hfront hw
        exact .node hfree hw' ((isDirective_of_head_eq hwhead).symm.trans hplain)
          (hhead.trans hwhead) ih

end Copying

/-- **A copy in the place of a reference changes no value.** -/
theorem comes_iff_of_copied (hmarker : Directive.referenceMarker ∈ markers)
    (h : Copied markers D D') : Comes markers D p v ↔ Comes markers D' p v := by
  obtain ⟨path, last, x, rfl, hc⟩ := h.copying hmarker
  exact ⟨hc.comes_put hmarker, hc.comes_of_put hmarker⟩

/-- A run of copies changes no value. -/
theorem comes_iff_of_copies (hmarker : Directive.referenceMarker ∈ markers)
    (h : Relation.ReflTransGen (Copied markers) D D') :
    Comes markers D p v ↔ Comes markers D' p v := by
  induction h with
  | refl => exact Iff.rfl
  | tail _ hstep ih => exact ih.trans (comes_iff_of_copied hmarker hstep)

/-- A node without references at or below it comes to what is there. -/
theorem comes_of_no_directive_below (hmarker : Directive.referenceMarker ∈ markers)
    (hplain : ∀ r w, v.node? r = some w → isDirective markers w = false)
    (hfree : Directive.referenceMarker ∉ p) (hn : D.node? p = some v) : Comes markers D p v := by
  induction v using Value.entries_induction generalizing p with
  | node v ih =>
      have hv : isDirective markers v = false := hplain [] v (Value.node?_nil v)
      refine .node hfree hn hv rfl fun token u hu => ?_
      refine ih _ (Value.mem_entries_of_child? hu) (fun r w hr => hplain (token :: r) w ?_)
        (not_mem_child hmarker hfree hv (Option.isSome_of_eq_some hu)) ?_
      · rw [Value.node?_cons, hu, Option.bind_some, hr]
      · rw [Value.node?_concat, hn, Option.bind_some, hu]

/-- A document without references comes to itself. -/
theorem comes_of_no_directive (hmarker : Directive.referenceMarker ∈ markers)
    (hplain : ∀ q w, D.node? q = some w → isDirective markers w = false)
    (hfree : Directive.referenceMarker ∉ p) (hn : D.node? p = some v) : Comes markers D p v := by
  refine comes_of_no_directive_below hmarker (fun r w hr => hplain (p ++ r) w ?_) hfree hn
  rw [Value.node?_append, hn, Option.bind_some, hr]

end Docweave
