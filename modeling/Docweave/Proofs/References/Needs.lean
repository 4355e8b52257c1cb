import Docweave.Proofs.References.Following
import Docweave.Proofs.References.Values

/-!
What a path needs to come to its value, and what that means for following references.

`Needs` has a step for every hop from a reference and for every child of a node.  The value of a
path is a finite tree of such steps, so a path with a value never needs itself
(`Comes.not_needs_self`).  Two things follow.  A chain that is followed from a reference with a
value meets no fault: its targets can be read, and if it came back to one of its nodes, or to a
node above the reference, that node would need itself (`exists_composeReference_eq_ok`).  And as
long as a path with a value does not lead to a node that is no reference, some reference can be
answered with a copy at once (`Comes.exists_ready`): going from target to target must come to an
end, and the last target on the way is a node already.  For what is said of chains it is enough
that every link in the document at hand is a reference in the one that the values are read off
(`LinksIn`).
-/

namespace Docweave

open Relation

/-- A path needs the path that its reference leads to, and a node needs its children. -/
inductive Needs (markers : List String) (D : Value) : Path → Path → Prop
  | hop {l t q : Path} (hl : D.PointsTo l t) : Needs markers D (l ++ q) (t ++ q)
  | child {p : Path} {w : Value} {token : String} (hfree : Directive.referenceMarker ∉ p)
      (hn : D.node? p = some w) (hplain : isDirective markers w = false)
      (hc : (w.child? token).isSome = true) : Needs markers D p (p.child token)

/-- The reference at `l` leads to a node that is none. -/
def Ready (markers : List String) (D : Value) (l : Path) (w : Value) : Prop :=
  ∃ t, D.PointsTo l t ∧ D.node? t = some w ∧ isDirective markers w = false

variable {markers : List String} {D F u v w : Value} {l t p q : Path}

/-- What has a child besides the text of a target is no reference. -/
theorem RefsOnly.plain_of_child (h : RefsOnly markers D) (hn : D.node? p = some w)
    {token : String} (htoken : token ≠ Directive.referenceMarker)
    (hc : (w.child? token).isSome = true) : isDirective markers w = false := by
  by_contra hd
  obtain ⟨c, hc⟩ := Option.isSome_iff_exists.mp hc
  have hbelow := h.eq_of_below (q := [token]) hn (Bool.of_not_eq_false hd) (List.cons_ne_nil _ _)
    (w := c) (by rw [← Path.child, Value.node?_concat, hn, Option.bind_some, hc])
  exact htoken (List.singleton_inj.mp hbelow.1)

/-- Above a node that is no reference and not inside one there is none. -/
theorem RefsOnly.plain_above (h : RefsOnly markers D) (hn : D.node? (p ++ q) = some w)
    (hfree : Directive.referenceMarker ∉ q) (hplain : isDirective markers w = false) :
    ∃ above, D.node? p = some above ∧ isDirective markers above = false := by
  obtain ⟨above, habove⟩ := Option.isSome_iff_exists.mp
    (Value.node?_isSome_of_prefix (List.prefix_append p q) (Option.isSome_of_eq_some hn))
  refine ⟨above, habove, ?_⟩
  by_contra hd
  by_cases hq : q = []
  · subst hq
    rw [List.append_nil, habove] at hn
    exact hd (Option.some.inj hn ▸ hplain)
  · exact hfree (by rw [(h.eq_of_below habove (Bool.of_not_eq_false hd) hq hn).1]; simp)

namespace Comes

variable (hmarker : Directive.referenceMarker ∈ markers) (hrefs : RefsOnly markers D)

include hmarker hrefs

/-- What a document comes to has all its nodes but the texts inside references, and they come to
what is there. -/
theorem exists_of_node (h : Comes markers D [] F) (hfree : Directive.referenceMarker ∉ p)
    (hn : D.node? p = some w) : ∃ u, F.node? p = some u ∧ Comes markers D p u := by
  induction p using List.reverseRecOn generalizing w with
  | nil => exact ⟨F, Value.node?_nil F, h⟩
  | append_singleton p token ih =>
      obtain ⟨hpfree, htoken⟩ := not_or.mp (fun hmem => hfree (List.mem_append.mpr hmem))
      rw [← Path.child] at hn ⊢
      rw [Value.node?_concat] at hn
      obtain ⟨above, habove, hc⟩ := Option.bind_eq_some_iff.mp hn
      obtain ⟨u, hu, hcomes⟩ := ih hpfree habove
      have hsome := Option.isSome_of_eq_some hc
      have hplain := hrefs.plain_of_child habove (fun heq => htoken (by simp [heq])) hsome
      obtain ⟨hhead, hchildren⟩ := hcomes.of_node hmarker hrefs hpfree habove hplain
      rw [← Value.child?_isSome_of_head_eq hhead] at hsome
      obtain ⟨x, hx⟩ := Option.isSome_iff_exists.mp hsome
      exact ⟨x, by rw [Value.node?_concat, hu, Option.bind_some, hx], hchildren token x hx⟩

/-- Every container comes to something. -/
theorem exists_of_container (h : Comes markers D [] F) (hn : D.node? p = some w)
    (hcontainer : w.isContainer = true) : ∃ u, Comes markers D p u := by
  obtain ⟨u, -, hu⟩ := h.exists_of_node hmarker hrefs
    (hrefs.not_mem_of_container hmarker hn hcontainer) hn
  exact ⟨u, hu⟩

/-- A reference that comes to something has a target. -/
theorem exists_target {raw : String} (h : Comes markers D p v)
    (hn : D.node? p = some (.reference raw)) : ∃ t, D.PointsTo p t := by
  have hfree := hrefs.not_mem_of_container hmarker hn rfl
  cases h with
  | hop hl hrest =>
      have heq := hl.eq_of_prefix hmarker hrefs hfree hn (List.prefix_append _ _)
      exact ⟨_, heq ▸ hl⟩
  | node _ hn' hplain _ _ =>
      obtain rfl := Option.some.inj (hn.symm.trans hn')
      rw [isDirective_reference hmarker] at hplain
      exact absurd hplain (by simp)

/-- The root is no reference if it comes to something. -/
theorem root_plain (h : Comes markers D [] F) : isDirective markers D = false := by
  by_contra hd
  obtain ⟨raw, hraw, -⟩ := hrefs.reference_of_directive (Bool.of_not_eq_false hd)
  have hn : D.node? [] = some (.reference raw) := by rw [Value.node?_nil, hraw]
  obtain ⟨t, hroot⟩ := h.exists_target hmarker hrefs hn
  -- Every path leads through the root, so none would ever come to a node.
  generalize ([] : Path) = p at h
  induction h with
  | hop _ _ ih => exact ih
  | node hfree hn hplain _ _ =>
      exact hroot.not_prefix hmarker hrefs hfree hn hplain List.nil_prefix

end Comes

/-! ### Needs -/

namespace Needs

theorem target (hl : D.PointsTo l t) : Needs markers D l t := by
  have h : Needs markers D (l ++ []) (t ++ []) := .hop hl
  simpa only [List.append_nil] using h

theorem not_self_of_next (h : ∀ b, Needs markers D p b → ¬ TransGen (Needs markers D) b b) :
    ¬ TransGen (Needs markers D) p p := by
  intro hself
  obtain ⟨b, hb, hback⟩ := TransGen.head'_iff.mp hself
  exact h b hb (TransGen.tail' hback hb)

/-- A node needs the nodes below it. -/
theorem below (hrefs : RefsOnly markers D) (hfree : Directive.referenceMarker ∉ p)
    (hn : D.node? p = some w) (hfront : t <+: p) (hne : t ≠ p) :
    TransGen (Needs markers D) t p := by
  induction p using List.reverseRecOn generalizing w with
  | nil => exact absurd (List.prefix_nil.mp hfront) hne
  | append_singleton p token ih =>
      obtain ⟨hpfree, htoken⟩ := not_or.mp (fun hmem => hfree (List.mem_append.mpr hmem))
      rw [← Path.child] at hn hfront hne ⊢
      rw [Value.node?_concat] at hn
      obtain ⟨above, habove, hc⟩ := Option.bind_eq_some_iff.mp hn
      have hsome := Option.isSome_of_eq_some hc
      have hplain := hrefs.plain_of_child habove (fun heq => htoken (by simp [heq])) hsome
      have hstep : Needs markers D p (Path.child p token) := .child hpfree habove hplain hsome
      have hfront' := (List.prefix_concat_iff.mp hfront).resolve_left hne
      by_cases heq : t = p
      · rw [heq]
        exact .single hstep
      · exact .tail (ih hpfree habove hfront' heq) hstep

end Needs

namespace Comes

variable (hmarker : Directive.referenceMarker ∈ markers) (hrefs : RefsOnly markers D)

include hmarker hrefs

/-- **What comes to a value does not need itself.** -/
theorem not_needs_self (h : Comes markers D p v) : ¬ TransGen (Needs markers D) p p := by
  induction h with
  | @hop l t q v hl hrest ih =>
      refine Needs.not_self_of_next fun b hb => ?_
      generalize hp : l ++ q = p at hb
      cases hb with
      | hop hl' =>
          obtain ⟨rfl, rfl⟩ := hl.eq_of_append hl' hmarker hrefs hp
          exact hl.unique hl' ▸ ih
      | child hfree hn hplain hc =>
          exact absurd (hp ▸ List.prefix_append l q) (hl.not_prefix hmarker hrefs hfree hn hplain)
  | @node p w v hfree hn hplain hhead hchildren ih =>
      refine Needs.not_self_of_next fun b hb => ?_
      cases hb with
      | hop hl =>
          exact absurd (List.prefix_append _ _) (hl.not_prefix hmarker hrefs hfree hn hplain)
      | child _ hn' _ hc =>
          obtain rfl := Option.some.inj (hn'.symm.trans hn)
          rw [← Value.child?_isSome_of_head_eq hhead] at hc
          obtain ⟨u, hu⟩ := Option.isSome_iff_exists.mp hc
          exact ih _ u hu

/-- **As long as a path leads to no node, or to a reference, some reference is ready.** -/
theorem exists_ready (h : Comes markers D p v) (hfree : Directive.referenceMarker ∉ p)
    (hnot : ∀ w, D.node? p = some w → isDirective markers w = true) :
    ∃ l w, Ready markers D l w := by
  induction h with
  | node _ hn hplain _ _ =>
      rw [hnot _ hn] at hplain
      exact absurd hplain (by simp)
  | @hop l t q v hl hrest ih =>
      have htfree := hl.marker_not_mem hmarker hrefs
      by_cases hplain : ∃ w, D.node? t = some w ∧ isDirective markers w = false
      · obtain ⟨w, hw, hplain⟩ := hplain
        exact ⟨l, w, t, hl, hw, hplain⟩
      · have hqfree : Directive.referenceMarker ∉ q := fun hmem =>
          hfree (List.mem_append_right l hmem)
        refine ih (fun hmem => (List.mem_append.mp hmem).elim htfree hqfree) fun w hw => ?_
        by_contra hd
        exact hplain (hrefs.plain_above hw hqfree (Bool.eq_false_iff.mpr hd))

end Comes

/-! ### Following references that come to something -/

/-- Every map of `content` with the marker of references is a reference that `D` has at the same
place. -/
def LinksIn (D content : Value) : Prop :=
  ∀ q fields, content.node? q = some (.map fields) →
    Entries.contains fields Directive.referenceMarker = true →
    ∃ raw, Value.map fields = .reference raw ∧ D.node? q = some (.reference raw)

theorem RefsOnly.linksIn (hmarker : Directive.referenceMarker ∈ markers)
    (h : RefsOnly markers D) : LinksIn D D := by
  intro q fields hn hcontains
  obtain ⟨raw, heq, -⟩ := (h.of_node? hn).reference_of_directive
    (isDirective_map_iff.mpr ⟨_, hmarker, hcontains⟩)
  exact ⟨raw, heq, heq ▸ hn⟩

namespace Directive

variable {context : Context} {fuel : Nat} {visited : List Path} {links : List Link}
  {node path : Path} {raw : String} (hmarker : referenceMarker ∈ context.markers)
  (hrefs : RefsOnly context.markers D) (hn : D.node? context.path = some (.reference raw))

include hmarker hrefs hn

/-- A node that comes to something does not come back to what needs it. -/
theorem not_comesBack (hcomes : Comes context.markers D path v)
    (hneeds : TransGen (Needs context.markers D) context.path path)
    (hvisited : ∀ a ∈ visited, TransGen (Needs context.markers D) a path) :
    ¬ ComesBack context visited path := by
  intro hback
  refine hcomes.not_needs_self hmarker hrefs ?_
  rcases hback with hmem | hbelow
  · exact hvisited path hmem
  · obtain ⟨hfront, hne⟩ := Path.isBelow_iff_prefix_ne.mp hbelow
    have hfree := hrefs.not_mem_of_container hmarker hn rfl
    exact (Needs.below hrefs hfree hn hfront (Ne.symm hne)).trans hneeds

variable (hsound : context.document.Sound)

include hsound

/-- **A reference whose target is a node that is no directive is answered with a copy.** -/
theorem composeReference_of_plain (hcomes : Comes context.markers D context.path v) {t : Path}
    (hat : D.PointsTo context.path t)
    (hw : context.document.content.node? t = some w)
    (hplain : isDirective context.markers w = false) :
    composeReference [(referenceMarker, .text raw)] context = .ok (.success w) := by
  have hneeds : TransGen (Needs context.markers D) context.path t := .single (.target hat)
  have hnoreference : ∀ {fields}, context.document.content.node? t = some (.map fields) →
      ¬ isDirective context.markers (.map fields) = true := fun {fields} ht hd => by
    obtain rfl := Option.some.inj (ht.symm.trans hw)
    rw [hd] at hplain
    exact absurd hplain (by simp)
  have hfollow : follow context t = .ok (.found w) := by
    generalize hresult : follow context t = result
    cases Followed.of_followFrom hsound hresult with
    | cycle hback =>
        exact absurd hback (not_comesBack hmarker hrefs hn
          ((Comes.target_iff hmarker hrefs hat).mp hcomes) hneeds (by simpa using hneeds))
    | missing _ hnone => exact absurd (hnone.symm.trans hw) (by simp)
    | broken _ ht hcontains _ =>
        exact absurd (isDirective_map_iff.mpr ⟨_, hmarker, hcontains⟩) (hnoreference ht)
    | link _ ht hcontains _ _ =>
        exact absurd (isDirective_map_iff.mpr ⟨_, hmarker, hcontains⟩) (hnoreference ht)
    | pending _ ht hdirective => exact absurd hdirective (hnoreference ht)
    | found _ ht _ => rw [Option.some.inj (ht.symm.trans hw)]
  simp only [composeReference, hat.target_eq hn, hfollow, bind, Except.bind]

variable (hlinks : LinksIn D context.document.content)

include hlinks

/-- A chain whose targets come to something, and that all nodes of the chain and the reference at
its beginning need, ends in no fault but for the bound. -/
theorem followFrom_eq_error_of_comes (hcomes : Comes context.markers D path v)
    (hneeds : TransGen (Needs context.markers D) context.path path)
    (hvisited : ∀ a ∈ visited, TransGen (Needs context.markers D) a path)
    {fault : Fault} (h : followFrom context fuel visited links node path = .error fault) :
    fault = .exhausted := by
  induction fuel generalizing visited links node path with
  | zero => exact (Except.error.inj h).symm
  | succ fuel ih =>
      cases Followed.of_followFrom hsound h with
      | cycle hback => exact absurd hback (not_comesBack hmarker hrefs hn hcomes hneeds hvisited)
      | broken hnew hnode hcontains htarget =>
          obtain ⟨raw, heq, hlink⟩ := hlinks path _ hnode hcontains
          obtain rfl := Value.map.inj heq
          obtain ⟨t, hat⟩ := hcomes.exists_target hmarker hrefs hlink
          exact absurd (htarget.symm.trans (hat.target_eq hlink)) (by simp)
      | @link fields next _ hnew hnode hcontains htarget hrest =>
          obtain ⟨raw, heq, hlink⟩ := hlinks path _ hnode hcontains
          obtain rfl := Value.map.inj heq
          have hat : D.PointsTo path next := ⟨raw, hlink, htarget⟩
          have hstep : Needs context.markers D path next := .target hat
          refine ih ((Comes.target_iff hmarker hrefs hat).mp hcomes) (.tail hneeds hstep)
            (fun a ha => ?_) hrest
          rcases List.mem_append.mp ha with ha | ha
          · exact .tail (hvisited a ha) hstep
          · exact List.mem_singleton.mp ha ▸ .single hstep

variable (hcomes : Comes context.markers D context.path v)

include hcomes

/-- **A reference that comes to something is answered without a fault.** -/
theorem exists_composeReference_eq_ok :
    ∃ outcome, composeReference [(referenceMarker, .text raw)] context = .ok outcome := by
  obtain ⟨t, hat⟩ := hcomes.exists_target hmarker hrefs hn
  have hneeds : TransGen (Needs context.markers D) context.path t := .single (.target hat)
  have hfollow : ∃ found, follow context t = .ok found := by
    cases hfollow : follow context t with
    | ok found => exact ⟨found, rfl⟩
    | error fault =>
        obtain rfl := followFrom_eq_error_of_comes hmarker hrefs hn hsound hlinks
          ((Comes.target_iff hmarker hrefs hat).mp hcomes) hneeds (by simpa using hneeds) hfollow
        exact absurd hfollow (follow_ne_exhausted hsound t)
  obtain ⟨found, hfollow⟩ := hfollow
  simp only [composeReference, hat.target_eq hn, hfollow, bind, Except.bind]
  cases found with
  | missing | pending => exact ⟨_, rfl⟩
  | found w => exact ⟨_, rfl⟩

end Directive

end Docweave
