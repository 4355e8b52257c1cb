import Docweave.Directive.Copy
import Docweave.Proofs.Directive
import Mathlib.Logic.Relation

/-!
Copying nodes until no reference is left.

`Copied` is one step: at a reference a copy of the node is put that its chain of references leads
to, whatever references that node holds itself.  In the end there is a document without
references, and `Agrees` says how a document on the way is related to it: outside of references it
is the same node by node, and what stands for a reference in the end is what its target is in the
end.  The proof goes backwards from the end.  A step before it, the copy and what it was copied
from are the same value in one document, so node by node and reference by reference they come to
the same (`Agrees.node?_eq`); that is the equation for the reference at which the copy was put, and
every other reference still has its own.
-/

namespace Docweave

/-- A reference with a text for a target. -/
def Value.reference (raw : String) : Value :=
  .map [(Directive.referenceMarker, .text raw)]

/-- The only maps with a marker are references, and no target leads into one. -/
inductive RefsOnly (markers : List String) : Value → Prop
  | node {v : Value}
      (hreference : isDirective markers v = true → ∃ raw, v = .reference raw ∧
        ∀ target, Directive.target [(Directive.referenceMarker, .text raw)]
          Directive.referenceMarker = .ok target → Directive.referenceMarker ∉ target)
      (hentries : ∀ e ∈ v.entries, RefsOnly markers e.2) : RefsOnly markers v

namespace RefsOnly

variable {markers : List String} {v w d : Value} {p q : Path}

theorem scalar (h : v.isContainer = false) : RefsOnly markers v := by
  refine .node (fun hd => ?_) fun e he => ?_
  · rw [isDirective_eq_false_of_isContainer h] at hd
    exact absurd hd Bool.false_ne_true
  · rw [Value.entries_of_isContainer_eq_false h] at he
    exact absurd he List.not_mem_nil

theorem reference {raw : String} {target : Path}
    (htarget : Directive.target [(Directive.referenceMarker, .text raw)]
      Directive.referenceMarker = .ok target)
    (hfree : Directive.referenceMarker ∉ target) : RefsOnly markers (.reference raw) := by
  refine .node (fun _ => ⟨raw, rfl, fun target' h => ?_⟩) fun e he => ?_
  · exact Except.ok.inj (htarget.symm.trans h) ▸ hfree
  · obtain rfl := List.mem_singleton.mp he
    exact .scalar rfl

theorem reference_of_directive (h : RefsOnly markers v) (hd : isDirective markers v = true) :
    ∃ raw, v = .reference raw ∧
      ∀ target, Directive.target [(Directive.referenceMarker, .text raw)]
        Directive.referenceMarker = .ok target → Directive.referenceMarker ∉ target := by
  cases h with
  | node hreference _ => exact hreference hd

theorem of_entry (h : RefsOnly markers v) {e : String × Value} (he : e ∈ v.entries) :
    RefsOnly markers e.2 := by
  cases h with
  | node _ hentries => exact hentries e he

theorem of_node? (h : RefsOnly markers v) (hn : v.node? p = some w) : RefsOnly markers w := by
  induction p generalizing v with
  | nil =>
      rw [Value.node?_nil] at hn
      exact Option.some.inj hn ▸ h
  | cons token p ih =>
      rw [Value.node?_cons] at hn
      obtain ⟨c, hc, hn⟩ := Option.bind_eq_some_iff.mp hn
      exact ih (h.of_entry (Value.mem_entries_of_child? hc)) hn

/-- Below a reference there is the text of its target and nothing else. -/
theorem eq_of_below (h : RefsOnly markers v) (hn : v.node? p = some d)
    (hd : isDirective markers d = true) (hq : q ≠ []) (hw : v.node? (p ++ q) = some w) :
    q = [Directive.referenceMarker] ∧ w.isContainer = false := by
  obtain ⟨raw, rfl, -⟩ := (h.of_node? hn).reference_of_directive hd
  rw [Value.node?_append, hn, Option.bind_some] at hw
  cases q with
  | nil => exact absurd rfl hq
  | cons token q =>
      rw [Value.node?_cons] at hw
      obtain ⟨c, hc, hw⟩ := Option.bind_eq_some_iff.mp hw
      simp only [Value.reference, Value.child?, Entries.find?_cons, Entries.find?_nil] at hc
      split at hc
      · rename_i htoken
        obtain rfl := Option.some.inj hc
        cases q with
        | nil =>
            rw [Value.node?_nil] at hw
            exact ⟨by rw [htoken], Option.some.inj hw ▸ rfl⟩
        | cons next q => rw [Value.node?_cons] at hw; exact absurd hw (by simp [Value.child?])
      · exact absurd hc (by simp)

/-- A container is not below a reference. -/
theorem eq_of_prefix (h : RefsOnly markers v) (hpq : p <+: q) (hn : v.node? p = some d)
    (hd : isDirective markers d = true) (hw : v.node? q = some w)
    (hcontainer : w.isContainer = true) : p = q := by
  obtain ⟨r, rfl⟩ := hpq
  by_contra hne
  have hr : r ≠ [] := fun heq => hne (by rw [heq, List.append_nil])
  have := (h.eq_of_below hn hd hr hw).2
  rw [this] at hcontainer
  exact absurd hcontainer (by simp)

/-- Putting a document with references only in the place of a reference keeps it so. -/
theorem put (h : RefsOnly markers v) (hn : v.node? p = some d) (hd : isDirective markers d = true)
    (hw : RefsOnly markers w) : RefsOnly markers (v.put p w) := by
  induction p generalizing v with
  | nil => simpa using hw
  | cons token p ih =>
      have hplain : isDirective markers v = false := by
        by_contra hv
        have hroot := h.eq_of_prefix (p := []) List.nil_prefix (Value.node?_nil v)
          (Bool.of_not_eq_false hv) hn (isContainer_of_isDirective hd)
        exact absurd hroot (by simp)
      rw [Value.node?_cons] at hn
      obtain ⟨c, hc, hn⟩ := Option.bind_eq_some_iff.mp hn
      rw [Value.put_cons_of_child? hc]
      refine .node (fun hdirective => ?_) fun e he => ?_
      · rw [isDirective_of_head_eq (Value.head_setChild hc _), hplain] at hdirective
        exact absurd hdirective (by simp)
      · rcases Value.mem_entries_setChild he with heq | he
        · rw [heq]
          exact ih (h.of_entry (Value.mem_entries_of_child? hc)) hn
        · exact h.of_entry he

end RefsOnly

/-! ### Nodes outside of directives -/

/-- There is no directive at or above a node. -/
def Outside (markers : List String) (D : Value) (p : Path) : Prop :=
  ∀ r d, r <+: p → D.node? r = some d → isDirective markers d = false

/-- There is no directive above a node; the node itself may be one. -/
def Exposed (markers : List String) (D : Value) (p : Path) : Prop :=
  ∀ r d, r <+: p → r ≠ p → D.node? r = some d → isDirective markers d = false

namespace Exposed

variable {markers : List String} {D v w : Value} {p : Path}

theorem outside (h : Exposed markers D p) (hn : D.node? p = some v)
    (hplain : isDirective markers v = false) : Outside markers D p := by
  intro r d hr hd
  by_cases hrp : r = p
  · subst hrp
    exact Option.some.inj (hn.symm.trans hd) ▸ hplain
  · exact h r d hr hrp hd

theorem child (h : Outside markers D p) (token : String) : Exposed markers D (p.child token) :=
  fun r d hr hne hd => h r d ((List.prefix_concat_iff.mp hr).resolve_left hne) hd

/-- Whether there is a directive above a node does not depend on what is put there. -/
theorem put (h : Exposed markers D p) (v : Value) : Exposed markers (D.put p v) p := by
  intro r d hr hne hd
  obtain ⟨s, rfl⟩ := hr
  have hs : s ≠ [] := fun heq => hne (by rw [heq, List.append_nil])
  rw [Value.node?_put_above] at hd
  obtain ⟨w, hw, rfl⟩ := Option.map_eq_some_iff.mp hd
  rw [isDirective_of_head_eq (Value.head_put w hs v)]
  exact h r w (List.prefix_append r s) hne hw

/-- With references only, every container is exposed. -/
theorem of_container (hrefs : RefsOnly markers D) (hn : D.node? p = some w)
    (hcontainer : w.isContainer = true) : Exposed markers D p := by
  intro r d hr hne hd
  by_contra hdirective
  exact hne (hrefs.eq_of_prefix hr hd (Bool.of_not_eq_false hdirective) hn hcontainer)

/-- With references only, every node is exposed that is not inside a reference. -/
theorem of_marker_not_mem (hrefs : RefsOnly markers D) (hn : D.node? p = some w)
    (hmarker : Directive.referenceMarker ∉ p) : Exposed markers D p := by
  intro r d hr hne hd
  by_contra hdirective
  obtain ⟨s, rfl⟩ := hr
  have hs : s ≠ [] := fun heq => hne (by rw [heq, List.append_nil])
  have hs' := (hrefs.eq_of_below hd (Bool.of_not_eq_false hdirective) hs hn).1
  exact hmarker (by rw [hs']; simp)

end Exposed

/-! ### One copy -/

/-- A chain of references from a target to a node that is none, by nodes that are neither a node
nor above it. -/
inductive Chain (markers : List String) (D : Value) (path : Path) : Path → Path → Prop
  | found {target : Path} {v : Value} (habove : ¬ target <+: path) (hn : D.node? target = some v)
      (hplain : isDirective markers v = false) : Chain markers D path target target
  | link {target next last : Path} {fields : Fields} (habove : ¬ target <+: path)
      (hn : D.node? target = some (.map fields))
      (hdirective : isDirective markers (.map fields) = true)
      (htarget : Directive.target fields Directive.referenceMarker = .ok next)
      (hrest : Chain markers D path next last) : Chain markers D path target last

/-- A copy of the node that the chain of a reference leads to is put in the place of the
reference. -/
inductive Copied (markers : List String) : Value → Value → Prop
  | copy {D v : Value} {path target last : Path} {fields : Fields} (hwell : D.WellFormed)
      (hrefs : RefsOnly markers D) (hn : D.node? path = some (.map fields))
      (hdirective : isDirective markers (.map fields) = true)
      (htarget : Directive.target fields Directive.referenceMarker = .ok target)
      (hchain : Chain markers D path target last) (hlast : D.node? last = some v) :
      Copied markers D (D.put path v)

theorem Copied.refsOnly {markers : List String} {D D' : Value} (h : Copied markers D D') :
    RefsOnly markers D' := by
  cases h with
  | copy hwell hrefs hn hdirective htarget hchain hlast =>
      exact hrefs.put hn hdirective (hrefs.of_node? hlast)

namespace Chain

variable {markers : List String} {D : Value} {path target last : Path}

theorem not_above (h : Chain markers D path target last) : ¬ last <+: path := by
  induction h with
  | found habove _ _ => exact habove
  | link _ _ _ _ _ ih => exact ih

theorem exists_plain (h : Chain markers D path target last) :
    ∃ v, D.node? last = some v ∧ isDirective markers v = false := by
  induction h with
  | found _ hn hplain => exact ⟨_, hn, hplain⟩
  | link _ _ _ _ _ ih => exact ih

/-- No node of a chain is inside a reference. -/
theorem marker_not_mem (hrefs : RefsOnly markers D)
    (h : Chain markers D path target last) (htarget : Directive.referenceMarker ∉ target) :
    Directive.referenceMarker ∉ last := by
  induction h with
  | found _ _ _ => exact htarget
  | link _ hn hdirective hnext _ ih =>
      obtain ⟨raw, heq, hmarker⟩ := (hrefs.of_node? hn).reference_of_directive hdirective
      obtain rfl := Value.map.inj heq
      exact ih (hmarker _ hnext)

/-- A chain leads away from the reference that it starts at. -/
theorem beside (h : Chain markers D path target last) (hrefs : RefsOnly markers D) {v w : Value}
    (hn : D.node? path = some v) (hdirective : isDirective markers v = true)
    (hlast : D.node? last = some w) (hmarker : Directive.referenceMarker ∉ last) :
    ¬ path <+: last := by
  rintro ⟨r, rfl⟩
  have hr : r ≠ [] := by
    rintro rfl
    exact h.not_above (by simp)
  have hr' := (hrefs.eq_of_below hn hdirective hr hlast).1
  exact hmarker (by rw [hr']; simp)

end Chain

/-! ### What a document comes to -/

/-- How a document is related to the one that it comes to. -/
structure Agrees (markers : List String) (D F : Value) : Prop where
  /-- Outside of references nothing changes but what is below. -/
  heads : ∀ q w, D.node? q = some w →
    (∀ r d, r <+: q → D.node? r = some d → isDirective markers d = false) →
    ∃ u, F.node? q = some u ∧ u.head = w.head
  /-- A reference comes to what its target comes to. -/
  refs : ∀ q fields, D.node? q = some (.map fields) → isDirective markers (.map fields) = true →
    ∃ target v, Directive.target fields Directive.referenceMarker = .ok target ∧
      F.node? q = some v ∧ F.node? target = some v

namespace Agrees

variable {markers : List String} {D F v : Value} {p q : Path}

theorem of_no_directive (h : ∀ q w, F.node? q = some w → isDirective markers w = false) :
    Agrees markers F F where
  heads q w hw _ := ⟨w, hw, rfl⟩
  refs q fields hn hd := absurd hd (by rw [h q _ hn]; exact Bool.false_ne_true)

/-- Two nodes with one value come to one value. -/
theorem node?_eq (h : Agrees markers D F) (hF : F.WellFormed) (v : Value) : ∀ p q,
    D.node? p = some v → D.node? q = some v → Exposed markers D p → Exposed markers D q →
    ∃ u, F.node? p = some u ∧ F.node? q = some u := by
  induction v using Value.entries_induction with
  | node v ih =>
      intro p q hp hq hexposedp hexposedq
      by_cases hd : isDirective markers v = true
      · cases v with
        | map fields =>
            obtain ⟨target, u, htarget, hu, htargetu⟩ := h.refs p fields hp hd
            obtain ⟨target', u', htarget', hu', htargetu'⟩ := h.refs q fields hq hd
            obtain rfl := Except.ok.inj (htarget.symm.trans htarget')
            obtain rfl := Option.some.inj (htargetu.symm.trans htargetu')
            exact ⟨u, hu, hu'⟩
        | _ => exact absurd hd (by simp [isDirective])
      · have hplain : isDirective markers v = false := Bool.eq_false_iff.mpr hd
        have houtp := hexposedp.outside hp hplain
        have houtq := hexposedq.outside hq hplain
        obtain ⟨a, ha, hahead⟩ := h.heads p v hp houtp
        obtain ⟨b, hb, hbhead⟩ := h.heads q v hq houtq
        suffices hab : a = b from ⟨a, ha, hab ▸ hb⟩
        refine Value.eq_of_head_eq (hF.of_node? ha) (hF.of_node? hb) (hahead.trans hbhead.symm)
          fun token => ?_
        have hasome := Value.child?_isSome_of_head_eq hahead token
        have hbsome := Value.child?_isSome_of_head_eq hbhead token
        cases hc : v.child? token with
        | none =>
            rw [hc] at hasome hbsome
            rw [Option.isNone_iff_eq_none.mp (Option.isSome_eq_false_iff.mp hasome),
              Option.isNone_iff_eq_none.mp (Option.isSome_eq_false_iff.mp hbsome)]
        | some c =>
            have hchild : ∀ {p}, D.node? p = some v → D.node? (Path.child p token) = some c := by
              intro p hp
              rw [Value.node?_concat, hp, Option.bind_some, hc]
            obtain ⟨u, hpu, hqu⟩ := ih (token, c) (Value.mem_entries_of_child? hc)
              (Path.child p token) (Path.child q token) (hchild hp) (hchild hq)
              (.child houtp token) (.child houtq token)
            rw [Value.node?_concat, ha, Option.bind_some] at hpu
            rw [Value.node?_concat, hb, Option.bind_some] at hqu
            rw [hpu, hqu]

/-- Links of a chain come to what the end of the chain comes to. -/
theorem of_chain {path target last : Path}
    (hchain : Chain markers D path target last) (hlast : ∃ v, F.node? last = some v)
    (hrefs : ∀ q fields, D.node? q = some (.map fields) → isDirective markers (.map fields) = true →
      q ≠ path → ∃ target v, Directive.target fields Directive.referenceMarker = .ok target ∧
        F.node? q = some v ∧ F.node? target = some v) :
    ∃ v, F.node? target = some v ∧ F.node? last = some v := by
  induction hchain with
  | found habove hn hplain =>
      obtain ⟨v, hv⟩ := hlast
      exact ⟨v, hv, hv⟩
  | @link target next last fields habove hn hdirective htarget hrest ih =>
      obtain ⟨v, hnext, hv⟩ := ih hlast
      obtain ⟨next', u, htarget', hu, hnextu⟩ :=
        hrefs target fields hn hdirective fun heq => habove (heq ▸ List.prefix_refl path)
      obtain rfl := Except.ok.inj (htarget.symm.trans htarget')
      exact ⟨v, (hu.trans hnextu.symm).trans hnext, hv⟩

/-- Beside what is put a node keeps its head, and so does all that is above it. -/
theorem heads_of_put (h : Agrees markers (D.put p v) F) {q : Path} {w : Value} (hnot : ¬ p <+: q)
    (hq : D.node? q = some w) (hout : Outside markers D q) :
    ∃ u, F.node? q = some u ∧ u.head = w.head := by
  obtain ⟨w', hw', hhead⟩ := Value.head_node?_put hnot hq v
  have hout' : Outside markers (D.put p v) q := by
    intro r d hr hd
    have hr' : ¬ p <+: r := fun hfront => hnot (hfront.trans hr)
    obtain ⟨x, hx⟩ := Option.isSome_iff_exists.mp
      (Value.node?_isSome_of_prefix hr (Option.isSome_of_eq_some hq))
    obtain ⟨x', hx', hxhead⟩ := Value.head_node?_put hr' hx v
    obtain rfl := Option.some.inj (hx'.symm.trans hd)
    rw [isDirective_of_head_eq hxhead]
    exact hout r x hr hx
  obtain ⟨u, hu, huhead⟩ := h.heads q w' hw' hout'
  exact ⟨u, hu, huhead.trans hhead⟩

/-- Every other reference is beside the one in whose place a value is put. -/
theorem refs_of_put (h : Agrees markers (D.put p v) F) (hrefs : RefsOnly markers D) {d : Value}
    (hn : D.node? p = some d) (hd : isDirective markers d = true) {q : Path} {fields : Fields}
    (hq : D.node? q = some (.map fields)) (hdirective : isDirective markers (.map fields) = true)
    (hne : q ≠ p) :
    ∃ target u, Directive.target fields Directive.referenceMarker = .ok target ∧
      F.node? q = some u ∧ F.node? target = some u := by
  refine h.refs q fields ?_ hdirective
  rw [Value.node?_put_beside D _ _ v, hq]
  · exact fun hfront => hne (hrefs.eq_of_prefix hfront hn hd hq rfl).symm
  · exact fun hfront =>
      hne (hrefs.eq_of_prefix hfront hq hdirective hn (isContainer_of_isDirective hd))

/-- **A document comes to what it comes to after a copy.** -/
theorem of_copied {D' : Value} (hF : F.WellFormed) (hcopied : Copied markers D D')
    (h : Agrees markers D' F) : Agrees markers D F := by
  obtain ⟨hwell, hrefs, hn, hdirective, htarget, hchain, hlast⟩ := hcopied
  rename_i v path target last fields
  obtain ⟨raw, heq, hmarker⟩ := (hrefs.of_node? hn).reference_of_directive hdirective
  obtain rfl := Value.map.inj heq
  have hothers : ∀ q fields, D.node? q = some (.map fields) →
      isDirective markers (.map fields) = true → q ≠ path →
      ∃ target u, Directive.target fields Directive.referenceMarker = .ok target ∧
        F.node? q = some u ∧ F.node? target = some u := by
    intro q fields hq hd hne
    exact h.refs_of_put hrefs hn hdirective hq hd hne
  -- What was copied is still there, so that the copy and it come to the same.
  have hlastmarker := hchain.marker_not_mem hrefs (hmarker target htarget)
  have hlast' : (D.put path v).node? last = some v := by
    rw [Value.node?_put_beside D (hchain.beside hrefs hn hdirective hlast hlastmarker)
      hchain.not_above, hlast]
  have hrefs' : RefsOnly markers (D.put path v) := hrefs.put hn hdirective (hrefs.of_node? hlast)
  have hself := Value.node?_put_self (Option.isSome_of_eq_some hn) v
  have hexposed : Exposed markers (D.put path v) path :=
    (Exposed.of_container hrefs hn rfl).put v
  obtain ⟨u, hu, hlastu⟩ := h.node?_eq hF v path last hself hlast' hexposed
    (.of_marker_not_mem hrefs' hlast' hlastmarker)
  refine ⟨fun q w hq hout => h.heads_of_put (fun hfront => ?_) hq hout, fun q fields hq hd => ?_⟩
  · have hplain := hout path _ hfront hn
    rw [hdirective] at hplain
    exact absurd hplain (by simp)
  · by_cases hne : q = path
    · subst hne
      obtain rfl := Value.map.inj (Option.some.inj (hq.symm.trans hn))
      obtain ⟨x, htargetx, hlastx⟩ := of_chain hchain ⟨u, hlastu⟩ hothers
      obtain rfl := Option.some.inj (hlastu.symm.trans hlastx)
      exact ⟨target, u, htarget, hu, htargetx⟩
    · exact hothers q fields hq hd hne

/-- **A document without references is what every document agrees with that was copied to it.** -/
theorem of_copies (hF : F.WellFormed)
    (hplain : ∀ q w, F.node? q = some w → isDirective markers w = false)
    (h : Relation.ReflTransGen (Copied markers) D F) : Agrees markers D F := by
  induction h using Relation.ReflTransGen.head_induction_on with
  | refl => exact of_no_directive hplain
  | head hstep _ ih => exact ih.of_copied hF hstep

end Agrees

end Docweave
