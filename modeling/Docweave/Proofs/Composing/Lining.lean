import Docweave.Proofs.Composing.Completeness
import Mathlib.Logic.Function.Basic

/-!
Worklists are in document order.

`Lined` says of a list of paths that it goes through a node from front to back: a node that is done
it passes over, and otherwise it names the node, or the node is no directive and the list goes
through its children in their order.  So every directive is at or below a node that is done or
named (`Lined.covered`), and the order of the list is that of the document.

What a pass notes comes up in the order of its worklist, and what is inside a directive before the
directive.  Normalizing keeps just the outermost of these nodes.  So a pass over a list that goes
through a node leaves one that goes through the node as it is after the pass (`LinedFrom.passed`).
The step is about the children of a node one after the other (`LinesUpEach`), whether they are
looked through as entries of the node or as nodes of the worklist.
-/

namespace Docweave

namespace Composing

/-- A list of paths goes through a node in document order and passes over what is done. -/
inductive Lined (markers : List String) (done : Path → Prop) : Path → Value → List Path → Prop
  | done {path : Path} {v : Value} (h : done path) : Lined markers done path v []
  | here {path : Path} {v : Value} : Lined markers done path v [path]
  | inside {path : Path} {v : Value} {parts : String → List Path} (hopen : ¬ done path)
      (hplain : isDirective markers v = false)
      (hchildren : ∀ token c, v.child? token = some c →
        Lined markers done (path.child token) c (parts token)) :
      Lined markers done path v ((Entries.keys v.entries).flatMap parts)

namespace Lined

variable {markers : List String} {done : Path → Prop} {path : Path} {v : Value}
  {worklist : List Path}

theorem scalar (hopen : ¬ done path) (h : v.isContainer = false) :
    Lined markers done path v [] := by
  have hentries := Value.entries_of_isContainer_eq_false h
  have hlined : Lined markers done path v ((Entries.keys v.entries).flatMap fun _ => []) := by
    refine .inside hopen (isDirective_eq_false_of_isContainer h) fun token c hc => ?_
    have hmem := Value.mem_entries_of_child? hc
    rw [hentries] at hmem
    exact absurd hmem List.not_mem_nil
  rwa [hentries] at hlined

/-- What counts as done matters at and below the node alone. -/
theorem congr {done' : Path → Prop} (h : Lined markers done path v worklist)
    (hdone : ∀ c, path <+: c → (done c ↔ done' c)) : Lined markers done' path v worklist := by
  induction h with
  | done h => exact .done ((hdone _ (List.prefix_refl _)).mp h)
  | here => exact .here
  | inside hopen hplain hchildren ih =>
      refine .inside (fun h => hopen ((hdone _ (List.prefix_refl _)).mpr h)) hplain
        fun token c hc => ih token c hc fun r hr => ?_
      exact hdone r (Path.prefix_of_child_prefix hr)

/-- What is named are nodes of the node. -/
theorem exists_node (h : Lined markers done path v worklist) (hv : v.WellFormed) :
    ∀ r ∈ worklist, ∃ s, r = path ++ s ∧ (v.node? s).isSome = true := by
  induction h with
  | done h => exact fun r hr => absurd hr List.not_mem_nil
  | here =>
      intro r hr
      exact ⟨[], by rw [List.append_nil]; exact List.mem_singleton.mp hr, rfl⟩
  | @inside path v parts hopen hplain hchildren ih =>
      intro r hr
      obtain ⟨token, htoken, hr⟩ := List.mem_flatMap.mp hr
      obtain ⟨e, he, rfl⟩ := List.mem_map.mp htoken
      have hc := Value.child?_of_mem_entries hv he
      obtain ⟨s, rfl, hs⟩ := ih e.1 e.2 hc (hv.of_mem_entries he) r hr
      refine ⟨e.1 :: s, (List.append_cons path e.1 s).symm, ?_⟩
      rwa [Value.node?_cons, hc, Option.bind_some]

/-- Every directive is at or below a node that is done or named. -/
theorem covered (h : Lined markers done path v worklist) :
    Covered markers done (· ∈ worklist) path v := by
  induction h with
  | done h => exact .done h
  | here => exact .todo List.mem_cons_self
  | @inside path v parts hopen hplain hchildren ih =>
      refine .node hplain fun token c hc => (ih token c hc).mono (fun _ _ h => h) fun s _ hs => ?_
      have hmem := Value.mem_entries_of_child? hc
      exact List.mem_flatMap.mpr ⟨token, List.mem_map.mpr ⟨_, hmem, rfl⟩, hs⟩

end Lined

variable {μ : Type} {workshop : Workshop μ} {Inv : Progress μ → Prop} {p q : Progress μ}
  {path start : Path} {v : Value} {b : Bool} {worklist : List Path} {tokens : List String}

/-! ### One child after the other -/

/-- Between two states what was noted below a node has come to go through it. -/
structure LinesUp (workshop : Workshop μ) (path : Path) (p q : Progress μ) : Prop where
  moved : Moved path p q
  lined : ∃ w extra, q.document.content.node? path = some w ∧ q.revisit = extra ++ p.revisit ∧
    (∀ r ∈ extra, path <+: r) ∧
    Lined (Handler.markers workshop.handlers) (· ∈ q.completed) path w
      (Worklist.normalize extra.reverse)

theorem LinesUp.of_done (hn : p.document.content.node? path = some v)
    (hdone : path ∈ p.completed) : LinesUp workshop path p p :=
  ⟨.refl path p, v, [], hn, rfl, fun _ h => absurd h List.not_mem_nil, .done hdone⟩

/-- Where the node itself was noted last, nothing noted in it counts. -/
theorem LinesUp.of_noted {inside : List Path} (hmoved : Moved path p q)
    (hn : q.document.content.node? path = some v)
    (hrevisit : q.revisit = path :: inside ++ p.revisit) (hinside : ∀ r ∈ inside, path <+: r) :
    LinesUp workshop path p q := by
  refine ⟨hmoved, v, path :: inside, hn, hrevisit,
    List.forall_mem_cons.mpr ⟨List.prefix_refl path, hinside⟩, ?_⟩
  rw [List.reverse_cons, Worklist.normalize_concat fun r hr => hinside r (List.mem_reverse.mp hr)]
  exact .here

/-- Some children of a node line up, one after the other. -/
inductive LinesUpEach (workshop : Workshop μ) (path : Path) :
    List String → Progress μ → Progress μ → Prop
  | nil {p : Progress μ} : LinesUpEach workshop path [] p p
  | cons {token : String} {tokens : List String} {p q r : Progress μ}
      (h : LinesUp workshop (path.child token) p q) (hrest : LinesUpEach workshop path tokens q r) :
      LinesUpEach workshop path (token :: tokens) p r

namespace LinesUpEach

theorem moved (h : LinesUpEach workshop path tokens p q) : Moved path p q := by
  induction h with
  | nil => exact .refl path _
  | cons h hrest ih => exact h.moved.widen.trans ih

/-- The other children stay as they are. -/
theorem beside (h : LinesUpEach workshop path tokens p q) {token : String}
    (htoken : token ∉ tokens) :
    q.document.content.node? (path.child token) = p.document.content.node? (path.child token) ∧
      ∀ c, path.child token <+: c → (c ∈ q.completed ↔ c ∈ p.completed) := by
  induction h with
  | nil => exact ⟨rfl, fun c _ => Iff.rfl⟩
  | @cons other tokens p q r h hrest ih =>
      have hne : other ≠ token := fun heq => htoken (heq ▸ List.mem_cons_self)
      obtain ⟨hnode, hcompleted⟩ := ih fun hmem => htoken (List.mem_cons_of_mem _ hmem)
      refine ⟨hnode.trans (h.moved.node?_beside ?_ ?_), fun c hc => (hcompleted c hc).trans ?_⟩
      · exact fun hfront => hne (Path.child_inj_of_prefix hfront (List.prefix_refl _))
      · exact fun hfront => hne (Path.child_inj_of_prefix (List.prefix_refl _) hfront)
      · exact h.moved.completed c fun hfront => hne (Path.child_inj_of_prefix hfront hc)

/-- The node itself keeps its head, and is not completed. -/
theorem above (h : LinesUpEach workshop path tokens p q)
    (hn : p.document.content.node? path = some v) :
    (∃ w, q.document.content.node? path = some w ∧ w.head = v.head) ∧
      (path ∈ q.completed ↔ path ∈ p.completed) := by
  induction h generalizing v with
  | nil => exact ⟨⟨v, hn, rfl⟩, Iff.rfl⟩
  | @cons token tokens p q r h hrest ih =>
      have hproper : ¬ path.child token <+: path := fun hfront => by
        have := hfront.length_le
        simp [Path.child] at this
      obtain ⟨x, hx⟩ := h.moved.content
      obtain ⟨u, hu, huhead⟩ := Value.head_node?_put hproper hn x
      obtain ⟨⟨w, hw, hwhead⟩, hcompleted⟩ := ih (hx ▸ hu)
      exact ⟨⟨w, hw, hwhead.trans huhead⟩, hcompleted.trans (h.moved.completed path hproper)⟩

/-- What was noted below the children goes through one after the other. -/
theorem exists_parts (h : LinesUpEach workshop path tokens p q) (hnodup : tokens.Nodup) :
    ∃ (parts : String → List Path) (extra : List Path), q.revisit = extra ++ p.revisit ∧
      (∀ r ∈ extra, ∃ token ∈ tokens, path.child token <+: r) ∧
      Worklist.normalize extra.reverse = tokens.flatMap parts ∧
      ∀ token ∈ tokens, ∃ w, q.document.content.node? (path.child token) = some w ∧
        Lined (Handler.markers workshop.handlers) (· ∈ q.completed) (path.child token) w
          (parts token) := by
  induction h with
  | nil =>
      exact ⟨fun _ => [], [], rfl, fun _ h => absurd h List.not_mem_nil, rfl,
        fun _ h => absurd h List.not_mem_nil⟩
  | @cons token tokens p q r h hrest ih =>
      obtain ⟨hnot, hnodup⟩ := List.nodup_cons.mp hnodup
      obtain ⟨w, here, hw, hhere, hherewithin, hlined⟩ := h.lined
      obtain ⟨parts, there, hthere, htherewithin, hparts, hchildren⟩ := ih hnodup
      have hother : ∀ other ∈ tokens, other ≠ token := fun other hmem heq => hnot (heq ▸ hmem)
      have hapart : ∀ a ∈ here.reverse, ∀ c ∈ there.reverse, ¬ a <+: c ∧ ¬ c <+: a := by
        intro a ha c hc
        have ha := hherewithin a (List.mem_reverse.mp ha)
        obtain ⟨other, hmem, hc⟩ := htherewithin c (List.mem_reverse.mp hc)
        exact ⟨fun hac => hother other hmem (Path.child_inj_of_prefix hc (ha.trans hac)),
          fun hca => hother other hmem (Path.child_inj_of_prefix (hc.trans hca) ha)⟩
      refine ⟨Function.update parts token (Worklist.normalize here.reverse), there ++ here,
        by rw [hthere, hhere, List.append_assoc], fun r hr => ?_, ?_, ?_⟩
      · rcases List.mem_append.mp hr with hr | hr
        · obtain ⟨other, hmem, hfront⟩ := htherewithin r hr
          exact ⟨other, List.mem_cons_of_mem _ hmem, hfront⟩
        · exact ⟨token, List.mem_cons_self, hherewithin r hr⟩
      · rw [List.reverse_append, Worklist.normalize_append hapart, hparts, List.flatMap_cons,
          Function.update_self]
        congr 1
        exact List.flatMap_congr fun other hmem =>
          (Function.update_of_ne (hother other hmem) _ parts).symm
      · refine List.forall_mem_cons.mpr ⟨?_, fun other hmem => ?_⟩
        · obtain ⟨hnode, hcompleted⟩ := hrest.beside hnot
          rw [Function.update_self]
          exact ⟨w, hnode.trans hw, hlined.congr fun c hc => (hcompleted c hc).symm⟩
        · rw [Function.update_of_ne (hother other hmem)]
          exact hchildren other hmem

/-- **Children that line up one after the other line up together.** -/
theorem linesUp (h : LinesUpEach workshop path (Entries.keys v.entries) p q)
    (hn : p.document.content.node? path = some v) (hv : v.WellFormed) (hopen : path ∉ p.completed)
    (hplain : isDirective (Handler.markers workshop.handlers) v = false) :
    LinesUp workshop path p q := by
  obtain ⟨⟨w, hw, hhead⟩, hcompleted⟩ := h.above hn
  obtain ⟨parts, extra, hextra, hwithin, hparts, hchildren⟩ := h.exists_parts hv.distinct_entries
  refine ⟨h.moved, w, extra, hw, hextra, fun r hr => ?_, ?_⟩
  · obtain ⟨token, -, hfront⟩ := hwithin r hr
    exact Path.prefix_of_child_prefix hfront
  · have hkeys := Value.keys_entries_of_head_eq hhead
    rw [hparts, ← hkeys]
    refine .inside (fun hdone => hopen (hcompleted.mp hdone))
      (by rwa [isDirective_of_head_eq hhead]) fun token c hc => ?_
    have hmem : token ∈ Entries.keys w.entries :=
      List.mem_map.mpr ⟨_, Value.mem_entries_of_child? hc, rfl⟩
    obtain ⟨c', hc', hlined⟩ := hchildren token (hkeys ▸ hmem)
    rw [Value.node?_concat, hw, Option.bind_some, hc] at hc'
    exact Option.some.inj hc' ▸ hlined

end LinesUpEach

/-! ### Looking through a node -/

/-- A node that need not be looked through again has had nothing noted when it was handed over. -/
theorem Invoked.revisit_eq (h : Invoked workshop path p false q) : q.revisit = p.revisit := by
  cases h with
  | untaken => rfl
  | handled _ _ _ hsettle =>
      cases hsettle with
      | replaced _ hwrite | completed hwrite | separate _ hwrite => exact hwrite.revisit_eq

/-- Where nothing has to be looked through again nothing was noted. -/
theorem scanFields_revisit_eq {es : List (String × Value)}
    (hscan : ∀ e ∈ es, ∀ path p q, scan workshop.handover path e.2 p = some (.ok false, q) →
      q.revisit = p.revisit)
    (h : scanFields workshop path es p = some (.ok false, q)) : q.revisit = p.revisit := by
  induction es generalizing p with
  | nil =>
      obtain ⟨-, rfl⟩ := scanFields_nil_eq_ok.mp h
      rfl
  | cons e es ih =>
      obtain ⟨here, there, m, hhere, hthere, hneither⟩ := scanFields_cons_eq_ok.mp h
      obtain ⟨rfl, rfl⟩ := Bool.or_eq_false_iff.mp hneither.symm
      obtain ⟨he, hes⟩ := List.forall_mem_cons.mp hscan
      exact (ih hes hthere).trans (he _ _ _ hhere)

theorem scan_revisit_eq (v : Value) : ∀ path p q,
    scan workshop.handover path v p = some (.ok false, q) → q.revisit = p.revisit := by
  induction v using Value.entries_induction with
  | node v ih =>
      intro path p q h
      cases Scanned.of_scan h with
      | completed hdone => rfl
      | plain hplain hscan => exact scanFields_revisit_eq ih hscan
      | invoked hdirective hroot hscan hinvoke =>
          exact hinvoke.revisit_eq.trans (scanFields_revisit_eq ih hscan)

theorem scanFields_linesUpEach (hK : Kept workshop Inv) {es : List (String × Value)}
    (hscan : ∀ e ∈ es, ∀ path p b q, scan workshop path e.2 p = some (.ok b, q) → Inv p →
      p.document.content.node? path = some e.2 → LinesUp workshop path p q)
    (hdistinct : Entries.Distinct es) (h : scanFields workshop path es p = some (.ok b, q))
    (hp : Inv p) (hes : ∀ e ∈ es, p.document.content.node? (path.child e.1) = some e.2) :
    LinesUpEach workshop path (Entries.keys es) p q := by
  induction es generalizing p b with
  | nil =>
      obtain ⟨-, rfl⟩ := scanFields_nil_eq_ok.mp h
      exact .nil
  | cons e es ih =>
      obtain ⟨here, there, m, hhere, hthere, -⟩ := scanFields_cons_eq_ok.mp h
      obtain ⟨hscane, hscanes⟩ := List.forall_mem_cons.mp hscan
      obtain ⟨hm, hmoved⟩ := hK.scan hhere hp
      exact .cons (hscane _ _ _ _ hhere hp (hes e List.mem_cons_self))
        (ih hscanes hdistinct.of_cons hthere hm (hmoved.others hdistinct hes))

/-- **What is noted in a node goes through it.** -/
theorem scan_linesUp (hK : Kept workshop Inv) (htaking : Handler.Taking workshop.handlers)
    (v : Value) : ∀ path p b q, scan workshop path v p = some (.ok b, q) → Inv p →
      p.document.content.node? path = some v → LinesUp workshop path p q := by
  induction v using Value.entries_induction with
  | node v ih =>
      intro path p b q h hp hn
      by_cases hdone : path ∈ p.completed
      · rw [scan_of_completed v hdone] at h
        obtain ⟨-, rfl⟩ := Prod.mk.inj (Option.some.inj h)
        exact .of_done hn hdone
      have hwell : v.WellFormed := (hK.sound hp).wellFormed.of_node? hn
      have hes := fun e he => Value.node?_child_of_mem_entries hn hwell (e := e) he
      have hmoved := (hK.scan h hp).2
      cases Scanned.of_scan h with
      | completed hmem => exact absurd hmem hdone
      | plain hplain hscan =>
          exact (scanFields_linesUpEach hK ih hwell.distinct_entries hscan hp hes).linesUp hn hwell
            hdone hplain
      | @waiting m hdirective hroot hscan =>
          obtain ⟨w, hw, -⟩ := scanFields_head hK hscan hp hn
          obtain ⟨inside, hinside, hwithin⟩ := (hK.scanFields hscan hp).2.revisit
          exact .of_noted hmoved hw (congrArg (path :: ·) hinside) hwithin
      | @invoked b m q hdirective hroot hscan hinvoke =>
          obtain ⟨w, hw, hhead⟩ := scanFields_head hK hscan hp hn
          have hm := (hK.scanFields hscan hp).1
          have hsound := hK.sound hm
          rw [← isDirective_of_head_eq hhead] at hdirective
          obtain ⟨memory, heffect⟩ := hK.exists_effect htaking hroot hm hw hdirective hinvoke
          have hrevisit := scanFields_revisit_eq (fun e _ => scan_revisit_eq e.2) hscan
          obtain ⟨u, hu, ⟨-, hnoted⟩ | ⟨hnothing, hleft⟩⟩ := heffect.leaves hsound hroot hw
          · have hrevisit' : q.revisit = [path] ++ p.revisit :=
              hnoted.trans (congrArg (path :: ·) hrevisit)
            exact .of_noted hmoved hu hrevisit' fun _ h => absurd h List.not_mem_nil
          · refine ⟨hmoved, u, [], hu, hnothing.trans hrevisit,
              fun _ h => absurd h List.not_mem_nil, ?_⟩
            by_cases hcompleted : path ∈ q.completed
            · exact .done hcompleted
            · exact .scalar hcompleted (hleft.resolve_left hcompleted)

/-! ### A pass -/

theorem Passed.split {front back : List Path} (h : Passed workshop (front ++ back) p q) :
    ∃ m, Passed workshop front p m ∧ Passed workshop back m q := by
  induction front generalizing p with
  | nil => exact ⟨p, .nil, h⟩
  | cons path front ih =>
      cases h with
      | gone hgone hrest =>
          obtain ⟨m, hfront, hback⟩ := ih hrest
          exact ⟨m, .gone hgone hfront, hback⟩
      | scanned hget hscan hrest =>
          obtain ⟨m, hfront, hback⟩ := ih hrest
          exact ⟨m, .scanned hget hscan hfront, hback⟩

/-- If the part of a worklist in each child lines up, the parts line up one after the other. -/
theorem Passed.linesUpEach (hK : Kept workshop Inv) {done : Path → Prop}
    {parts : String → List Path}
    (hchildren : ∀ token c, v.child? token = some c → ∀ {p q},
      Passed workshop (parts token) p q → Inv p →
      p.document.content.node? (path.child token) = some c →
      (∀ r, path.child token <+: r → (r ∈ p.completed ↔ done r)) →
      LinesUp workshop (path.child token) p q)
    (h : Passed workshop (tokens.flatMap parts) p q) (hp : Inv p) (hnodup : tokens.Nodup)
    (htokens : ∀ token ∈ tokens, ∃ c, v.child? token = some c ∧
      p.document.content.node? (path.child token) = some c)
    (hdone : ∀ token ∈ tokens, ∀ r, path.child token <+: r → (r ∈ p.completed ↔ done r)) :
    LinesUpEach workshop path tokens p q := by
  induction tokens generalizing p with
  | nil =>
      cases h
      exact .nil
  | cons token tokens ih =>
      obtain ⟨m, hfront, hback⟩ := Passed.split h
      obtain ⟨hnot, hnodup⟩ := List.nodup_cons.mp hnodup
      obtain ⟨⟨c, hc, hn⟩, htokens⟩ := List.forall_mem_cons.mp htokens
      obtain ⟨hdonehere, hdone⟩ := List.forall_mem_cons.mp hdone
      have hlines := hchildren token c hc hfront hp hn hdonehere
      have heach : LinesUpEach workshop path [token] p m := .cons hlines .nil
      have hother : ∀ other ∈ tokens, other ∉ [token] := fun other hmem heq =>
        hnot (List.mem_singleton.mp heq ▸ hmem)
      refine .cons hlines (ih hback (hK.passed hfront hp) hnodup (fun other hmem => ?_)
        fun other hmem r hr => ((heach.beside (hother other hmem)).2 r hr).trans
          (hdone other hmem r hr))
      obtain ⟨d, hd, hnd⟩ := htokens other hmem
      exact ⟨d, hd, (heach.beside (hother other hmem)).1.trans hnd⟩

/-- **A pass over a list that goes through a node leaves one that does.** -/
theorem Lined.passed (hK : Kept workshop Inv) (htaking : Handler.Taking workshop.handlers)
    {done : Path → Prop} (h : Lined (Handler.markers workshop.handlers) done path v worklist)
    (hpass : Passed workshop worklist p q) (hp : Inv p)
    (hn : p.document.content.node? path = some v)
    (hdone : ∀ c, path <+: c → (c ∈ p.completed ↔ done c)) : LinesUp workshop path p q := by
  induction h generalizing p q with
  | @done path v h =>
      cases hpass
      exact .of_done hn ((hdone path (List.prefix_refl path)).mpr h)
  | @here path v =>
      cases hpass with
      | gone hgone hrest =>
          rw [Store.has_plain (hK.sound hp), hn] at hgone
          exact absurd hgone (by simp)
      | scanned hget hscan hrest =>
          cases hrest
          obtain rfl := Option.some.inj
            (hn.symm.trans ((Store.get_plain_eq_ok_iff (hK.sound hp)).mp hget))
          exact scan_linesUp hK htaking _ _ _ _ _ hscan hp hn
  | @inside path v parts hopen hplain hchildren ih =>
      have hwell : v.WellFormed := (hK.sound hp).wellFormed.of_node? hn
      have hnotdone : path ∉ p.completed := fun hmem =>
        hopen ((hdone path (List.prefix_refl path)).mp hmem)
      have heach : LinesUpEach workshop path (Entries.keys v.entries) p q := by
        refine hpass.linesUpEach hK ih hp hwell.distinct_entries (fun token hmem => ?_)
          fun token _ r hr => hdone r (Path.prefix_of_child_prefix hr)
        obtain ⟨e, he, rfl⟩ := List.mem_map.mp hmem
        exact ⟨e.2, Value.child?_of_mem_entries hwell he,
          Value.node?_child_of_mem_entries hn hwell he⟩
      exact heach.linesUp hn hwell hnotdone hplain

/-- A worklist goes through the node that composing started at. -/
def LinedFrom (workshop : Workshop μ) (start : Path) (worklist : List Path) (p : Progress μ) :
    Prop :=
  ∃ v, p.document.content.node? start = some v ∧
    Lined (Handler.markers workshop.handlers) (· ∈ p.completed) start v worklist

/-- **If a worklist goes through a node, so does the worklist after it.** -/
theorem LinedFrom.passed (hK : Kept workshop Inv) (htaking : Handler.Taking workshop.handlers)
    (h : LinedFrom workshop start worklist p) (hpass : Passed workshop worklist p.fresh q)
    (hp : Inv p) : LinedFrom workshop start (leftOver q) q := by
  obtain ⟨v, hn, hlined⟩ := h
  obtain ⟨w, extra, hw, hextra, -, hleft⟩ :=
    (hlined.passed hK htaking hpass (hK.fresh hp) hn fun _ _ => Iff.rfl).lined
  have hrevisit : q.revisit = extra := hextra.trans (List.append_nil extra)
  exact ⟨w, hw, by rwa [leftOver, hrevisit]⟩

end Composing

end Docweave
