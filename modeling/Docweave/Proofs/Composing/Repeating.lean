import Docweave.Proofs.Composing.Lining
import Docweave.Proofs.Composing.Together

/-!
A pass that writes nothing can be repeated.

If handlers answer the same whatever they remember, what happens at a node depends on the document
and on which nodes at and below it are completed.  In a pass that writes nothing the document stays
as it is, but nodes may become completed.  `Repeats` is about the state after the pass: what is
completed by then is passed over, which notes nothing, as handing it over did, and everything else
is answered as before.  So looking through a node of the worklist again notes the same nodes and
completes no others (`scan_repeats`).

A worklist that goes through a node in document order leaves out what is completed and what has no
directive.  So looking through the whole node notes what a pass over the worklist notes
(`Lined.scan`).
-/

namespace Docweave

/-- What the handler answers does not depend on what is remembered, as long as this has a property
that the handler keeps. -/
structure Handler.Steady {μ : Type} (setting : Setting) (recalls : μ → Prop) (handler : Handler μ) :
    Prop where
  keeps : handler.Preserves setting recalls
  same : ∀ directive context memory memory', context.setting = setting → recalls memory →
    recalls memory' →
    (handler.compose directive context memory).1 = (handler.compose directive context memory').1

namespace Composing

variable {μ : Type} {workshop : Workshop μ} {Inv : Progress μ → Prop} {recalls : μ → Prop}
  {p q s : Progress μ}
  {path : Path} {v : Value} {b : Bool} {worklist extra : List Path} {document : Store}
  {completed : List Path}

/-- At any state with the document, and with the same nodes completed at and below a node, an action
notes some nodes and does nothing else but remember. -/
def Repeats (recalls : μ → Prop) (document : Store) (completed : List Path) (path : Path)
    (act : Composing μ Bool) (b : Bool) (extra : List Path) : Prop :=
  ∀ s, s.document = document → recalls s.memory →
    (∀ c, path <+: c → (c ∈ s.completed ↔ c ∈ completed)) →
    ∃ memory, recalls memory ∧
      act s = some (.ok b, { s with memory, revisit := extra ++ s.revisit })

/-! ### Handing over -/

/-- A value that is there is not written. -/
theorem write_of_same {current : Value} (hget : p.document.get (.plain path) = .ok current)
    (hsame : current.same v = true) : write path v p = some (.ok (), p) := by
  simp only [write, hget, hsame, if_true]

theorem Written.of_unchanged (h : Written path v p q) (hchanged : q.changed = false) :
    q = p ∧ ∃ current, p.document.get (.plain path) = .ok current ∧ current.same v = true := by
  cases h with
  | unneeded hget hsame => exact ⟨rfl, _, hget, hsame⟩
  | done hupdate => exact absurd hchanged (by simp)

/-- What no handler takes is left alone. -/
theorem invoke_of_untaken (hget : p.document.get (.plain path) = .ok v)
    (hnone : ∀ directive, v = .map directive → Handler.find? workshop.handlers directive = none) :
    invoke workshop path p = some (.ok false, p) := by
  cases v with
  | map directive => simp only [invoke, hget, hnone directive rfl]
  | _ => simp only [invoke, hget]

/-- What is answered is done the same again if nothing is written for it and the node is not
completed. -/
theorem Settled.repeats {outcome : Outcome} (h : Settled workshop path p outcome b q)
    (hchanged : q.changed = false) (hopen : path ∉ q.completed) :
    q.completed = p.completed ∧ ∃ extra, q.revisit = extra ++ p.revisit ∧
      ∀ s : Progress μ, s.document = p.document →
        settle workshop path outcome s =
          some (.ok b, { s with revisit := extra ++ s.revisit }) := by
  cases h with
  | retry => exact ⟨rfl, [path], rfl, fun s _ => rfl⟩
  | @expanded v r hcontainer hwrite =>
      obtain ⟨rfl, current, hcurrent, hsame⟩ := hwrite.of_unchanged hchanged
      refine ⟨rfl, [path], rfl, fun s hs => ?_⟩
      refine bind_eq_ok.mpr ⟨(), s, write_of_same (hs ▸ hcurrent) hsame, ?_⟩
      rw [if_pos hcontainer]
      rfl
  | @replaced v r hscalar hwrite =>
      obtain ⟨rfl, current, hcurrent, hsame⟩ := hwrite.of_unchanged hchanged
      refine ⟨rfl, [], rfl, fun s hs => ?_⟩
      refine bind_eq_ok.mpr ⟨(), s, write_of_same (hs ▸ hcurrent) hsame, ?_⟩
      rw [hscalar]
      rfl
  | completed hwrite | separate _ hwrite =>
      exact absurd (Progress.mem_completed_finishing _ _) hopen

/-- A directive that is handed over again without its value being written or completed is answered
the same. -/
theorem Invoked.repeats
    (hsteady : ∀ handler ∈ workshop.handlers, handler.Steady workshop.setting recalls)
    (h : Invoked workshop path p b q) (hp : recalls p.memory) (hchanged : q.changed = false)
    (hopen : path ∉ q.completed) :
    q.completed = p.completed ∧ ∃ extra, q.revisit = extra ++ p.revisit ∧
      ∀ s : Progress μ, s.document = p.document → recalls s.memory →
        ∃ memory, recalls memory ∧ invoke workshop path s =
          some (.ok b, { s with memory, revisit := extra ++ s.revisit }) := by
  cases h with
  | untaken hget hnone =>
      refine ⟨rfl, [], rfl, fun s hs hmemory => ⟨s.memory, hmemory, ?_⟩⟩
      exact invoke_of_untaken (hs ▸ hget) hnone
  | @handled directive handler outcome memory b q hget hfind hcompose hsettle =>
      obtain ⟨hcompleted, extra, hextra, hsettles⟩ := hsettle.repeats hchanged hopen
      refine ⟨hcompleted, extra, hextra, fun s hs hmemory => ?_⟩
      have hhandler := hsteady handler (List.mem_of_find?_eq_some hfind)
      have hcontext : contextAt workshop path s = contextAt workshop path p := by
        rw [contextAt, contextAt, hs]
      have hanswer : (handler.compose directive (contextAt workshop path s) s.memory).1 =
          .ok outcome := by
        rw [hcontext, hhandler.same directive _ _ _ rfl hmemory hp, hcompose]
      refine ⟨_, hhandler.keeps directive (contextAt workshop path s) s.memory rfl hmemory, ?_⟩
      rw [invoke_of_answer (hs ▸ hget) hfind (Prod.ext hanswer rfl)]
      exact hsettles _ hs

/-- A node that has to be looked through again is not completed by that. -/
theorem Invoked.mem_completed (h : Invoked workshop path p true q) (hmem : path ∈ q.completed)
    (hchanged : q.changed = false) : path ∈ p.completed := by
  cases h with
  | handled _ _ _ hsettle =>
      cases hsettle with
      | retry => exact hmem
      | expanded _ hwrite =>
          obtain ⟨rfl, -⟩ := hwrite.of_unchanged hchanged
          exact hmem

/-! ### Looking through a node -/

theorem scan_of_directive (hopen : path ∉ p.completed)
    (hdirective : isDirective (Handler.markers workshop.handlers) v = true) (hroot : path ≠ []) :
    scan workshop path v p = (do
      if ← scanFields workshop path v.entries then again path
      else invoke workshop path : Composing μ Bool) p := by
  rw [scan_eq, if_neg hopen, if_pos hdirective, if_neg hroot]

namespace Repeats

/-- A completed node is passed over. -/
theorem of_completed (workshop : Workshop μ) (v : Value) (hdone : path ∈ completed) :
    Repeats recalls document completed path (scan workshop path v) false [] := by
  intro s _ hmemory hsame
  have hpassed := (hsame path (List.prefix_refl path)).mpr hdone
  exact ⟨s.memory, hmemory, scan_of_completed v hpassed⟩

variable (hopen : path ∉ completed)

include hopen

theorem of_plain (hplain : isDirective (Handler.markers workshop.handlers) v = false)
    (h : Repeats recalls document completed path (scanFields workshop path v.entries) b extra) :
    Repeats recalls document completed path (scan workshop path v) b extra := by
  intro s hs hmemory hsame
  have hstill := mt (hsame path (List.prefix_refl path)).mp hopen
  rw [scan_of_plain hstill hplain]
  exact h s hs hmemory hsame

variable (hdirective : isDirective (Handler.markers workshop.handlers) v = true)
  (hroot : path ≠ [])

include hdirective hroot

theorem of_waiting
    (h : Repeats recalls document completed path (scanFields workshop path v.entries) true extra) :
    Repeats recalls document completed path (scan workshop path v) true (path :: extra) := by
  intro s hs hmemory hsame
  have hstill := mt (hsame path (List.prefix_refl path)).mp hopen
  obtain ⟨memory, hmemory, hinside⟩ := h s hs hmemory hsame
  rw [scan_of_directive hstill hdirective hroot]
  exact ⟨memory, hmemory, bind_eq_ok.mpr ⟨true, _, hinside, rfl⟩⟩

theorem of_invoked {noted : List Path}
    (h : Repeats recalls document completed path (scanFields workshop path v.entries) false extra)
    (hinvokes : ∀ s : Progress μ, s.document = document → recalls s.memory →
      ∃ memory, recalls memory ∧ invoke workshop path s =
        some (.ok b, { s with memory, revisit := noted ++ s.revisit })) :
    Repeats recalls document completed path (scan workshop path v) b (noted ++ extra) := by
  intro s hs hmemory hsame
  have hstill := mt (hsame path (List.prefix_refl path)).mp hopen
  obtain ⟨memory, hmemory, hinside⟩ := h s hs hmemory hsame
  obtain ⟨memory', hmemory', hinvoke⟩ :=
    hinvokes { s with memory, revisit := extra ++ s.revisit } hs hmemory
  rw [scan_of_directive hstill hdirective hroot]
  refine ⟨memory', hmemory', bind_eq_ok.mpr ⟨false, _, hinside, ?_⟩⟩
  show invoke workshop path _ = _
  rw [hinvoke, List.append_assoc]

end Repeats

section

variable (hK : Kept workshop Inv) (hP : Carried workshop fun p => recalls p.memory)

include hK hP

theorem scanFields_repeats {es : List (String × Value)}
    (hscan : ∀ e ∈ es, ∀ path p b q, scan workshop path e.2 p = some (.ok b, q) → Inv p →
      recalls p.memory → p.document.content.node? path = some e.2 → q.changed = false →
      ∃ extra, q.revisit = extra ++ p.revisit ∧
        Repeats recalls p.document q.completed path (scan workshop path e.2) b extra)
    (hdistinct : Entries.Distinct es) (h : scanFields workshop path es p = some (.ok b, q))
    (hp : Inv p) (hrecalls : recalls p.memory)
    (hes : ∀ e ∈ es, p.document.content.node? (path.child e.1) = some e.2)
    (hchanged : q.changed = false) :
    ∃ extra, q.revisit = extra ++ p.revisit ∧
      Repeats recalls p.document q.completed path (scanFields workshop path es) b extra := by
  induction es generalizing p b with
  | nil =>
      obtain ⟨rfl, rfl⟩ := scanFields_nil_eq_ok.mp h
      exact ⟨[], rfl, fun s _ hs _ => ⟨s.memory, hs, scanFields_nil_eq_ok.mpr ⟨rfl, rfl⟩⟩⟩
  | cons e es ih =>
      obtain ⟨here, there, m, hhere, hthere, rfl⟩ := scanFields_cons_eq_ok.mp h
      obtain ⟨hscane, hscanes⟩ := List.forall_mem_cons.mp hscan
      obtain ⟨hm, hmoved⟩ := hK.scan hhere hp
      obtain ⟨hmchanged, -⟩ := (hK.scanFields hthere hm).2.unchanged hchanged
      obtain ⟨-, hdocument⟩ := hmoved.unchanged hmchanged
      obtain ⟨first, hfirst, hrepeats⟩ :=
        hscane _ _ _ _ hhere hp hrecalls (hes e List.mem_cons_self) hmchanged
      obtain ⟨later, hlater, hrepeatsrest⟩ := ih hscanes hdistinct.of_cons hthere hm
        (hP.scan hhere hrecalls) (hmoved.others hdistinct hes)
      have hbeside := (scanFields_beside hK hthere hm (List.nodup_cons.mp hdistinct).1).2
      refine ⟨later ++ first, by rw [hlater, hfirst, List.append_assoc],
        fun s hs hmemory hsame => ?_⟩
      obtain ⟨memory, hmemory, hheres⟩ := hrepeats s hs hmemory fun c hc =>
        (hsame c (Path.prefix_of_child_prefix hc)).trans (hbeside c hc).1
      obtain ⟨memory', hmemory', htheres⟩ := hrepeatsrest
        { s with memory, revisit := first ++ s.revisit } (hs.trans hdocument.symm) hmemory hsame
      refine ⟨memory', hmemory',
        scanFields_cons_eq_ok.mpr ⟨here, there, _, hheres, ?_, rfl⟩⟩
      rw [htheres, List.append_assoc]

variable (htaking : Handler.Taking workshop.handlers)
  (hsteady : ∀ handler ∈ workshop.handlers, handler.Steady workshop.setting recalls)

include htaking hsteady

/-- **Looking through a node again, after a pass that wrote nothing, notes the same nodes.** -/
theorem scan_repeats (v : Value) : ∀ path p b q, scan workshop path v p = some (.ok b, q) → Inv p →
    recalls p.memory → p.document.content.node? path = some v → q.changed = false →
    ∃ extra, q.revisit = extra ++ p.revisit ∧
      Repeats recalls p.document q.completed path (scan workshop path v) b extra := by
  induction v using Value.entries_induction with
  | node v ih =>
      intro path p b q h hp hrecalls hn hchanged
      by_cases hdone : path ∈ p.completed
      · rw [scan_of_completed v hdone] at h
        obtain ⟨hb, rfl⟩ := Prod.mk.inj (Option.some.inj h)
        obtain rfl := Except.ok.inj hb
        exact ⟨[], rfl, .of_completed workshop v hdone⟩
      have hwell : v.WellFormed := (hK.sound hp).wellFormed.of_node? hn
      have hes := fun e he => Value.node?_child_of_mem_entries hn hwell (e := e) he
      have hfields := fun {b m} (hscan : scanFields workshop path v.entries p = some (.ok b, m)) =>
        scanFields_repeats hK hP ih hwell.distinct_entries hscan hp hrecalls hes
      have hopen : ∀ {b m}, scanFields workshop path v.entries p = some (.ok b, m) →
          path ∉ m.completed := by
        intro b m hscan hmem
        have heach := scanFields_linesUpEach hK (fun e _ => scan_linesUp hK htaking e.2)
          hwell.distinct_entries hscan hp hes
        exact hdone ((heach.above hn).2.mp hmem)
      cases Scanned.of_scan h with
      | completed hmem => exact absurd hmem hdone
      | plain hplain hscan =>
          obtain ⟨extra, hextra, hrepeats⟩ := hfields hscan hchanged
          exact ⟨extra, hextra, .of_plain (hopen hscan) hplain hrepeats⟩
      | @waiting m hdirective hroot hscan =>
          obtain ⟨extra, hextra, hrepeats⟩ := hfields hscan hchanged
          have hwaits : path ∉ m.completed := hopen hscan
          exact ⟨path :: extra, congrArg (path :: ·) hextra,
            .of_waiting hwaits hdirective hroot hrepeats⟩
      | @invoked b m q hdirective hroot hscan hinvoke =>
          obtain ⟨hm, hmoved⟩ := hK.scanFields hscan hp
          obtain ⟨hmchanged, -⟩ := (hK.moved_of_invoked hroot hm hinvoke).unchanged hchanged
          obtain ⟨-, hdocument⟩ := hmoved.unchanged hmchanged
          by_cases hmem : path ∈ q.completed
          · -- The directive has been completed, with the value it had.
            cases b with
            | true => exact absurd (hinvoke.mem_completed hmem hchanged) (hopen hscan)
            | false => exact ⟨[], scan_revisit_eq v path p q h, .of_completed workshop v hmem⟩
          · obtain ⟨hcompleted, noted, hnoted, hinvokes⟩ :=
              hinvoke.repeats hsteady (hP.scanFields hscan hrecalls) hchanged hmem
            obtain ⟨extra, hextra, hrepeats⟩ := hfields hscan hmchanged
            refine ⟨noted ++ extra, by rw [hnoted, hextra, List.append_assoc],
              .of_invoked hmem hdirective hroot (hcompleted ▸ hrepeats) ?_⟩
            rwa [← hdocument]

end

/-! ### Worklists -/

/-- At any state with the document and the completed nodes, a pass over a worklist notes some nodes
and does nothing else but remember. -/
inductive PassRepeats (workshop : Workshop μ) (recalls : μ → Prop) (document : Store)
    (completed : List Path) : List Path → List Path → Prop
  | nil : PassRepeats workshop recalls document completed [] []
  | cons {path : Path} {rest : List Path} {v : Value} {b : Bool} {first later : List Path}
      (hn : document.content.node? path = some v)
      (hrepeats : Repeats recalls document completed path (scan workshop path v) b first)
      (hrest : PassRepeats workshop recalls document completed rest later) :
      PassRepeats workshop recalls document completed (path :: rest) (later ++ first)

theorem Passed.mem_completed_iff (hK : Kept workshop Inv) (h : Passed workshop worklist p q)
    (hp : Inv p) {c : Path} (hc : ∀ w ∈ worklist, ¬ w <+: c) :
    c ∈ q.completed ↔ c ∈ p.completed := by
  induction h with
  | nil => exact Iff.rfl
  | gone hgone hrest ih => exact ih hp (List.forall_mem_cons.mp hc).2
  | scanned hget hscan hrest ih =>
      obtain ⟨hhere, hc⟩ := List.forall_mem_cons.mp hc
      obtain ⟨hq, hmoved⟩ := hK.scan hscan hp
      exact (ih hq hc).trans (hmoved.completed c hhere)

theorem Passed.unchanged (hK : Kept workshop Inv) (h : Passed workshop worklist p q) (hp : Inv p)
    (hchanged : q.changed = false) : p.changed = false ∧ q.document = p.document :=
  (hK.frame.passed h hp).2.unchanged hchanged

/-- **A pass that writes nothing can be repeated.** -/
theorem Passed.repeats (hK : Kept workshop Inv) (hP : Carried workshop fun p => recalls p.memory)
    (htaking : Handler.Taking workshop.handlers)
    (hsteady : ∀ handler ∈ workshop.handlers, handler.Steady workshop.setting recalls)
    (h : Passed workshop worklist p q) (hp : Inv p) (hrecalls : recalls p.memory)
    (hchanged : q.changed = false)
    (hapart : worklist.Pairwise fun a b => ¬ a <+: b ∧ ¬ b <+: a)
    (hnodes : ∀ w ∈ worklist, (p.document.content.node? w).isSome = true) :
    ∃ extra, q.revisit = extra ++ p.revisit ∧
      PassRepeats workshop recalls p.document q.completed worklist extra := by
  induction h with
  | nil => exact ⟨[], rfl, .nil⟩
  | @gone path rest p q hgone hrest ih =>
      rw [Store.has_plain (hK.sound hp), hnodes path List.mem_cons_self] at hgone
      exact absurd hgone (by simp)
  | @scanned path rest p m q v b hget hscan hrest ih =>
      have hn := (Store.get_plain_eq_ok_iff (hK.sound hp)).mp hget
      obtain ⟨hpath, hapart⟩ := List.pairwise_cons.mp hapart
      have hm := (hK.scan hscan hp).1
      obtain ⟨hmchanged, -⟩ := hrest.unchanged hK hm hchanged
      obtain ⟨-, hdocument⟩ := (hK.scan hscan hp).2.unchanged hmchanged
      obtain ⟨first, hfirst, hrepeats⟩ :=
        scan_repeats hK hP htaking hsteady v path p b m hscan hp hrecalls hn hmchanged
      have hnodes' : ∀ w ∈ rest, (m.document.content.node? w).isSome = true := fun w hw => by
        rw [hdocument]
        exact hnodes w (List.mem_cons_of_mem _ hw)
      obtain ⟨later, hlater, hrest'⟩ := ih hm (hP.scan hscan hrecalls) hchanged hapart hnodes'
      rw [hdocument] at hrest'
      refine ⟨later ++ first, by rw [hlater, hfirst, List.append_assoc], .cons hn
        (fun s hs hmemory hsame => hrepeats s hs hmemory fun c hc => (hsame c hc).trans ?_) hrest'⟩
      refine hrest.mem_completed_iff hK hm fun w hw hfront => ?_
      exact (List.prefix_or_prefix_of_prefix hfront hc).elim (hpath w hw).2 (hpath w hw).1

namespace PassRepeats

theorem split {front back : List Path}
    (h : PassRepeats workshop recalls document completed (front ++ back) extra) :
    ∃ first later, extra = later ++ first ∧
      PassRepeats workshop recalls document completed front first ∧
      PassRepeats workshop recalls document completed back later := by
  induction front generalizing extra with
  | nil => exact ⟨[], extra, (List.append_nil extra).symm, .nil, h⟩
  | cons path front ih =>
      cases h with
      | @cons _ _ v b here there hn hrepeats hrest =>
          obtain ⟨first, later, rfl, hfront, hback⟩ := ih hrest
          exact ⟨first ++ here, later, List.append_assoc _ _ _, .cons hn hrepeats hfront, hback⟩

theorem pass (h : PassRepeats workshop recalls document completed worklist extra)
    (hsound : document.Sound)
    (hs : s.document = document) (hmemory : recalls s.memory)
    (hcompleted : s.completed = completed) :
    ∃ memory, recalls memory ∧ Composing.pass workshop worklist s =
      some (.ok (), { s with memory, revisit := extra ++ s.revisit }) := by
  induction h generalizing s with
  | nil => exact ⟨s.memory, hmemory, rfl⟩
  | @cons path rest v b first later hn hrepeats hrest ih =>
      subst hs
      obtain ⟨memory, hmemory, hscan⟩ := hrepeats s rfl hmemory fun c _ => by rw [hcompleted]
      obtain ⟨memory', hmemory', hpass⟩ :=
        @ih { s with memory, revisit := first ++ s.revisit } rfl hmemory hcompleted
      refine ⟨memory', hmemory', ?_⟩
      rw [pass_cons_of_node hsound rest hn]
      refine bind_eq_ok.mpr ⟨b, _, hscan, ?_⟩
      rw [hpass, List.append_assoc]

/-- If looking through each of some entries notes what is noted in its part of a worklist, looking
through all of them notes what is noted in the worklist. -/
theorem scanFields {es : List (String × Value)} {parts : String → List Path}
    (hscan : ∀ e ∈ es, ∀ {extra s},
      PassRepeats workshop recalls document completed (parts e.1) extra →
      s.document = document → recalls s.memory → s.completed = completed →
      ∃ b memory, recalls memory ∧ Composing.scan workshop (path.child e.1) e.2 s =
        some (.ok b, { s with memory, revisit := extra ++ s.revisit }))
    (h : PassRepeats workshop recalls document completed ((Entries.keys es).flatMap parts) extra)
    (hs : s.document = document) (hmemory : recalls s.memory)
    (hcompleted : s.completed = completed) :
    ∃ b memory, recalls memory ∧ Composing.scanFields workshop path es s =
      some (.ok b, { s with memory, revisit := extra ++ s.revisit }) := by
  induction es generalizing s extra with
  | nil =>
      cases h
      exact ⟨false, s.memory, hmemory, scanFields_nil_eq_ok.mpr ⟨rfl, rfl⟩⟩
  | cons e es ih =>
      obtain ⟨he, hes⟩ := List.forall_mem_cons.mp hscan
      obtain ⟨first, later, rfl, hfront, hback⟩ := h.split
      obtain ⟨here, memory, hmemory, hhere⟩ := he hfront hs hmemory hcompleted
      obtain ⟨there, memory', hmemory', hthere⟩ :=
        @ih { s with memory, revisit := first ++ s.revisit } later hes hback hs hmemory hcompleted
      refine ⟨here || there, memory', hmemory',
        scanFields_cons_eq_ok.mpr ⟨here, there, _, hhere, ?_, rfl⟩⟩
      rw [hthere, List.append_assoc]

end PassRepeats

/-- **Looking through a node notes what a pass over a worklist that goes through it notes.** -/
theorem Lined.scan (h : Lined (Handler.markers workshop.handlers) (· ∈ completed) path v worklist)
    (hsound : document.Sound) (hn : document.content.node? path = some v)
    (hrepeats : PassRepeats workshop recalls document completed worklist extra)
    (hs : s.document = document) (hmemory : recalls s.memory)
    (hcompleted : s.completed = completed) :
    ∃ b memory, recalls memory ∧ Composing.scan workshop path v s =
      some (.ok b, { s with memory, revisit := extra ++ s.revisit }) := by
  induction h generalizing s extra with
  | @done path v h =>
      cases hrepeats
      exact ⟨false, s.memory, hmemory, scan_of_completed v (hcompleted ▸ h)⟩
  | @here path v =>
      cases hrepeats with
      | @cons _ _ w b first later hw hscan hrest =>
          cases hrest
          obtain rfl := Option.some.inj (hn.symm.trans hw)
          obtain ⟨memory, hmemory, hagain⟩ := hscan s hs hmemory fun c _ => by rw [hcompleted]
          exact ⟨b, memory, hmemory, hagain⟩
  | @inside path v parts hopen hplain hchildren ih =>
      have hwell : v.WellFormed := hsound.wellFormed.of_node? hn
      rw [scan_of_plain (hcompleted ▸ hopen) hplain]
      refine hrepeats.scanFields (fun e he {extra s} hpart => ?_) hs hmemory hcompleted
      exact ih e.1 e.2 (Value.child?_of_mem_entries hwell he)
        (Value.node?_child_of_mem_entries hn hwell he) hpart

end Composing

end Docweave
