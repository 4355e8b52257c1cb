import Docweave.Proofs.Composing.Lasting

/-!
What takes the place of a directive for good.

A directive that is not inside another stays as it is until it is handed to its handler, whatever
happens around it, since nothing is ever written to the nodes above it.  If its handler puts a value
there for good, the value stays as well: it is completed, so no pass looks through it, and nothing
around it can undo that.  `Placed` says which of the two is the case, and `Sealed` that it is the
second.  Both are matters of the site (`Sited`): what happens beside it does not touch them, and
looking through it keeps them.  So every pass that does not begin inside of the site keeps them, the
passes that fail included (`Sited.pass`), and so does a run.  In the end, and after the first pass
already, the value is there (`Placed.exists_final`), because whatever is left of directives is
completed or noted for later.
-/

namespace Docweave

namespace Composing

variable {μ : Type} {workshop : Workshop μ} {Inv P : Progress μ → Prop} {Final : Value → Prop}
  {p q : Progress μ} {site path : Path} {directive : Value} {worklist : List Path}

/-- At the site there is the directive still, or a final value for good. -/
structure Placed (markers : List String) (site : Path) (directive : Value) (Final : Value → Prop)
    (p : Progress μ) : Prop where
  above : ∀ r, r <+: site → r ≠ site →
    ∃ u, p.document.content.node? r = some u ∧ isDirective markers u = false
  noted : ∀ r ∈ p.revisit, ¬ site <+: r ∧ ¬ r <+: site
  here : (p.document.content.node? site = some directive ∧ ∀ c ∈ p.completed, ¬ c <+: site) ∨
    ∃ w, Final w ∧ p.document.content.node? site = some w ∧ site ∈ p.completed

/-- Handing over the directive at the site puts a final value there. -/
def Places (workshop : Workshop μ) (Inv : Progress μ → Prop) (site : Path) (directive : Value)
    (Final : Value → Prop) : Prop :=
  ∀ {p b q}, Inv p → p.document.content.node? site = some directive → Invoked workshop site p b q →
    ∃ w, Final w ∧ q.document.content = p.document.content.put site w ∧ site ∈ q.completed ∧
      q.revisit = p.revisit

namespace Placed

variable {markers : List String}

theorem fresh (h : Placed markers site directive Final p) :
    Placed markers site directive Final p.fresh :=
  ⟨h.above, fun _ hr => absurd hr List.not_mem_nil, h.here⟩

/-- Above the site a write shows in the children alone. -/
theorem above_put {v : Value} (h : Placed markers site directive Final p)
    (hpath : ¬ path <+: site ∨ path = site)
    (hcontent : q.document.content = p.document.content.put path v) :
    ∀ r, r <+: site → r ≠ site →
      ∃ u, q.document.content.node? r = some u ∧ isDirective markers u = false := by
  intro r hr hne
  obtain ⟨u, hu, hplain⟩ := h.above r hr hne
  have hbeside : ¬ path <+: r := by
    intro hfront
    rcases hpath with hnot | rfl
    · exact hnot (hfront.trans hr)
    · exact hne (Path.prefix_antisymm hr hfront)
  obtain ⟨u', hu', hhead⟩ := Value.head_node?_put hbeside hu v
  exact ⟨u', hcontent ▸ hu', by rwa [isDirective_of_head_eq hhead]⟩

/-- What happens beside the site does not matter. -/
theorem moved (h : Placed markers site directive Final p) (hmoved : Moved path p q)
    (hpath : ¬ path <+: site) (hsite : ¬ site <+: path) :
    Placed markers site directive Final q where
  above := by
    obtain ⟨v, hv⟩ := hmoved.content
    exact h.above_put (.inl hpath) hv
  noted := by
    obtain ⟨extra, hextra, hbelow⟩ := hmoved.revisit
    intro r hr
    rw [hextra] at hr
    rcases List.mem_append.mp hr with hr | hr
    · refine ⟨fun hfront => ?_, fun hfront => hpath ((hbelow r hr).trans hfront)⟩
      exact (List.prefix_or_prefix_of_prefix (hbelow r hr) hfront).elim hpath hsite
    · exact h.noted r hr
  here := by
    rw [hmoved.node?_beside hpath hsite]
    refine h.here.imp (And.imp_right fun hc c hmem hfront => ?_) ?_
    · have hbeside : ¬ path <+: c := fun hpc => hpath (hpc.trans hfront)
      exact hc c ((hmoved.completed c hbeside).mp hmem) hfront
    · rintro ⟨w, hw, hn, hmem⟩
      exact ⟨w, hw, hn, (hmoved.completed site hpath).mpr hmem⟩

/-- Where every directive that is left is completed or noted, the final value is there. -/
theorem exists_final {start : Path}
    (h : Placed (Handler.markers workshop.handlers) site directive Final p)
    (hdirective : isDirective (Handler.markers workshop.handlers) directive = true)
    (hstart : start <+: site) (hcovered : CoveredFrom workshop start (· ∈ p.revisit) p) :
    ∃ w, Final w ∧ p.document.content.node? site = some w ∧ site ∈ p.completed := by
  obtain ⟨hn, hopen⟩ | hfinal := h.here
  · obtain ⟨below, rfl⟩ := hstart
    rw [Value.node?_append] at hn
    obtain ⟨v, hv, hn⟩ := Option.bind_eq_some_iff.mp hn
    obtain ⟨c, hc, -, hfront⟩ := (hcovered v hv).exists_above hn hdirective
    rcases hc with hc | hc
    · exact absurd hfront (hopen c hc)
    · exact absurd hfront (h.noted c hc).2
  · exact hfinal

end Placed

/-! ### Properties of a site -/

/-- A property of what is at a site and above it.  Nothing that happens beside the site breaks it,
and looking through the site does not either. -/
structure Sited (workshop : Workshop μ) (Inv : Progress μ → Prop) (site : Path)
    (S : Progress μ → Prop) : Prop where
  above : ∀ {p}, S p → ∀ r, r <+: site → r ≠ site → ∃ u,
    p.document.content.node? r = some u ∧
      isDirective (Handler.markers workshop.handlers) u = false
  noted : ∀ {p}, S p → ∀ r ∈ p.revisit, ¬ site <+: r
  fresh : ∀ {p}, S p → S p.fresh
  moved : ∀ {path p q}, S p → Moved path p q → ¬ path <+: site → ¬ site <+: path → S q
  scan : ∀ {v result p q}, S p → Inv p → p.document.content.node? site = some v →
    Composing.scan workshop site v p = some (result, q) → S q

/-- A node at or above the site is not inside of it. -/
theorem eq_of_prefix_start {start : Path} (hstart : start <+: site) :
    ∀ w ∈ [start], site <+: w → site = w := by
  intro w hw hfront
  obtain rfl := List.mem_singleton.mp hw
  exact Path.prefix_antisymm hfront hstart

namespace Sited

variable {S : Progress μ → Prop} (hL : Lasting workshop Inv) (hP : Carried workshop P)
  (hS : Sited workshop (fun p => Inv p ∧ P p) site S)

include hL hP

omit hS in
theorem scanFields {es : List (String × Value)} {result : Except Fault Bool}
    (hscan : ∀ e ∈ es, ∀ path p result q,
      Composing.scan workshop path e.2 p = some (result, q) → Inv p → P p →
      p.document.content.node? path = some e.2 → (site <+: path → site = path) → S p → S q)
    (hdistinct : Entries.Distinct es)
    (h : Composing.scanFields workshop path es p = some (result, q)) (hInv : Inv p) (hPp : P p)
    (hes : ∀ e ∈ es, p.document.content.node? (path.child e.1) = some e.2)
    (hbelow : ∀ e ∈ es, site <+: path.child e.1 → site = path.child e.1) (hp : S p) : S q := by
  induction es generalizing p result with
  | nil =>
      rw [Composing.scanFields] at h
      obtain ⟨-, rfl⟩ := Prod.mk.inj (Option.some.inj h)
      exact hp
  | cons e es ih =>
      obtain ⟨hscane, hscanes⟩ := List.forall_mem_cons.mp hscan
      obtain ⟨hne, -⟩ := List.forall_mem_cons.mp hes
      obtain ⟨hbelowe, hbelowes⟩ := List.forall_mem_cons.mp hbelow
      obtain ⟨fault, hhere⟩ | ⟨here, r, rest, hhere, hrest⟩ := scanFields_cons_result h
      · exact hscane _ _ _ _ hhere hInv hPp hne hbelowe hp
      · obtain ⟨hr, hmoved⟩ := hL.scan hhere hInv
        exact ih hscanes hdistinct.of_cons hrest hr (hP.scan hhere hPp)
          (hmoved.others hdistinct hes) hbelowes
          (hscane _ _ _ _ hhere hInv hPp hne hbelowe hp)

include hS

/-- **Looking through a node that is not inside of the site keeps a property of the site**, whether
it fails or not. -/
theorem scan_node (v : Value) : ∀ path p result q,
    Composing.scan workshop path v p = some (result, q) → Inv p → P p →
    p.document.content.node? path = some v → (site <+: path → site = path) → S p → S q := by
  induction v using Value.entries_induction with
  | node v ih =>
      intro path p result q h hInv hPp hn hbelow hp
      by_cases hpath : path <+: site
      · by_cases hsite : path = site
        · subst hsite
          exact hS.scan hp ⟨hInv, hPp⟩ hn h
        by_cases hdone : path ∈ p.completed
        · rw [scan_of_completed v hdone] at h
          obtain ⟨-, rfl⟩ := Prod.mk.inj (Option.some.inj h)
          exact hp
        obtain ⟨u, hu, hplain⟩ := hS.above hp path hpath hsite
        obtain rfl := Option.some.inj (hn.symm.trans hu)
        rw [scan_of_plain hdone hplain] at h
        have hwell : v.WellFormed := (hL.sound hInv).wellFormed.of_node? hn
        refine scanFields hL hP ih hwell.distinct_entries h hInv hPp
          (fun e he => Value.node?_child_of_mem_entries hn hwell he) (fun e _ hfront => ?_) hp
        refine (List.prefix_concat_iff.mp hfront).resolve_right fun hback => ?_
        exact hsite (Path.prefix_antisymm hpath hback)
      · have hsite : ¬ site <+: path := fun hfront =>
          hpath (hbelow hfront ▸ List.prefix_refl path)
        exact hS.moved hp (hL.result _ _ _ _ _ h hInv).2 hpath hsite

/-- **A pass that does not begin inside of the site keeps a property of the site**, whether it fails
or not. -/
theorem pass {result : Except Fault Unit}
    (h : Composing.pass workshop worklist p = some (result, q)) (hInv : Inv p) (hPp : P p)
    (hworklist : ∀ w ∈ worklist, site <+: w → site = w) (hp : S p) : S q := by
  induction worklist generalizing p with
  | nil =>
      obtain ⟨-, rfl⟩ := Prod.mk.inj (Option.some.inj h)
      exact hp
  | cons path rest ih =>
      obtain ⟨hpath, hworklist⟩ := List.forall_mem_cons.mp hworklist
      have hsound := hL.sound hInv
      cases hn : p.document.content.node? path with
      | none =>
          rw [pass_cons_of_gone hsound rest hn] at h
          exact ih h hInv hPp hworklist hp
      | some v =>
          obtain ⟨fault, hscan⟩ | ⟨b, r, hscan, hrest⟩ := pass_cons_result hsound hn h
          · exact hS.scan_node hL hP v _ _ _ _ hscan hInv hPp hn hpath hp
          · exact ih hrest (hL.scan hscan hInv).1 (hP.scan hscan hPp) hworklist
              (hS.scan_node hL hP v _ _ _ _ hscan hInv hPp hn hpath hp)

theorem passed (h : Passed workshop worklist p q) (hInv : Inv p) (hPp : P p)
    (hworklist : ∀ w ∈ worklist, site <+: w → site = w) (hp : S p) : S q := by
  induction h with
  | nil => exact hp
  | gone hgone hrest ih => exact ih hInv hPp (List.forall_mem_cons.mp hworklist).2 hp
  | scanned hget hscan hrest ih =>
      obtain ⟨hpath, hworklist⟩ := List.forall_mem_cons.mp hworklist
      have hn := (Store.get_plain_eq_ok_iff (hL.sound hInv)).mp hget
      exact ih (hL.scan hscan hInv).1 (hP.scan hscan hPp) hworklist
        (hS.scan_node hL hP _ _ _ _ _ hscan hInv hPp hn hpath hp)

/-- **A run that does not begin inside of the site keeps a property of the site.** -/
theorem ended (h : Ended workshop worklist p q) (hInv : Inv p) (hPp : P p)
    (hworklist : ∀ w ∈ worklist, site <+: w → site = w) (hp : S p) : S q := by
  induction h with
  | last hpass hnone =>
      exact hS.passed hL hP hpass (hL.fresh hInv) (hP.fresh hPp) hworklist (hS.fresh hp)
  | next hpass hrest ih =>
      have hq := hS.passed hL hP hpass (hL.fresh hInv) (hP.fresh hPp) hworklist (hS.fresh hp)
      exact ih (hL.passed hpass (hL.fresh hInv)) (hP.passed hpass (hP.fresh hPp))
        (fun w hw hfront => absurd hfront (hS.noted hq w (mem_revisit_of_mem_leftOver hw))) hq

end Sited

/-! ### What handing over the directive comes to -/

variable (hL : Lasting workshop Inv) (hP : Carried workshop P)
  (hdirective : isDirective (Handler.markers workshop.handlers) directive = true)
  (hinside : ∀ below d, below ≠ [] → directive.node? below = some d →
    isDirective (Handler.markers workshop.handlers) d = false)
  (hplaces : site ≠ [] → Places workshop (fun p => Inv p ∧ P p) site directive Final)

/-- A directive without others in it goes to its handler. -/
theorem scan_of_bare {v : Value} (hwell : v.WellFormed) (hdone : path ∉ p.completed)
    (hdirective : isDirective (Handler.markers workshop.handlers) v = true) (hroot : path ≠ [])
    (hinside : ∀ below d, below ≠ [] → v.node? below = some d →
      isDirective (Handler.markers workshop.handlers) d = false) :
    Composing.scan workshop path v p = invoke workshop path p := by
  have hentries : Composing.scanFields workshop path v.entries p = some (.ok false, p) := by
    refine scanFields_of_nothing fun e he => ?_
    refine scan_of_covered (fun _ => id) e.2 _ (hwell.of_mem_entries he)
      (.of_plain fun below d hd => hinside (e.1 :: below) d (List.cons_ne_nil _ _) ?_)
    rw [Value.node?_cons, Value.child?_of_mem_entries hwell he, Option.bind_some, hd]
  rw [scan_eq, if_neg hdone, if_pos hdirective, if_neg hroot]
  show (Composing.scanFields workshop path v.entries p).bind _ = _
  rw [hentries]
  rfl

/-- What is remembered does not matter. -/
theorem Placed.withMemory {markers : List String} {memory : μ}
    (h : Placed markers site directive Final p) :
    Placed markers site directive Final { p with memory } :=
  ⟨h.above, h.noted, h.here⟩

omit hP in
include hL hdirective hinside hplaces in
/-- What is placed at a site is a matter of the site: looking through it hands over the directive,
or does nothing to what is there for good. -/
theorem Placed.sited : Sited workshop (fun p => Inv p ∧ P p) site
    (Placed (Handler.markers workshop.handlers) site directive Final) where
  above h := h.above
  noted h r hr := (h.noted r hr).1
  fresh h := h.fresh
  moved h hmoved hpath hsite := h.moved hmoved hpath hsite
  scan := fun {v result p q} hplaced ⟨hInv, hPp⟩ hn h => by
    obtain ⟨hn', hopen⟩ | ⟨-, -, -, hmem⟩ := hplaced.here
    · obtain rfl := Option.some.inj (hn.symm.trans hn')
      have hwell : v.WellFormed := (hL.sound hInv).wellFormed.of_node? hn
      have hdone : site ∉ p.completed := fun hmem => hopen site hmem (List.prefix_refl site)
      by_cases hroot : site = []
      · -- A directive that is the whole document is not even handed over.
        rw [scan_eq, if_neg hdone, if_pos hdirective, if_pos hroot] at h
        obtain ⟨-, rfl⟩ := Prod.mk.inj (Option.some.inj h)
        exact hplaced
      rw [scan_of_bare hwell hdone hdirective hroot hinside] at h
      cases result with
      | error fault =>
          obtain ⟨-, memory, rfl⟩ := hL.failed hroot hInv h
          exact hplaced.withMemory
      | ok b =>
          obtain ⟨w, hw, hcontent, hmem, hrevisit⟩ :=
            hplaces hroot ⟨hInv, hPp⟩ hn (.of_invoke h)
          have hself : q.document.content.node? site = some w := by
            rw [hcontent, Value.node?_put_self (Option.isSome_of_eq_some hn)]
          exact ⟨hplaced.above_put (.inr rfl) hcontent, hrevisit ▸ hplaced.noted,
            .inr ⟨w, hw, hself, hmem⟩⟩
    · rw [scan_of_completed v hmem] at h
      obtain ⟨-, rfl⟩ := Prod.mk.inj (Option.some.inj h)
      exact hplaced

/-- A value that is at the site for good, with nothing above it that is a directive. -/
structure Sealed (markers : List String) (site : Path) (w : Value) (p : Progress μ) : Prop where
  placed : Placed markers site w (· = w) p
  node : p.document.content.node? site = some w
  completed : site ∈ p.completed

theorem Sealed.fresh {markers : List String} {w : Value} (h : Sealed markers site w p) :
    Sealed markers site w p.fresh :=
  ⟨h.placed.fresh, h.node, h.completed⟩

/-- What is at the site for good is a matter of the site: looking through it does nothing. -/
theorem Sealed.sited {w : Value} : Sited workshop Inv site
    (Sealed (Handler.markers workshop.handlers) site w) where
  above h := h.placed.above
  noted h r hr := (h.placed.noted r hr).1
  fresh h := h.fresh
  moved h hmoved hpath hsite :=
    ⟨h.placed.moved hmoved hpath hsite, (hmoved.node?_beside hpath hsite).trans h.node,
      (hmoved.completed site hpath).mpr h.completed⟩
  scan := fun {v result p q} hsealed _ _ h => by
    rw [scan_of_completed v hsealed.completed] at h
    obtain ⟨-, rfl⟩ := Prod.mk.inj (Option.some.inj h)
    exact hsealed

include hL hP hdirective hinside hplaces

/-- After a pass over a node at or above the site the final value is there. -/
theorem Passed.exists_final (htaking : Handler.Taking workshop.handlers) {start : Path}
    (h : Passed workshop [start] p q) (hInv : Inv p) (hPp : P p)
    (hstart : start <+: site)
    (hplaced : Placed (Handler.markers workshop.handlers) site directive Final p) :
    ∃ w, Final w ∧ q.document.content.node? site = some w ∧ site ∈ q.completed := by
  have hq := (Placed.sited hL hdirective hinside hplaces).passed hL hP h hInv hPp
    (eq_of_prefix_start hstart) hplaced
  refine hq.exists_final hdirective hstart (h.covers hL.toKept htaking hInv ?_ fun _ _ => ?_)
  · exact fun w hw => List.mem_singleton.mp hw ▸ List.prefix_refl start
  · exact .todo (.inl List.mem_cons_self)

/-- When composing a node at or above the site ends the final value is there. -/
theorem Ended.exists_final (htaking : Handler.Taking workshop.handlers) {start : Path}
    (h : Ended workshop [start] p q) (hInv : Inv p) (hPp : P p)
    (hstart : start <+: site)
    (hplaced : Placed (Handler.markers workshop.handlers) site directive Final p) :
    ∃ w, Final w ∧ q.document.content.node? site = some w ∧ site ∈ q.completed := by
  have hq := (Placed.sited hL hdirective hinside hplaces).ended hL hP h hInv hPp
    (eq_of_prefix_start hstart) hplaced
  have hcovered : CoveredFrom workshop start (fun _ => False) q :=
    h.covers hL.toKept htaking hInv (fun w hw => List.mem_singleton.mp hw ▸ List.prefix_refl start)
      fun _ _ => .todo List.mem_cons_self
  exact hq.exists_final hdirective hstart fun v hv =>
    (hcovered v hv).mono (fun _ _ h => h) fun _ _ h => absurd h not_false

end Composing

end Docweave
