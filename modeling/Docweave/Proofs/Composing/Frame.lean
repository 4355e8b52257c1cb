import Docweave.Proofs.Composing.Passes
import Docweave.Proofs.Directive
import Docweave.Proofs.Store.Agreement

/-!
What composing leaves alone.

Whatever is done at a node stays there: `Moved` says that the document outside of the node, the
nodes outside that hold their value for good and the nodes noted before are as they were.  It holds
of every handing over (`Effect.moved`), and so, as a frame, of looking through a node and of a
pass.

An invariant of the states is `Kept` if handing over keeps it and writes nothing but documents
without repeated keys, so that an index fits whatever comes.
-/

namespace Docweave

namespace Composing

variable {μ : Type} {workshop : Workshop μ} {handover : Handover μ} {p q r : Progress μ}
  {path : Path}

/-! ### What moves -/

/-- Everything that has happened between two states has happened at or below a node. -/
structure Moved (path : Path) (p q : Progress μ) : Prop where
  content : ∃ v, q.document.content = p.document.content.put path v
  completed : ∀ c, ¬ path <+: c → (c ∈ q.completed ↔ c ∈ p.completed)
  revisit : ∃ extra, q.revisit = extra ++ p.revisit ∧ ∀ r ∈ extra, path <+: r
  unchanged : q.changed = false → p.changed = false ∧ q.document = p.document

namespace Moved

theorem of_document_eq (hdocument : q.document = p.document)
    (hcompleted : ∀ c, ¬ path <+: c → (c ∈ q.completed ↔ c ∈ p.completed))
    (hrevisit : ∃ extra, q.revisit = extra ++ p.revisit ∧ ∀ r ∈ extra, path <+: r)
    (hchanged : q.changed = p.changed) : Moved path p q where
  content := by
    cases hn : p.document.content.node? path with
    | some w => exact ⟨w, by rw [hdocument, Value.put_self hn]⟩
    | none => exact ⟨.null, by rw [hdocument, Value.put_of_node?_eq_none hn]⟩
  completed := hcompleted
  revisit := hrevisit
  unchanged h := ⟨hchanged ▸ h, hdocument⟩

theorem refl (path : Path) (p : Progress μ) : Moved path p p :=
  of_document_eq rfl (fun _ _ => Iff.rfl) ⟨[], rfl, fun _ h => absurd h List.not_mem_nil⟩ rfl

theorem trans (hpq : Moved path p q) (hqr : Moved path q r) : Moved path p r where
  content := by
    obtain ⟨v, hv⟩ := hpq.content
    obtain ⟨w, hw⟩ := hqr.content
    exact ⟨w, by rw [hw, hv, Value.put_put]⟩
  completed c hc := (hqr.completed c hc).trans (hpq.completed c hc)
  revisit := by
    obtain ⟨a, ha, hapath⟩ := hpq.revisit
    obtain ⟨b, hb, hbpath⟩ := hqr.revisit
    refine ⟨b ++ a, by rw [hb, ha, List.append_assoc], fun r hr => ?_⟩
    exact (List.mem_append.mp hr).elim (hbpath r) (hapath r)
  unchanged h := by
    obtain ⟨hq, hqr⟩ := hqr.unchanged h
    obtain ⟨hp, hpq⟩ := hpq.unchanged hq
    exact ⟨hp, hqr.trans hpq⟩

theorem widen {token : String} (h : Moved (path.child token) p q) : Moved path p q where
  content := by
    obtain ⟨v, hv⟩ := h.content
    cases hn : p.document.content.node? path with
    | some w => exact ⟨w.put [token] v, by rw [hv, Path.child, Value.put_append hn]⟩
    | none =>
        refine ⟨.null, ?_⟩
        rw [hv, Value.put_of_node?_eq_none hn, Value.put_of_node?_eq_none]
        rw [Value.node?_concat, hn, Option.bind_none]
  completed c hc := h.completed c fun hchild => hc (Path.prefix_of_child_prefix hchild)
  revisit := by
    obtain ⟨extra, hextra, hpath⟩ := h.revisit
    exact ⟨extra, hextra, fun r hr => (List.prefix_append path [token]).trans (hpath r hr)⟩
  unchanged := h.unchanged

theorem noting (path : Path) (p : Progress μ) : Moved path p (p.noting path) :=
  of_document_eq rfl (fun _ _ => Iff.rfl)
    ⟨[path], rfl, fun _ h => List.mem_singleton.mp h ▸ List.prefix_refl path⟩ rfl

theorem finishing (path : Path) (p : Progress μ) : Moved path p (p.finishing path) := by
  refine of_document_eq rfl (fun c hc => ?_) ⟨[], rfl, fun _ h => absurd h List.not_mem_nil⟩ rfl
  simp only [Progress.finishing]
  split
  · exact Iff.rfl
  · refine List.mem_cons.trans ⟨fun h => ?_, .inr⟩
    exact h.resolve_left fun heq => hc (heq ▸ List.prefix_refl c)

theorem memory (path : Path) (p : Progress μ) (memory : μ) : Moved path p { p with memory } :=
  of_document_eq rfl (fun _ _ => Iff.rfl) ⟨[], rfl, fun _ h => absurd h List.not_mem_nil⟩ rfl

/-- A node that is neither at, below nor above the node is as it was. -/
theorem node?_beside (h : Moved path p q) {other : Path} (hpo : ¬ path <+: other)
    (hop : ¬ other <+: path) :
    q.document.content.node? other = p.document.content.node? other := by
  obtain ⟨v, hv⟩ := h.content
  rw [hv, Value.node?_put_beside _ hpo hop]

end Moved

/-! ### What writing a value does -/

/-- A value that is written takes the place of what is there, unless that is the same. -/
theorem Written.content_eq {v old : Value} (h : Written path v p q) (hsound : p.document.Sound)
    (hroot : path ≠ []) (hn : p.document.content.node? path = some old) (hv : v.WellFormed) :
    ∃ w, q.document.content = p.document.content.put path w ∧
      (w = v ∨ old.same v = true ∧ w = old) ∧ q.document.Sound := by
  cases h with
  | unneeded hget hsame =>
      obtain rfl := Option.some.inj (hn.symm.trans ((Store.get_plain_eq_ok_iff hsound).mp hget))
      exact ⟨old, (Value.put_self hn).symm, .inr ⟨hsame, rfl⟩, hsound⟩
  | done hupdate =>
      exact ⟨v, Store.content_update_plain hsound hroot hn hv hupdate, .inl rfl,
        hsound.update hv hupdate⟩

theorem Written.moved {v old : Value} (h : Written path v p q) (hsound : p.document.Sound)
    (hroot : path ≠ []) (hn : p.document.content.node? path = some old) (hv : v.WellFormed) :
    Moved path p q := by
  obtain ⟨w, hw, -, -⟩ := h.content_eq hsound hroot hn hv
  cases h with
  | unneeded => exact .refl path _
  | done hupdate =>
      refine ⟨⟨w, hw⟩, fun c hc => ?_, ⟨[], rfl, fun _ h => absurd h List.not_mem_nil⟩,
        fun hfalse => absurd hfalse (by simp)⟩
      have hbeside : (!Path.isWithin c path) = true := by
        rw [Bool.not_eq_true', Path.isWithin, Bool.eq_false_iff, Ne, List.isPrefixOf_iff_prefix]
        exact hc
      simp only [List.mem_filter, hbeside, and_true]

/-- A node that is there can be written. -/
theorem exists_write {v old : Value} (hsound : p.document.Sound) (hroot : path ≠ [])
    (hn : p.document.content.node? path = some old) (hv : v.WellFormed) :
    ∃ q, write path v p = some (.ok (), q) := by
  obtain ⟨written, hu, -⟩ := Store.exists_update_plain hsound hroot hn hv
  simp only [write, (Store.get_plain_eq_ok_iff hsound).mpr hn, hu]
  split
  · exact ⟨_, rfl⟩
  · exact ⟨_, rfl⟩

/-- What handing a directive over does to a state: the value that is written has no key twice. -/
inductive Effect (path : Path) (p : Progress μ) : Bool → Progress μ → Prop
  | retry : Effect path p true (p.noting path)
  | expanded {v : Value} {q : Progress μ} (hv : v.WellFormed) (hcontainer : v.isContainer = true)
      (hwrite : Written path v p q) : Effect path p true (q.noting path)
  | replaced {v : Value} {q : Progress μ} (hv : v.WellFormed) (hscalar : v.isContainer = false)
      (hwrite : Written path v p q) : Effect path p false q
  | completed {v : Value} {q : Progress μ} (hv : v.WellFormed) (hwrite : Written path v p q) :
      Effect path p false (q.finishing path)

namespace Effect

variable {b : Bool} {old : Value}

theorem moved (h : Effect path p b q) (hsound : p.document.Sound) (hroot : path ≠ [])
    (hn : p.document.content.node? path = some old) : Moved path p q := by
  cases h with
  | retry => exact .noting path p
  | expanded hv hcontainer hwrite =>
      exact (hwrite.moved hsound hroot hn hv).trans (.noting path _)
  | replaced hv hscalar hwrite => exact hwrite.moved hsound hroot hn hv
  | completed hv hwrite => exact (hwrite.moved hsound hroot hn hv).trans (.finishing path _)

theorem sound (h : Effect path p b q) (hsound : p.document.Sound) (hroot : path ≠ [])
    (hn : p.document.content.node? path = some old) : q.document.Sound := by
  cases h with
  | retry => exact hsound
  | expanded hv hcontainer hwrite | replaced hv hcontainer hwrite | completed hv hwrite =>
      obtain ⟨-, -, -, hq⟩ := hwrite.content_eq hsound hroot hn hv
      exact hq

end Effect

/-- What is handed over is there. -/
theorem Invoked.exists_node {b : Bool} (h : Invoked workshop path p b q)
    (hsound : p.document.Sound) : ∃ old, p.document.content.node? path = some old := by
  cases h with
  | untaken hget _ => exact ⟨_, (Store.get_plain_eq_ok_iff hsound).mp hget⟩
  | handled hget _ _ _ => exact ⟨_, (Store.get_plain_eq_ok_iff hsound).mp hget⟩

/-- Either no handler takes what is at a node, or it is a directive that a handler answers. -/
theorem Invoked.untaken_or_handled (h : Invoked workshop path p b q)
    (hsound : p.document.Sound) :
    (b = false ∧ q = p ∧ ∀ directive, p.document.get (.plain path) = .ok (.map directive) →
      Handler.find? workshop.handlers directive = none) ∨
    ∃ directive handler outcome memory,
      p.document.content.node? path = some (.map directive) ∧
      Handler.find? workshop.handlers directive = some handler ∧
      handler.compose directive (contextAt workshop path p) p.memory = (.ok outcome, memory) ∧
      Settled workshop path { p with memory } outcome b q := by
  cases h with
  | untaken hget hnone =>
      refine .inl ⟨rfl, rfl, fun directive hdirective => hnone directive ?_⟩
      exact Except.ok.inj (hget.symm.trans hdirective)
  | handled hget hfind hcompose hsettle =>
      exact .inr ⟨_, _, _, _, (Store.get_plain_eq_ok_iff hsound).mp hget, hfind, hcompose, hsettle⟩

/-- A directive that is answered with a value to be put in its place, or not yet, is handed over
without a fault. -/
theorem exists_invoke_of_answer {directive : Fields} {handler : Handler μ} {outcome : Outcome}
    {memory : μ} (hsound : p.document.Sound) (hroot : path ≠ [])
    (hn : p.document.content.node? path = some (.map directive))
    (hfind : Handler.find? workshop.handlers directive = some handler)
    (hcompose : handler.compose directive (contextAt workshop path p) p.memory =
      (.ok outcome, memory))
    (houtcome : outcome = .retry ∨ ∃ v : Value, v.WellFormed ∧ outcome = .success v) :
    ∃ b q, invoke workshop path p = some (.ok b, q) := by
  have hget := (Store.get_plain_eq_ok_iff hsound).mpr hn
  rw [invoke_of_answer hget hfind hcompose]
  obtain rfl | ⟨v, hv, rfl⟩ := houtcome
  · exact ⟨_, _, rfl⟩
  · obtain ⟨q, hwrite⟩ : ∃ q, write path v { p with memory } = some (.ok (), q) :=
      exists_write hsound hroot hn hv
    by_cases hcontainer : v.isContainer = true
    · refine ⟨true, q.noting path, bind_eq_ok.mpr ⟨(), q, hwrite, ?_⟩⟩
      rw [if_pos hcontainer]
      rfl
    · refine ⟨false, q, bind_eq_ok.mpr ⟨(), q, hwrite, ?_⟩⟩
      rw [if_neg hcontainer]
      rfl

/-! ### A node of a worklist -/

/-- A pass begins with the first node of its worklist, if it is there. -/
theorem pass_cons (rest : List Path) :
    pass handover (path :: rest) p =
      if p.document.has (.plain path) = true then
        (do
          let v ← liftM (p.document.get (.plain path))
          let _ ← scan handover path v
          pass handover rest : Composing μ Unit) p
      else pass handover rest p := by
  rw [pass]
  exact ite_apply _ _

theorem pass_cons_of_not_has (rest : List Path)
    (hgone : p.document.has (.plain path) = false) :
    pass handover (path :: rest) p = pass handover rest p := by
  rw [pass_cons, if_neg (Bool.eq_false_iff.mp hgone)]

theorem pass_cons_of_get {v : Value} (rest : List Path)
    (hhas : p.document.has (.plain path) = true) (hget : p.document.get (.plain path) = .ok v) :
    pass handover (path :: rest) p = (do
      let _ ← scan handover path v
      pass handover rest : Composing μ Unit) p := by
  rw [pass_cons, if_pos hhas, hget]
  rfl

/-- A node that is gone is passed over. -/
theorem pass_cons_of_gone (hsound : p.document.Sound) (rest : List Path)
    (hn : p.document.content.node? path = none) :
    pass handover (path :: rest) p = pass handover rest p := by
  refine pass_cons_of_not_has rest ?_
  rw [Store.has_plain hsound, hn]
  rfl

/-- A node that is there is looked through. -/
theorem pass_cons_of_node (hsound : p.document.Sound) (rest : List Path) {v : Value}
    (hn : p.document.content.node? path = some v) :
    pass handover (path :: rest) p = (do
      let _ ← scan handover path v
      pass handover rest : Composing μ Unit) p := by
  refine pass_cons_of_get rest ?_ ((Store.get_plain_eq_ok_iff hsound).mpr hn)
  rw [Store.has_plain hsound, hn]
  rfl

/-! ### Invariants -/

/-- An invariant that handing over keeps, whichever handler it is. -/
structure Kept (workshop : Workshop μ) (Inv : Progress μ → Prop) : Prop where
  sound : ∀ {p}, Inv p → p.document.Sound
  noting : ∀ {p path}, Inv p → Inv (p.noting path)
  fresh : ∀ {p}, Inv p → Inv p.fresh
  invoked : ∀ {path p b q}, path ≠ [] → Inv p → Invoked workshop path p b q → Inv q
  effect : ∀ {path p b q}, path ≠ [] → Inv p → Invoked workshop path p b q →
    (b = false ∧ q = p ∧ ∀ directive, p.document.get (.plain path) = .ok (.map directive) →
      Handler.find? workshop.handlers directive = none) ∨
    ∃ memory, Effect path { p with memory } b q

namespace Kept

variable {Inv : Progress μ → Prop} {worklist : List Path} {b : Bool}

theorem moved_of_invoked (hK : Kept workshop Inv) (hroot : path ≠ []) (hp : Inv p)
    (h : Invoked workshop path p b q) : Moved path p q := by
  obtain ⟨old, hn⟩ := h.exists_node (hK.sound hp)
  obtain ⟨-, rfl, -⟩ | ⟨memory, heffect⟩ := hK.effect hroot hp h
  · exact .refl path q
  · have hsound := hK.sound hp
    exact (Moved.memory path p memory).trans (heffect.moved hsound hroot hn)

/-- Invariants are kept and what happens stays at its node. -/
theorem frame (hK : Kept workshop Inv) :
    Frame workshop fun path p q => Inv p → Inv q ∧ Moved path p q where
  refl path p hp := ⟨hp, .refl path p⟩
  trans hpq hqr hp :=
    have ⟨hq, hmoved⟩ := hpq hp
    ⟨(hqr hq).1, hmoved.trans (hqr hq).2⟩
  widen h hp := ⟨(h hp).1, (h hp).2.widen⟩
  noting path p hp := ⟨hK.noting hp, .noting path p⟩
  invoked hroot h hp := ⟨hK.invoked hroot hp h, hK.moved_of_invoked hroot hp h⟩

theorem scan (hK : Kept workshop Inv) {v : Value}
    (h : Composing.scan workshop path v p = some (.ok b, q)) (hp : Inv p) :
    Inv q ∧ Moved path p q :=
  hK.frame.scan v path p b q h hp

theorem scanFields (hK : Kept workshop Inv) {es : List (String × Value)}
    (h : Composing.scanFields workshop path es p = some (.ok b, q)) (hp : Inv p) :
    Inv q ∧ Moved path p q :=
  hK.frame.scanFields h hp

theorem passed (hK : Kept workshop Inv) (h : Passed workshop worklist p q) (hp : Inv p) : Inv q :=
  (hK.frame.passed h hp).1

theorem ended (hK : Kept workshop Inv) (h : Ended workshop worklist p q) (hp : Inv p) : Inv q := by
  induction h with
  | last hpass hnone => exact hK.passed hpass (hK.fresh hp)
  | next hpass hrest ih => exact ih (hK.passed hpass (hK.fresh hp))

end Kept

end Composing

end Docweave
