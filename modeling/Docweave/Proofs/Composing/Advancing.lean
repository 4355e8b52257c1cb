import Docweave.Proofs.Composing.Completeness
import Docweave.Proofs.Composing.Termination

/-!
Composing that ends without a fault.

`Advancing` is what a kind of documents and handlers have to bring along for that: no directive is
answered with a fault, each is either written, which leaves less to be done, or has to wait, and
they never wait all.  Then every pass comes to its end.  A pass that writes nothing leaves nothing
for later: what it noted would be directives that wait, all directives of the document among them,
but one of these does not.  So every round leaves less to be done, until composing ends
(`Advancing.exists_ran`).
-/

namespace Docweave

namespace Composing

variable {μ : Type} {workshop : Workshop μ} {Inv : Progress μ → Prop} {Waits : Store → Path → Prop}
  {left : Value → Nat} {p q : Progress μ} {path : Path} {b : Bool} {worklist : List Path}

/-- Nothing is written, or less is left to be done. -/
def Nearer (left : Value → Nat) (p q : Progress μ) : Prop :=
  q.document = p.document ∧ q.changed = p.changed ∨
    q.changed = true ∧ left q.document.content < left p.document.content

theorem Nearer.trans {r : Progress μ} (hpq : Nearer left p q) (hqr : Nearer left q r) :
    Nearer left p r := by
  rcases hpq with ⟨hdocument, hchanged⟩ | ⟨hchanged, hlt⟩
  · rcases hqr with ⟨hdocument', hchanged'⟩ | ⟨hchanged', hlt'⟩
    · exact .inl ⟨hdocument'.trans hdocument, hchanged'.trans hchanged⟩
    · exact .inr ⟨hchanged', hdocument ▸ hlt'⟩
  · rcases hqr with ⟨hdocument', hchanged'⟩ | ⟨hchanged', hlt'⟩
    · exact .inr ⟨hchanged'.trans hchanged, hdocument' ▸ hlt⟩
    · exact .inr ⟨hchanged', hlt'.trans hlt⟩

/-- An invariant under which every directive is written or waits, and never all of them wait;
`left` is what is left to be done. -/
structure Advancing (workshop : Workshop μ) (Inv : Progress μ → Prop)
    (Waits : Store → Path → Prop) (left : Value → Nat) : Prop where
  kept : Kept workshop Inv
  taking : Handler.Taking workshop.handlers
  completed : ∀ {p}, Inv p → p.completed = []
  root : ∀ {p}, Inv p → isDirective (Handler.markers workshop.handlers) p.document.content = false
  /-- Inside a directive there is nothing to be looked through. -/
  inside : ∀ {p path d}, Inv p → p.document.content.node? path = some d →
    isDirective (Handler.markers workshop.handlers) d = true → ∀ e ∈ d.entries,
    e.2.isContainer = false
  answers : ∀ {path p d}, path ≠ [] → Inv p → p.document.content.node? path = some d →
    isDirective (Handler.markers workshop.handlers) d = true →
    ∃ b q, invoke workshop path p = some (.ok b, q)
  advances : ∀ {path p b q}, path ≠ [] → Inv p → Invoked workshop path p b q →
    (q.document = p.document ∧ q.changed = p.changed ∧
        ∀ r ∈ q.revisit, r ∈ p.revisit ∨ Waits p.document r) ∨
      q.changed = true ∧ left q.document.content < left p.document.content
  waits : ∀ {p path}, Inv p → Waits p.document path →
    ∃ d, p.document.content.node? path = some d ∧
      isDirective (Handler.markers workshop.handlers) d = true
  going : ∀ {p path d}, Inv p → p.document.content.node? path = some d →
    isDirective (Handler.markers workshop.handlers) d = true →
    ∃ l d', p.document.content.node? l = some d' ∧
      isDirective (Handler.markers workshop.handlers) d' = true ∧ ¬ Waits p.document l

namespace Advancing

variable (hA : Advancing workshop Inv Waits left)

include hA

theorem frame : Frame workshop fun _ p q => Inv p → Inv q ∧ Nearer left p q where
  refl _ _ hp := ⟨hp, .inl ⟨rfl, rfl⟩⟩
  trans hpq hqr hp :=
    have ⟨hq, hnearer⟩ := hpq hp
    ⟨(hqr hq).1, hnearer.trans (hqr hq).2⟩
  widen h := h
  noting _ _ hp := ⟨hA.kept.noting hp, .inl ⟨rfl, rfl⟩⟩
  invoked hroot h hp :=
    ⟨hA.kept.invoked hroot hp h,
      (hA.advances hroot hp h).imp_left fun hsame => ⟨hsame.1, hsame.2.1⟩⟩

/-- A container is not below a directive. -/
theorem eq_of_prefix (hp : Inv p) {r : Path} {d v : Value} (hfront : r <+: path)
    (hr : p.document.content.node? r = some d)
    (hd : isDirective (Handler.markers workshop.handlers) d = true)
    (hn : p.document.content.node? path = some v) (hcontainer : v.isContainer = true) :
    r = path := by
  obtain ⟨below, rfl⟩ := hfront
  cases below with
  | nil => exact (List.append_nil r).symm
  | cons token below =>
      rw [Value.node?_append, hr, Option.bind_some, Value.node?_cons] at hn
      obtain ⟨c, hc, hn⟩ := Option.bind_eq_some_iff.mp hn
      have hscalar : c.isContainer = false :=
        hA.inside hp hr hd _ (Value.mem_entries_of_child? hc)
      cases below with
      | nil =>
          rw [Value.node?_nil, Option.some.injEq] at hn
          rw [← hn, hscalar] at hcontainer
          exact absurd hcontainer (by simp)
      | cons next below =>
          rw [Value.node?_cons] at hn
          obtain ⟨x, hx, -⟩ := Option.bind_eq_some_iff.mp hn
          have hentry := Value.mem_entries_of_child? hx
          rw [Value.entries_of_isContainer_eq_false hscalar] at hentry
          exact absurd hentry List.not_mem_nil

/-! ### Every pass comes to its end -/

theorem exists_scanFields {es : List (String × Value)}
    (hscan : ∀ e ∈ es, ∀ path p, Inv p → p.document.content.node? path = some e.2 →
      ∃ b q, scan workshop path e.2 p = some (.ok b, q))
    (hdistinct : Entries.Distinct es) (hp : Inv p)
    (hes : ∀ e ∈ es, p.document.content.node? (path.child e.1) = some e.2) :
    ∃ b q, scanFields workshop path es p = some (.ok b, q) := by
  induction es generalizing p with
  | nil => exact ⟨false, p, scanFields_nil_eq_ok.mpr ⟨rfl, rfl⟩⟩
  | cons e es ih =>
      obtain ⟨he, -⟩ := List.forall_mem_cons.mp hes
      obtain ⟨hscane, hscanes⟩ := List.forall_mem_cons.mp hscan
      obtain ⟨here, q, hhere⟩ := hscane _ p hp he
      obtain ⟨hq, hmoved⟩ := hA.kept.scan hhere hp
      obtain ⟨there, r, hthere⟩ := ih hscanes hdistinct.of_cons hq (hmoved.others hdistinct hes)
      exact ⟨_, r, scanFields_cons_eq_ok.mpr ⟨here, there, q, hhere, hthere, rfl⟩⟩

/-- **Looking through a node meets no fault.** -/
theorem exists_scan (v : Value) : ∀ path p, Inv p → p.document.content.node? path = some v →
    ∃ b q, scan workshop path v p = some (.ok b, q) := by
  induction v using Value.entries_induction with
  | node v ih =>
      intro path p hp hn
      have hwell : v.WellFormed := (hA.kept.sound hp).wellFormed.of_node? hn
      obtain ⟨inside, q, hscan⟩ := hA.exists_scanFields ih hwell.distinct_entries hp
        fun e he => Value.node?_child_of_mem_entries hn hwell he
      have hdone : path ∉ p.completed := by rw [hA.completed hp]; exact List.not_mem_nil
      rw [scan_eq, if_neg hdone]
      by_cases hdirective : isDirective (Handler.markers workshop.handlers) v = true
      · have hroot : path ≠ [] := by
          rintro rfl
          have hplain := hA.root hp
          rw [Option.some.inj ((Value.node?_nil _).symm.trans hn), hdirective] at hplain
          exact absurd hplain (by simp)
        rw [if_pos hdirective, if_neg hroot]
        cases inside with
        | true => exact ⟨true, q.noting path, bind_eq_ok.mpr ⟨true, q, hscan, rfl⟩⟩
        | false =>
            obtain ⟨hq, -⟩ := hA.kept.scanFields hscan hp
            obtain ⟨w, hw, hhead⟩ := scanFields_head hA.kept hscan hp hn
            obtain ⟨b, r, hinvoke⟩ :=
              hA.answers hroot hq hw ((isDirective_of_head_eq hhead).trans hdirective)
            exact ⟨b, r, bind_eq_ok.mpr ⟨false, q, hscan, hinvoke⟩⟩
      · rw [if_neg hdirective]
        exact ⟨inside, q, hscan⟩

theorem exists_pass (worklist : List Path) (hp : Inv p) :
    ∃ q, pass workshop worklist p = some (.ok (), q) := by
  induction worklist generalizing p with
  | nil => exact ⟨p, rfl⟩
  | cons path rest ih =>
      cases hn : p.document.content.node? path with
      | none =>
          rw [pass_cons_of_gone (hA.kept.sound hp) rest hn]
          exact ih hp
      | some v =>
          rw [pass_cons_of_node (hA.kept.sound hp) rest hn]
          obtain ⟨b, q, hscan⟩ := hA.exists_scan v path p hp hn
          obtain ⟨r, hrest⟩ := ih (hA.kept.scan hscan hp).1
          exact ⟨r, bind_eq_ok.mpr ⟨b, q, hscan, hrest⟩⟩

/-! ### A pass that writes nothing -/

/-- While nothing is written only directives are noted that wait. -/
theorem notes_waits : Notes workshop Inv Waits where
  waiting := fun {path v p q} hp hn hdirective hscan => by
    -- The entries of a directive are scalars, and looking through scalars finds nothing.
    have hscalars := hA.inside hp hn hdirective
    have hnothing : ∀ {es : List (String × Value)} {b p q}, (∀ e ∈ es, e.2.isContainer = false) →
        scanFields workshop.handover path es p = some (.ok b, q) → b = false := by
      intro es
      induction es with
      | nil => exact fun _ h => (scanFields_nil_eq_ok.mp h).1
      | cons e es ih =>
          intro b p q hes h
          obtain ⟨he, hes⟩ := List.forall_mem_cons.mp hes
          obtain ⟨here, there, r, hhere, hthere, rfl⟩ := scanFields_cons_eq_ok.mp h
          rw [ih hes hthere, Bool.or_false]
          rw [scan_eq] at hhere
          split at hhere
          · exact (Except.ok.inj (Prod.mk.inj (Option.some.inj hhere)).1).symm
          · rw [isDirective_eq_false_of_isContainer he, if_neg Bool.false_ne_true,
              Value.entries_of_isContainer_eq_false he] at hhere
            exact (scanFields_nil_eq_ok.mp hhere).1
    exact absurd (hnothing hscalars hscan) (by simp)
  invoked := fun {path p b q} hroot hp h hchanged r hr => by
    obtain ⟨-, -, hrevisit⟩ | ⟨hwritten, -⟩ := hA.advances hroot hp h
    · exact hrevisit r hr
    · rw [hwritten] at hchanged
      exact absurd hchanged (by simp)

theorem waits_of_noted (hp : Inv p) (hpass : Passed workshop worklist p.fresh q)
    (hchanged : q.changed = false) :
    q.document = p.document ∧ ∀ r ∈ q.revisit, Waits p.document r := by
  obtain ⟨hdocument, extra, hextra, -, hwaits⟩ :=
    hpass.noted hA.kept hA.notes_waits (hA.kept.fresh hp) hchanged
  refine ⟨hdocument, fun r hr => ?_⟩
  rw [hextra] at hr
  rcases List.mem_append.mp hr with hr | hr
  · exact (hwaits r hr).resolve_left List.not_mem_nil
  · exact absurd hr List.not_mem_nil

/-- What a pass notes is at or above every directive that is left. -/
theorem covers_of_passed (hp : Inv p) (hpass : Passed workshop worklist p.fresh q)
    (hcovered : CoveredFrom workshop [] (· ∈ worklist) p) :
    CoveredFrom workshop [] (· ∈ q.revisit) q :=
  hpass.covers hA.kept hA.taking (hA.kept.fresh hp) (fun _ _ => List.nil_prefix) hcovered.fresh

/-- A pass that writes nothing leaves every directive waiting. -/
theorem waits_of_directive (hp : Inv p) (hpass : Passed workshop worklist p.fresh q)
    (hcovered : CoveredFrom workshop [] (· ∈ worklist) p) (hchanged : q.changed = false)
    {d : Value} (hn : p.document.content.node? path = some d)
    (hd : isDirective (Handler.markers workshop.handlers) d = true) : Waits p.document path := by
  obtain ⟨hdocument, hwaits⟩ := hA.waits_of_noted hp hpass hchanged
  obtain ⟨r, hr, -, hfront⟩ : ∃ r, (r ∈ q.completed ∨ r ∈ q.revisit) ∧ [] <+: r ∧
      r <+: [] ++ path := by
    refine (hA.covers_of_passed hp hpass hcovered _ (Value.node?_nil _)).exists_above ?_ hd
    rw [hdocument]
    exact hn
  rw [hA.completed (hA.kept.passed hpass (hA.kept.fresh hp))] at hr
  have hwait := hwaits r (hr.resolve_left List.not_mem_nil)
  -- What was noted is a directive itself, so it is not above one.
  obtain ⟨d', hr, hd'⟩ := hA.waits hp hwait
  obtain rfl := hA.eq_of_prefix hp hfront hr hd' hn (isContainer_of_isDirective hd)
  exact hwait

/-- **A pass that writes nothing leaves nothing for later.** -/
theorem leftOver_eq_nil_of_unchanged (hp : Inv p) (hpass : Passed workshop worklist p.fresh q)
    (hcovered : CoveredFrom workshop [] (· ∈ worklist) p) (hchanged : q.changed = false) :
    leftOver q = [] := by
  rw [leftOver, Worklist.normalize_eq_nil_iff, List.reverse_eq_nil_iff]
  by_contra hne
  -- Something was noted, so there is a directive, and so there is one that does not wait.
  obtain ⟨r, hr⟩ := List.exists_mem_of_ne_nil _ hne
  obtain ⟨d, hn, hd⟩ := hA.waits hp ((hA.waits_of_noted hp hpass hchanged).2 r hr)
  obtain ⟨l, d', hl, hd', hgoing⟩ := hA.going hp hn hd
  exact hgoing (hA.waits_of_directive hp hpass hcovered hchanged hl hd')

/-! ### Rounds -/

/-- A pass comes to its end, and nothing is written in it, or less is left to be done. -/
theorem exists_nearer_pass (worklist : List Path) (hp : Inv p) :
    ∃ q, pass workshop worklist p.fresh = some (.ok (), q) ∧ Inv q ∧ Nearer left p.fresh q := by
  have hfresh := hA.kept.fresh hp
  obtain ⟨q, hrun⟩ := hA.exists_pass worklist hfresh
  exact ⟨q, hrun, hA.frame.passed (.of_pass hrun) hfresh⟩

/-- **A round ends composing without a fault, or leaves less to be done for the next one.** -/
theorem exists_round (hp : Inv p) (hcovered : CoveredFrom workshop [] (· ∈ worklist) p) :
    ∃ q, Inv q ∧ (round workshop worklist p = some (.ended (.ok ()) q) ∨
      round workshop worklist p = some (.next (leftOver q) q) ∧
        CoveredFrom workshop [] (· ∈ leftOver q) q ∧
        left q.document.content < left p.document.content) := by
  obtain ⟨q, hrun, hq, hnearer⟩ := hA.exists_nearer_pass worklist hp
  have hpass := Passed.of_pass hrun
  have hround := round_of_pass hrun
  refine ⟨q, hq, ?_⟩
  by_cases hnone : leftOver q = []
  · exact .inl (hround.trans (congrArg some (verdict_of_nothing hnone)))
  · have hchanged : q.changed = true := by
      by_contra hunchanged
      exact hnone (hA.leftOver_eq_nil_of_unchanged hp hpass hcovered
        (Bool.eq_false_iff.mpr hunchanged))
    have hcovers := hA.covers_of_passed hp hpass hcovered
    refine .inr ⟨hround.trans (congrArg some (verdict_of_changed hnone hchanged)),
      hcovers.next fun _ _ => List.nil_prefix, ?_⟩
    rcases hnearer with ⟨-, hsame⟩ | ⟨-, hlt⟩
    · rw [hchanged] at hsame
      exact absurd hsame (by simp [Progress.fresh])
    · exact hlt

/-- **Composing ends without a fault.** -/
theorem exists_ran (hp : Inv p) (hcovered : CoveredFrom workshop [] (· ∈ worklist) p) :
    ∃ q, Ran workshop worklist p (.ok (), q) := by
  induction hmeasure : left p.document.content using Nat.strong_induction_on
    generalizing worklist p with
  | _ measure ih =>
      obtain ⟨q, hq, hend | ⟨hnext, hcovers, hlt⟩⟩ := hA.exists_round hp hcovered
      · exact ⟨q, .ended hend⟩
      · obtain ⟨r, hrest⟩ := ih _ (hmeasure ▸ hlt) hq hcovers rfl
        exact ⟨r, .next hnext hrest⟩

end Advancing

end Composing

end Docweave
