import Docweave.Proofs.Composing.Coverage

/-!
Directives are composed from the inside out.

Looking through a node tells whether something in it is to be looked through again, and if nothing
is, then what holds its value for good covers the node.  So as long as no node does, none is left
below a directive that is handed over: `BottomUp` is what a relation between states needs for that
to be of use, and `BottomUp.ended` is what comes of it for a whole run.
-/

namespace Docweave

/-- No directive is left below a node. -/
def ClearBelow (markers : List String) (D : Value) (path : Path) : Prop :=
  ∀ r w, r ≠ [] → D.node? (path ++ r) = some w → isDirective markers w = false

variable {markers : List String} {D v : Value} {path : Path}

/-- Below a node whose children are covered by nothing at all no directive is left. -/
theorem ClearBelow.of_covered (hn : D.node? path = some v)
    (h : ∀ token c, v.child? token = some c →
      Composing.Covered markers (fun _ => False) (fun _ => False) (path.child token) c) :
    ClearBelow markers D path := by
  intro r w hr hw
  cases r with
  | nil => exact absurd rfl hr
  | cons token r =>
      rw [Value.node?_append, hn, Option.bind_some, Value.node?_cons] at hw
      obtain ⟨c, hc, hw⟩ := Option.bind_eq_some_iff.mp hw
      by_contra hdirective
      obtain ⟨_, hnothing, -⟩ := (h token c hc).of_directive hw (Bool.of_not_eq_false hdirective)
      exact hnothing

namespace Composing

variable {μ : Type} {workshop : Workshop μ} {Inv : Progress μ → Prop}
  {R : Progress μ → Progress μ → Prop} {p q : Progress μ} {b : Bool} {worklist : List Path}

/-- A relation between states that stands whenever a directive is handed over below which none is
left. -/
structure BottomUp (workshop : Workshop μ) (Inv : Progress μ → Prop)
    (R : Progress μ → Progress μ → Prop) : Prop where
  kept : Kept workshop Inv
  taking : Handler.Taking workshop.handlers
  completed : ∀ {p}, Inv p → p.completed = []
  refl : ∀ p, R p p
  trans : ∀ {p q r}, R p q → R q r → R p r
  noting : ∀ p path, R p (p.noting path)
  fresh : ∀ p, R p p.fresh
  invoked : ∀ {path p b q}, path ≠ [] → Inv p →
    ClearBelow (Handler.markers workshop.handlers) p.document.content path →
    Invoked workshop path p b q → R p q

namespace BottomUp

variable (hB : BottomUp workshop Inv R)

include hB

/-- Where nothing in a directive is to be looked through again, none is left below it. -/
theorem clearBelow (h : scanFields workshop path v.entries p = some (.ok false, q)) (hp : Inv p)
    (hn : p.document.content.node? path = some v) :
    ClearBelow (Handler.markers workshop.handlers) q.document.content path := by
  obtain ⟨w, hw, -, hchildren⟩ := scanFields_covers hB.kept hB.taking h hp hn
  have hcompleted : q.completed = [] := hB.completed (hB.kept.scanFields h hp).1
  refine .of_covered hw fun token c hc => (hchildren token c hc).mono (fun d _ hd => ?_) ?_
  · rw [hcompleted] at hd
    exact absurd hd List.not_mem_nil
  · exact fun _ _ hagain => absurd hagain.1 (by simp)

theorem scanFields_of_scan {es : List (String × Value)}
    (hscan : ∀ e ∈ es, ∀ path p b q, scan workshop path e.2 p = some (.ok b, q) → Inv p →
      p.document.content.node? path = some e.2 → R p q)
    (hdistinct : Entries.Distinct es) (h : scanFields workshop path es p = some (.ok b, q))
    (hp : Inv p) (hes : ∀ e ∈ es, p.document.content.node? (path.child e.1) = some e.2) :
    R p q := by
  induction es generalizing p b with
  | nil =>
      obtain ⟨-, rfl⟩ := scanFields_nil_eq_ok.mp h
      exact hB.refl q
  | cons e es ih =>
      obtain ⟨here, there, r, hhere, hthere, -⟩ := scanFields_cons_eq_ok.mp h
      obtain ⟨he, -⟩ := List.forall_mem_cons.mp hes
      obtain ⟨hr, hmoved⟩ := hB.kept.scan hhere hp
      exact hB.trans (hscan e List.mem_cons_self _ _ _ _ hhere hp he)
        (ih (fun e he => hscan e (List.mem_cons_of_mem _ he)) hdistinct.of_cons hthere hr
          (hmoved.others hdistinct hes))

/-- **Looking through a node composes what is inside of directives before the directives.** -/
theorem scan (v : Value) : ∀ path p b q, Composing.scan workshop path v p = some (.ok b, q) →
    Inv p → p.document.content.node? path = some v → R p q := by
  induction v using Value.entries_induction with
  | node v ih =>
      intro path p b q h hp hn
      have hwell : v.WellFormed := (hB.kept.sound hp).wellFormed.of_node? hn
      have hes := fun e he => Value.node?_child_of_mem_entries hn hwell (e := e) he
      have hentries : ∀ {b q}, scanFields workshop path v.entries p = some (.ok b, q) → R p q :=
        fun hscan => hB.scanFields_of_scan ih hwell.distinct_entries hscan hp hes
      cases Scanned.of_scan h with
      | completed hdone =>
          rw [hB.completed hp] at hdone
          exact absurd hdone List.not_mem_nil
      | plain hplain hscan => exact hentries hscan
      | waiting hdirective hroot hscan => exact hB.trans (hentries hscan) (hB.noting _ path)
      | invoked hdirective hroot hscan hinvoke =>
          have hq := (hB.kept.scanFields hscan hp).1
          exact hB.trans (hentries hscan)
            (hB.invoked hroot hq (hB.clearBelow hscan hp hn) hinvoke)

theorem passed (h : Passed workshop worklist p q) (hp : Inv p) : R p q := by
  induction h with
  | nil => exact hB.refl _
  | gone _ _ ih => exact ih hp
  | scanned hget hscan _ ih =>
      have hn := (Store.get_plain_eq_ok_iff (hB.kept.sound hp)).mp hget
      exact hB.trans (hB.scan _ _ _ _ _ hscan hp hn) (ih (hB.kept.scan hscan hp).1)

/-- **A run of passes composes every directive when none is left below it.** -/
theorem ended (h : Ended workshop worklist p q) (hp : Inv p) : R p q := by
  have hpass : ∀ {worklist p q}, Passed workshop worklist p.fresh q → Inv p → R p q :=
    fun h hp => hB.trans (hB.fresh _) (hB.passed h (hB.kept.fresh hp))
  induction h with
  | last hlast _ => exact hpass hlast hp
  | next hnext _ ih =>
      exact hB.trans (hpass hnext hp) (ih (hB.kept.passed hnext (hB.kept.fresh hp)))

end BottomUp

end Composing

end Docweave
