import Docweave.Proofs.Composing.Completeness

/-!
Runs that end with their first pass.

Where every directive that is handed over either fails or is done with for good, nothing is ever
noted for later, so a pass over the whole document is the only one (`exists_passed_or_fault`).  It
ends if handing over always does, and a fault it ends in is one of a directive that was handed over.
-/

namespace Docweave

namespace Composing

variable {μ : Type} {workshop : Workshop μ} {Inv : Progress μ → Prop} {Bad : Fault → Prop}
  {p q : Progress μ} {path : Path}

/-- An action ends, with a fault of some kind or with nothing to be looked at again. -/
inductive Quiet (Bad : Fault → Prop) (p : Progress μ) :
    Option (Except Fault Bool × Progress μ) → Prop
  | done {q : Progress μ} (hrevisit : q.revisit = p.revisit) : Quiet Bad p (some (.ok false, q))
  | failed {fault : Fault} {q : Progress μ} (hbad : Bad fault) :
      Quiet Bad p (some (.error fault, q))

theorem Quiet.scanFields (hK : Kept workshop Inv) {es : List (String × Value)}
    (hscan : ∀ e ∈ es, ∀ path p, Inv p → p.document.content.node? path = some e.2 →
      (path = [] → isDirective (Handler.markers workshop.handlers) e.2 = false) →
      Quiet Bad p (Composing.scan workshop path e.2 p))
    (hdistinct : Entries.Distinct es) (hp : Inv p)
    (hes : ∀ e ∈ es, p.document.content.node? (path.child e.1) = some e.2) :
    Quiet Bad p (Composing.scanFields workshop path es p) := by
  induction es generalizing p with
  | nil => exact .done rfl
  | cons e es ih =>
      obtain ⟨he, hes'⟩ := List.forall_mem_cons.mp hscan
      obtain ⟨hn, -⟩ := List.forall_mem_cons.mp hes
      have hhere := he (path.child e.1) p hp hn fun hroot => absurd hroot (by simp [Path.child])
      obtain ⟨token, v⟩ := e
      rw [Composing.scanFields]
      show Quiet Bad p ((Composing.scan workshop (path.child token) v p).bind _)
      generalize hr : Composing.scan workshop (path.child token) v p = r at hhere
      cases hhere with
      | failed hbad => exact .failed hbad
      | @done q hrevisit =>
          obtain ⟨hq, hmoved⟩ := hK.scan hr hp
          have hthere := ih hes' hdistinct.of_cons hq (hmoved.others hdistinct hes)
          show Quiet Bad p ((Composing.scanFields workshop path es q).bind _)
          generalize Composing.scanFields workshop path es q = r' at hthere
          cases hthere with
          | failed hbad => exact .failed hbad
          | done hrest => exact .done (hrest.trans hrevisit)

/-- **Looking through nodes ends quietly if every directive is handed over quietly.** -/
theorem Quiet.scan (hK : Kept workshop Inv)
    (hinvoke : ∀ {path p v}, path ≠ [] → Inv p → p.document.content.node? path = some v →
      isDirective (Handler.markers workshop.handlers) v = true →
      Quiet Bad p (invoke workshop path p)) (v : Value) : ∀ path p, Inv p →
    p.document.content.node? path = some v →
    (path = [] → isDirective (Handler.markers workshop.handlers) v = false) →
    Quiet Bad p (Composing.scan workshop path v p) := by
  induction v using Value.entries_induction with
  | node v ih =>
      intro path p hp hn hroot
      have hwell : v.WellFormed := (hK.sound hp).wellFormed.of_node? hn
      have hfields : Quiet Bad p (Composing.scanFields workshop path v.entries p) :=
        .scanFields hK ih hwell.distinct_entries hp fun e he =>
          Value.node?_child_of_mem_entries hn hwell he
      by_cases hdone : path ∈ p.completed
      · rw [scan_of_completed v hdone]
        exact .done rfl
      cases hdirective : isDirective (Handler.markers workshop.handlers) v with
      | false =>
          rw [scan_of_plain hdone hdirective]
          exact hfields
      | true =>
          have hne : path ≠ [] := fun heq => absurd (hdirective.symm.trans (hroot heq)) (by simp)
          rw [scan_eq, if_neg hdone, if_pos hdirective, if_neg hne]
          show Quiet Bad p ((Composing.scanFields workshop path v.entries p).bind _)
          generalize hr : Composing.scanFields workshop path v.entries p = r at hfields
          cases hfields with
          | failed hbad => exact .failed hbad
          | @done q hrevisit =>
              obtain ⟨w, hw, hhead⟩ := scanFields_head hK hr hp hn
              have hinvoked := hinvoke hne (hK.scanFields hr hp).1 hw
                ((isDirective_of_head_eq hhead).trans hdirective)
              show Quiet Bad p (invoke workshop path q)
              generalize invoke workshop path q = r' at hinvoked
              cases hinvoked with
              | failed hbad => exact .failed hbad
              | done hrest => exact .done (hrest.trans hrevisit)

/-- **A run over a whole document is a single pass if every directive is handed over quietly.** -/
theorem exists_passed_or_fault (hK : Kept workshop Inv)
    (hinvoke : ∀ {path p v}, path ≠ [] → Inv p → p.document.content.node? path = some v →
      isDirective (Handler.markers workshop.handlers) v = true →
      Quiet Bad p (invoke workshop path p)) (hp : Inv p)
    (hroot : isDirective (Handler.markers workshop.handlers) p.document.content = false) :
    (∃ q, Passed workshop [[]] p.fresh q ∧ q.revisit = [] ∧
      passes workshop [[]] p = some (.ok (), q)) ∨
      ∃ fault q, Bad fault ∧ passes workshop [[]] p = some (.error fault, q) := by
  have hfresh := hK.fresh hp
  have hn : p.fresh.document.content.node? [] = some p.document.content := Value.node?_nil _
  have hpass : pass workshop [[]] p.fresh = (do
      let _ ← Composing.scan workshop [] p.document.content
      pass workshop [] : Composing μ Unit) p.fresh := pass_cons_of_node (hK.sound hfresh) [] hn
  have hscan := Quiet.scan hK hinvoke p.document.content [] p.fresh hfresh hn fun _ => hroot
  generalize hr : Composing.scan workshop [] p.document.content p.fresh = r at hscan
  cases hscan with
  | @done q hrevisit =>
      have hok : pass workshop [[]] p.fresh = some (.ok (), q) :=
        hpass.trans (bind_eq_ok.mpr ⟨false, q, hr, rfl⟩)
      have hnothing : leftOver q = [] := by rw [leftOver, show q.revisit = [] from hrevisit]; rfl
      refine .inl ⟨q, .of_pass hok, hrevisit, passes_eq_some_iff.mpr (.ended ?_)⟩
      rw [round_of_pass hok, verdict_of_nothing hnothing]
  | @failed fault q hbad =>
      have hfault : pass workshop [[]] p.fresh = some (.error fault, q) :=
        hpass.trans (bind_eq_error.mpr (.inl hr))
      exact .inr ⟨fault, q, hbad, passes_eq_some_iff.mpr (.ended (round_of_fault hfault))⟩

end Composing

end Docweave
