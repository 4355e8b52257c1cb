import Docweave.Proofs.Composing.Run

/-!
Passes, and composing as a run of them.

`Passed` is a pass over a worklist that ends without a fault, and `Ended` a run of passes that
does.  `passes` is the least function that makes one pass after the other, so what holds of every
run that ends is shown by induction on `Ran`: the runs that `passes` has a result for are exactly
the finite ones.
-/

namespace Docweave

/-- The state at the beginning of a pass. -/
def Progress.fresh {μ : Type} (progress : Progress μ) : Progress μ :=
  { progress with revisit := [], changed := false }

namespace Composing

variable {μ : Type} {workshop : Workshop μ} {handover : Handover μ} {p p' : Progress μ}
  {worklist : List Path}

theorem liftM_eq_ok {x : Except Fault Value} {v : Value} :
    (liftM x : Composing μ Value) p = some (.ok v, p') ↔ x = .ok v ∧ p = p' := by
  cases x with
  | error fault =>
      show some (Except.error fault, p) = _ ↔ _
      simp
  | ok w =>
      show some (Except.ok w, p) = _ ↔ _
      simp

/-! ### One pass -/

/-- How looking through the nodes of a worklist ends. -/
inductive Passed (handover : Handover μ) : List Path → Progress μ → Progress μ → Prop
  | nil {p : Progress μ} : Passed handover [] p p
  /-- The node is gone. -/
  | gone {path : Path} {rest : List Path} {p q : Progress μ}
      (hgone : p.document.has (.plain path) = false) (hrest : Passed handover rest p q) :
      Passed handover (path :: rest) p q
  | scanned {path : Path} {rest : List Path} {p q r : Progress μ} {v : Value} {b : Bool}
      (hget : p.document.get (.plain path) = .ok v)
      (hscan : scan handover path v p = some (.ok b, q)) (hrest : Passed handover rest q r) :
      Passed handover (path :: rest) p r

theorem Passed.of_pass (h : pass handover worklist p = some (.ok (), p')) :
    Passed handover worklist p p' := by
  induction worklist generalizing p with
  | nil =>
      obtain ⟨-, rfl⟩ := pure_eq_ok.mp h
      exact .nil
  | cons path rest ih =>
      rw [pass] at h
      obtain ⟨q, _, hget, h⟩ := bind_eq_ok.mp h
      obtain ⟨rfl, rfl⟩ := get_eq_ok.mp hget
      rw [ite_apply] at h
      split at h
      · obtain ⟨v, _, hlift, h⟩ := bind_eq_ok.mp h
        obtain ⟨hv, rfl⟩ := liftM_eq_ok.mp hlift
        obtain ⟨b, q, hscan, h⟩ := bind_eq_ok.mp h
        exact .scanned hv hscan (ih h)
      · exact .gone (Bool.eq_false_iff.mpr ‹_›) (ih h)

/-- What happens at or below the nodes of a worklist happens at or below the root. -/
theorem Frame.widen_root {R : Path → Progress μ → Progress μ → Prop} (hR : Frame workshop R)
    {path : Path} (h : R path p p') : R [] p p' := by
  induction path using List.reverseRecOn with
  | nil => exact h
  | append_singleton path token ih => exact ih (hR.widen h)

theorem Frame.passed {R : Path → Progress μ → Progress μ → Prop} (hR : Frame workshop R)
    (h : Passed workshop worklist p p') : R [] p p' := by
  induction h with
  | nil => exact hR.refl [] _
  | gone hgone hrest ih => exact ih
  | scanned hget hscan hrest ih => exact hR.trans (hR.widen_root (hR.scan _ _ _ _ _ hscan)) ih

/-! ### Rounds -/

/-- The worklist that a pass leaves. -/
def leftOver (progress : Progress μ) : List Path :=
  Worklist.normalize progress.revisit.reverse

theorem round_eq_ended_ok (h : round handover worklist p = some (.ended (.ok ()) p')) :
    Passed handover worklist p.fresh p' ∧ leftOver p' = [] := by
  simp only [round] at h
  split at h
  · exact absurd h (by simp)
  · exact absurd h (by simp)
  · rename_i q hpass
    simp only [verdict, Option.some.injEq] at h
    split at h
    · obtain ⟨-, rfl⟩ := Round.ended.inj h
      exact ⟨.of_pass hpass, List.isEmpty_iff.mp ‹_›⟩
    · split at h
      · exact absurd h (by simp)
      · exact absurd h (by simp)

theorem round_eq_next {next : List Path}
    (h : round handover worklist p = some (.next next p')) :
    Passed handover worklist p.fresh p' ∧ leftOver p' = next ∧ next ≠ [] ∧
      (next = worklist → p'.changed = true) := by
  simp only [round] at h
  split at h
  · exact absurd h (by simp)
  · exact absurd h (by simp)
  · rename_i q hpass
    simp only [verdict, Option.some.injEq] at h
    split at h
    · exact absurd h (by simp)
    · rename_i hne
      split at h
      · exact absurd h (by simp)
      · rename_i hstall
        obtain ⟨rfl, rfl⟩ := Round.next.inj h
        refine ⟨.of_pass hpass, rfl, fun heq => hne (List.isEmpty_iff.mpr heq), fun heq => ?_⟩
        simpa only [heq, beq_self_eq_true, Bool.true_and, Bool.not_eq_true',
          Bool.not_eq_false] using hstall

/-- After a pass without a fault the verdict is over what it left. -/
theorem round_of_pass (h : pass handover worklist p.fresh = some (.ok (), p')) :
    round handover worklist p = some (verdict worklist p') := by
  change pass handover worklist { p with revisit := [], changed := false } = _ at h
  rw [round, h]

theorem round_of_none (h : pass handover worklist p.fresh = none) :
    round handover worklist p = none := by
  change pass handover worklist { p with revisit := [], changed := false } = _ at h
  rw [round, h]

/-- A pass that ends in a fault is the last one. -/
theorem round_of_fault {fault : Fault}
    (h : pass handover worklist p.fresh = some (.error fault, p')) :
    round handover worklist p = some (.ended (.error fault) p') := by
  change pass handover worklist { p with revisit := [], changed := false } = _ at h
  rw [round, h]

theorem verdict_of_nothing (h : leftOver p = []) : verdict worklist p = .ended (.ok ()) p := by
  rw [leftOver] at h
  simp only [verdict, h, List.isEmpty_nil, if_true]

/-- A pass that wrote something is no stall. -/
theorem verdict_of_changed (h : leftOver p ≠ []) (hchanged : p.changed = true) :
    verdict worklist p = .next (leftOver p) p := by
  have hne : ¬ (Worklist.normalize p.revisit.reverse).isEmpty = true :=
    fun hempty => h (List.isEmpty_iff.mp hempty)
  simp only [verdict, hne, hchanged, Bool.not_true, Bool.and_false, Bool.false_eq_true, if_false]
  rfl

/-- A run of rounds that comes to an end. -/
inductive Ran (handover : Handover μ) :
    List Path → Progress μ → Except Fault Unit × Progress μ → Prop
  | ended {worklist : List Path} {p q : Progress μ} {result : Except Fault Unit}
      (hround : round handover worklist p = some (.ended result q)) :
      Ran handover worklist p (result, q)
  | next {worklist next : List Path} {p q : Progress μ} {end_ : Except Fault Unit × Progress μ}
      (hround : round handover worklist p = some (.next next q))
      (hrest : Ran handover next q end_) : Ran handover worklist p end_

/-- **Composing has a result exactly if the run of its rounds comes to an end.** -/
theorem passes_eq_some_iff {end_ : Except Fault Unit × Progress μ} :
    passes handover worklist p = some end_ ↔ Ran handover worklist p end_ := by
  constructor
  · refine Handover.passes.partial_correctness handover
      (fun worklist p end_ => Ran handover worklist p end_)
      (fun rest ih worklist p end_ h => ?_) worklist p end_
    split at h
    · exact absurd h (by simp)
    · obtain rfl := Option.some.inj h
      exact .ended ‹_›
    · exact .next ‹_› (ih _ _ _ h)
  · intro h
    induction h with
    | ended hround => rw [passes, hround]
    | next hround hrest ih => rw [passes, hround]; exact ih

/-- Composing never ends if a pass of it does not. -/
theorem passes_eq_none_of_pass (h : pass handover worklist p.fresh = none) :
    passes handover worklist p = none := by
  rw [passes, round_of_none h]

/-- A run of passes that ends without a fault. -/
inductive Ended (handover : Handover μ) : List Path → Progress μ → Progress μ → Prop
  | last {worklist : List Path} {p q : Progress μ}
      (hpass : Passed handover worklist p.fresh q) (hnone : leftOver q = []) :
      Ended handover worklist p q
  | next {worklist : List Path} {p q r : Progress μ}
      (hpass : Passed handover worklist p.fresh q) (hrest : Ended handover (leftOver q) q r) :
      Ended handover worklist p r

/-- A run has a first pass. -/
theorem Ended.exists_passed (h : Ended handover worklist p p') :
    ∃ q, Passed handover worklist p.fresh q := by
  cases h with
  | last hpass hnone => exact ⟨_, hpass⟩
  | next hpass hrest => exact ⟨_, hpass⟩

theorem Ended.of_passes (h : passes handover worklist p = some (.ok (), p')) :
    Ended handover worklist p p' := by
  generalize hend : (Except.ok (), p') = end_ at h
  rw [passes_eq_some_iff] at h
  induction h with
  | ended hround =>
      obtain ⟨rfl, rfl⟩ := Prod.mk.inj hend
      obtain ⟨hpass, hnone⟩ := round_eq_ended_ok hround
      exact .last hpass hnone
  | next hround hrest ih =>
      obtain ⟨hpass, rfl, -, -⟩ := round_eq_next hround
      exact .next hpass (ih hend)

end Composing

namespace Composer

open Composing

variable {μ : Type} {composer composer' : Composer μ} {setting : Setting} {start : Pointer}
  {result : Except Fault Unit} {q : Progress μ}

/-- Composing comes to what a run of rounds comes to. -/
theorem composeAt_of_ran (h : Ran (composer.workshop setting) (startWorklist start)
    composer.progress (result, q)) :
    composer.composeAt setting start = some (result, composer.resume q) :=
  Option.map_eq_some_iff.mpr ⟨_, passes_eq_some_iff.mpr h, rfl⟩

theorem exists_ran_of_composeAt (h : composer.composeAt setting start = some (result, composer')) :
    ∃ q, Ran (composer.workshop setting) (startWorklist start) composer.progress (result, q) ∧
      composer' = composer.resume q := by
  obtain ⟨⟨result, q⟩, hpasses, heq⟩ := Option.map_eq_some_iff.mp h
  obtain ⟨rfl, rfl⟩ := Prod.mk.inj heq
  exact ⟨q, passes_eq_some_iff.mp hpasses, rfl⟩

theorem exists_ended_of_composeAt
    (h : composer.composeAt setting start = some (.ok (), composer')) :
    ∃ q, Ended (composer.workshop setting) (startWorklist start) composer.progress q ∧
      composer' = composer.resume q := by
  obtain ⟨q, hran, heq⟩ := exists_ran_of_composeAt h
  exact ⟨q, Ended.of_passes (passes_eq_some_iff.mpr hran), heq⟩

end Composer

end Docweave
