import Docweave.Proofs.Composing.Watching
import Mathlib.Logic.Relation

/-!
A composer pass by pass.

What holds after every pass is more than what holds when composing has ended, and it holds of
composing that never ends as well.  A composer is at rest or between two passes (`Stage`), and a
step takes it from one request or one pass to the next.  Which requests may be made of which
composer is a parameter.  A call that ends is a run of steps (`Stage.reaches_of_composeAt`).
-/

namespace Docweave

open Composing

/-- Where a composer is: at rest, or between two passes. -/
inductive Stage (μ : Type) where
  | resting (composer : Composer μ)
  | working (composer : Composer μ) (setting : Setting) (worklist : List Path)
      (progress : Progress μ)

namespace Stage

variable {μ : Type} {allows : Composer μ → Composer.Request → Prop}

/-- The state that composing has come to. -/
def progress : Stage μ → Progress μ
  | .resting composer => composer.progress
  | .working _ _ _ progress => progress

/-- One request, or one pass. -/
inductive Step (allows : Composer μ → Composer.Request → Prop) : Stage μ → Stage μ → Prop
  | compose {composer : Composer μ} {setting : Setting} {start : Pointer}
      (h : allows composer (.compose setting start)) :
      Step allows (.resting composer)
        (.working composer setting (Composer.startWorklist start) composer.progress)
  | forget {composer : Composer μ} (h : allows composer .forget) :
      Step allows (.resting composer) (.resting composer.forget)
  | pass {composer : Composer μ} {setting : Setting} {worklist next : List Path}
      {p q : Progress μ}
      (hround : round (composer.workshop setting) worklist p = some (.next next q)) :
      Step allows (.working composer setting worklist p) (.working composer setting next q)
  /-- The last pass, after which composing is over. -/
  | last {composer : Composer μ} {setting : Setting} {worklist : List Path} {p q : Progress μ}
      {result : Except Fault Unit}
      (hround : round (composer.workshop setting) worklist p = some (.ended result q)) :
      Step allows (.working composer setting worklist p) (.resting (composer.resume q))

/-- Requests and passes one after the other. -/
abbrev Reaches (allows : Composer μ → Composer.Request → Prop) : Stage μ → Stage μ → Prop :=
  Relation.ReflTransGen (Step allows)

theorem reaches_of_ran {composer : Composer μ} {setting : Setting} {worklist : List Path}
    {p : Progress μ} {end_ : Except Fault Unit × Progress μ}
    (h : Ran (composer.workshop setting) worklist p end_) :
    Reaches allows (.working composer setting worklist p) (.resting (composer.resume end_.2)) := by
  induction h with
  | ended hround => exact .single (.last hround)
  | next hround _ ih => exact .head (.pass hround) ih

/-- **Composing that ends is a run of steps.** -/
theorem reaches_of_composeAt {composer composer' : Composer μ} {setting : Setting}
    {start : Pointer} {result : Except Fault Unit}
    (hallows : allows composer (.compose setting start))
    (h : composer.composeAt setting start = some (result, composer')) :
    Reaches allows (.resting composer) (.resting composer') := by
  obtain ⟨q, hran, rfl⟩ := Composer.exists_ran_of_composeAt h
  exact .head (.compose hallows) (reaches_of_ran hran)

end Stage

end Docweave
