import Docweave.Proofs.Composing.Completeness
import Docweave.Proofs.Composing.Termination
import Docweave.Proofs.Handlers
import Mathlib

/-!
When composing with the standard handlers ends.

The standard handlers are tidy, so composing with them ends exactly if every pass does and only
finitely many of them write (`composeAt_isSome_iff`).  Nothing sees to it that this is the case.  A
reference with changes may write a new reference with changes in its own place, which the next pass
composes.  If that one writes back what was there before, every pass changes the document, and no
chain of references ever comes back to itself (`composeAt_swinging_eq_none`).
-/

namespace Docweave

namespace Composing

variable {μ : Type} {workshop : Workshop μ}

/-- If every state of some kind goes on to another of the same kind, composing never ends. -/
theorem passes_eq_none_of_next {R : List Path → Progress μ → Prop}
    (hnext : ∀ {worklist p}, R worklist p →
      ∃ next q, round workshop worklist p = some (.next next q) ∧ R next q)
    {worklist : List Path} {p : Progress μ} (h : R worklist p) :
    passes workshop worklist p = none := by
  refine Option.eq_none_iff_forall_ne_some.mpr fun end_ hend => ?_
  have hran := passes_eq_some_iff.mp hend
  clear hend
  induction hran with
  | ended hround =>
      obtain ⟨next, q, hgoes, -⟩ := hnext h
      rw [hround] at hgoes
      exact absurd (Option.some.inj hgoes) (by simp)
  | next hround hrest ih =>
      obtain ⟨next, q, hgoes, hq⟩ := hnext h
      obtain ⟨rfl, rfl⟩ := Round.next.inj (Option.some.inj (hround.symm.trans hgoes))
      exact ih hq

end Composing

namespace Composer

open Composing

variable {σ : Type} {chance : Chance σ} {access : FileAccess} {composer : Composer (Memory σ)}

/-- **Composing with the standard handlers ends exactly if every pass does and only finitely many
write to the document.** -/
theorem composeAt_isSome_iff
    (hhandlers : composer.handlers =
      Handler.standard (Generators.standard chance) Matchers.standard access)
    (hsound : composer.store.Sound) (hmemory : composer.memory.WellFormed) (setting : Setting)
    (start : Pointer) :
    (composer.composeAt setting start).isSome = true ↔
      Calms (composer.workshop setting) (startWorklist start) composer.progress := by
  have htidy : ∀ handler ∈ composer.handlers, handler.Tidy Memory.WellFormed :=
    hhandlers ▸ Handler.tidy_of_mem_standard (Generators.tidy_standard chance)
  have hK := kept_of_tidy (workshop_tidy htidy setting)
  have hp : Proper Memory.WellFormed composer.progress := ⟨hsound, hmemory⟩
  rw [composeAt, Option.isSome_map]
  exact passes_isSome_iff hK hp

/-! ### A document that never comes to rest -/

/-- A reference with changes to one node, that is to become one to another. -/
def swing (target other : String) : Value :=
  .map [("$extend", .map [("/!xref", .text other)]), ("!xref", .text target)]

/-- The copy of each of two nodes is a reference with changes to the other, if that is written
to it. -/
def swinging (v : Value) : Value :=
  .map [("b", .map [("$extend", .map [("/!xref", .text "/b")])]),
    ("c", .map [("$extend", .map [("/!xref", .text "/c")])]), ("a", v)]

/-- A composer of the document, with the standard handlers. -/
def swingingComposer : Composer (Memory Unit) :=
  .standard (Generators.standard fun _ => (0, ())) () { backend := .direct }
    (swinging (swing "/b" "/c"))

/-- The state after a pass over the document. -/
def swungTo (v : Value) : Progress (Memory Unit) :=
  ⟨.direct ⟨swinging v⟩, [], Memory.start (), [["a"]], true⟩

/-- The states that composing the document comes to. -/
inductive Swings : List Path → Progress (Memory Unit) → Prop
  | start : Swings [[]] swingingComposer.progress
  | there : Swings [["a"]] (swungTo (swing "/c" "/b"))
  | back : Swings [["a"]] (swungTo (swing "/b" "/c"))

/-- Where the document is composed makes no difference, nor do files. -/
theorem Swings.next_of_handlers {workshop : Workshop (Memory Unit)}
    (hhandlers : workshop.handlers = swingingComposer.handlers) {worklist : List Path}
    {p : Progress (Memory Unit)} (h : Swings worklist p) :
    ∃ next q, round workshop worklist p = some (.next next q) ∧ Swings next q := by
  obtain ⟨handlers, setting, separately⟩ := workshop
  obtain rfl : handlers = swingingComposer.handlers := hhandlers
  cases h with
  | start => exact ⟨_, _, by cbv, .there⟩
  | there => exact ⟨_, _, by cbv, .back⟩
  | back => exact ⟨_, _, by cbv, .there⟩

theorem Swings.next {worklist : List Path} {p : Progress (Memory Unit)} (h : Swings worklist p) :
    ∃ next q, round (swingingComposer.workshop bareSetting) worklist p = some (.next next q) ∧
      Swings next q :=
  h.next_of_handlers rfl

/-- **Composing the document never ends.** -/
theorem composeAt_swinging_eq_none :
    swingingComposer.composeAt bareSetting .root = none :=
  Option.map_eq_none_iff.mpr (passes_eq_none_of_next Swings.next .start)

/-- The document with a second node that brings no changes along: a copy of it becomes a reference
without changes, and what that one stands for is no directive. -/
def resting (v : Value) : Value :=
  .map [("b", .map [("$extend", .map [("/!xref", .text "/b")])]), ("c", .map [("x", .null)]),
    ("a", v)]

/-- A composer of the document, with the standard handlers. -/
def restingComposer : Composer (Memory Unit) :=
  .standard (Generators.standard fun _ => (0, ())) () { backend := .direct }
    (resting (swing "/b" "/c"))

/-- The state after a pass over the document. -/
def restedTo (v : Value) : Progress (Memory Unit) :=
  ⟨.direct ⟨resting v⟩, [], Memory.start (), [["a"]], true⟩

/-- Three passes compose a directive and write to the document, and the one after them has nothing
to compose, so composing the document calms down. -/
theorem composeAt_resting_ends :
    restingComposer.store.Sound ∧ restingComposer.memory.WellFormed ∧
      Calms (restingComposer.workshop bareSetting) [[]] restingComposer.progress := by
  have hsound : restingComposer.store.Sound := by
    refine Store.sound_wrap ?_ .direct
    simp [resting, swing, Value.wellFormed_map_iff, Entries.Distinct, Entries.keys]
  have hmemory : restingComposer.memory.WellFormed := Memory.wellFormed_start ()
  let workshop := restingComposer.workshop bareSetting
  let copied : Value := .map [("x", .null), ("!xref", .text "/b")]
  let calm : Value := .map [("$extend", .map [("/!xref", .text "/b")])]
  have hfirst : round workshop [[]] restingComposer.progress =
      some (.next [["a"]] (restedTo (swing "/c" "/b"))) := by
    cbv
  have hsecond : round workshop [["a"]] (restedTo (swing "/c" "/b")) =
      some (.next [["a"]] (restedTo copied)) := by
    cbv
  have hthird : round workshop [["a"]] (restedTo copied) =
      some (.next [["a"]] (restedTo calm)) := by
    cbv
  have hlast : round workshop [["a"]] (restedTo calm) =
      some (.ended (.ok ()) { restedTo calm with revisit := [], changed := false }) := by
    cbv
  have hran : Ran workshop [[]] restingComposer.progress _ :=
    .next hfirst (.next hsecond (.next hthird (.ended hlast)))
  have hcompose : (restingComposer.composeAt bareSetting .root).isSome = true :=
    Option.isSome_of_eq_some (composeAt_of_ran hran)
  exact ⟨hsound, hmemory,
    (composeAt_isSome_iff rfl hsound hmemory bareSetting .root).mp hcompose⟩

end Composer

end Docweave
