import Mathlib.Data.List.Forall2

/-!
Two lists that go together item by item.

A list is resolved, built or compared item by item, and a map entry by entry, so results are
related to what they come from by `List.Forall₂`.  What is known of all items on one side is known
of those on the other, and results for all items exist exactly if they do for each.
-/

namespace Docweave

variable {α β : Type} {R : α → β → Prop} {xs : List α} {ys : List β}

/-- Every element of the right list is related to one of the left. -/
theorem exists_of_mem_right (h : List.Forall₂ R xs ys) {y : β} (hy : y ∈ ys) :
    ∃ x ∈ xs, R x y := by
  induction h with
  | nil => exact absurd hy List.not_mem_nil
  | @cons x y' xs ys hxy _ ih =>
      rcases List.mem_cons.mp hy with rfl | hy
      · exact ⟨x, List.mem_cons_self, hxy⟩
      · obtain ⟨x', hx', hxy'⟩ := ih hy
        exact ⟨x', List.mem_cons_of_mem x hx', hxy'⟩

theorem exists_of_mem_left (h : List.Forall₂ R xs ys) {x : α} (hx : x ∈ xs) : ∃ y ∈ ys, R x y :=
  have hflip : List.Forall₂ (flip R) ys xs := List.Forall₂.flip h
  exists_of_mem_right hflip hx

/-- There is a result for all items together exactly if there is one for each of them. -/
theorem exists_forall₂_iff : (∃ ys, List.Forall₂ R xs ys) ↔ ∀ x ∈ xs, ∃ y, R x y := by
  induction xs with
  | nil => exact ⟨fun _ _ h => absurd h List.not_mem_nil, fun _ => ⟨[], .nil⟩⟩
  | cons x xs ih =>
      rw [List.forall_mem_cons, ← ih]
      constructor
      · rintro ⟨_, h⟩
        obtain ⟨y, ys, hy, hys, rfl⟩ := List.forall₂_cons_left_iff.mp h
        exact ⟨⟨y, hy⟩, ys, hys⟩
      · rintro ⟨⟨y, hy⟩, ys, hys⟩
        exact ⟨y :: ys, .cons hy hys⟩

theorem forall_mem_iff_of_forall₂ {P : α → Prop} {Q : β → Prop} (h : List.Forall₂ R xs ys)
    (hPQ : ∀ x ∈ xs, ∀ y, R x y → (P x ↔ Q y)) : (∀ x ∈ xs, P x) ↔ ∀ y ∈ ys, Q y := by
  constructor
  · intro hall y hy
    obtain ⟨x, hx, hxy⟩ := exists_of_mem_right h hy
    exact (hPQ x hx y hxy).mp (hall x hx)
  · intro hall x hx
    obtain ⟨y, hy, hxy⟩ := exists_of_mem_left h hx
    exact (hPQ x hx y hxy).mpr (hall y hy)

theorem forall₂_congr_of_forall₂ {γ : Type} {P : α → γ → Prop} {Q : β → γ → Prop} {zs : List γ}
    (h : List.Forall₂ R xs ys) (hPQ : ∀ x ∈ xs, ∀ y z, z ∈ zs → R x y → (P x z ↔ Q y z)) :
    List.Forall₂ P xs zs ↔ List.Forall₂ Q ys zs := by
  induction h generalizing zs with
  | nil => simp
  | cons hxy _ ih =>
      cases zs with
      | nil => simp
      | cons z zs =>
          rw [List.forall₂_cons, List.forall₂_cons,
            hPQ _ List.mem_cons_self _ _ List.mem_cons_self hxy,
            ih fun x hx y z hz => hPQ x (List.mem_cons_of_mem _ hx) y z (List.mem_cons_of_mem _ hz)]

theorem forall₂_iff_getElem? : List.Forall₂ R xs ys ↔
    xs.length = ys.length ∧ ∀ (i : Nat) x y, xs[i]? = some x → ys[i]? = some y → R x y := by
  rw [List.forall₂_iff_get]
  refine and_congr_right fun _ => ⟨fun h i x y hx hy => ?_, fun h i hx hy => ?_⟩
  · obtain ⟨hi, rfl⟩ := List.getElem?_eq_some_iff.mp hx
    obtain ⟨hi', rfl⟩ := List.getElem?_eq_some_iff.mp hy
    exact h i hi hi'
  · exact h i _ _ (List.getElem?_eq_getElem hx) (List.getElem?_eq_getElem hy)

end Docweave
