import Docweave.Proofs.Resolving.Targets
import Docweave.Proofs.Store.Direct

/-!
What texts a document has after an edit.

An edit brings no text into a document but those of the value that is written: whatever else stands
there afterwards stood there before.  So what holds of every text of a document is kept by writing
values of which it holds as well, and by removing anything.
-/

namespace Docweave

namespace Value

variable {raw token : String} {v c new : Value}

theorem texts_of_child? (hc : v.child? token = some c) (h : raw ∈ c.texts) : raw ∈ v.texts := by
  cases v with
  | map fields => exact mem_texts_map.mpr ⟨_, Entries.mem_of_find? hc, h⟩
  | list items =>
      obtain ⟨i, -, hi⟩ := Option.bind_eq_some_iff.mp hc
      exact mem_texts_list.mpr ⟨c, List.mem_of_getElem? hi, h⟩
  | _ => exact absurd hc (by simp [child?])

theorem texts_of_node? {p : Path} (hn : v.node? p = some c) (h : raw ∈ c.texts) :
    raw ∈ v.texts := by
  induction p generalizing v with
  | nil =>
      rw [node?_nil] at hn
      exact Option.some.inj hn ▸ h
  | cons token p ih =>
      rw [node?_cons] at hn
      obtain ⟨d, hd, hn⟩ := Option.bind_eq_some_iff.mp hn
      exact texts_of_child? hd (ih hn)

/-! ### Writing -/

theorem texts_of_insert {fields : Fields} {key : String}
    (h : raw ∈ (map (Entries.insert fields key new)).texts) :
    raw ∈ new.texts ∨ raw ∈ (map fields).texts := by
  obtain ⟨e, he, h⟩ := mem_texts_map.mp h
  rcases Entries.mem_insert he with rfl | he
  · exact .inl h
  · exact .inr (mem_texts_map.mpr ⟨e, he, h⟩)

theorem texts_of_set {items : List Value} {i : Nat} (h : raw ∈ (list (items.set i new)).texts) :
    raw ∈ new.texts ∨ raw ∈ (list items).texts := by
  obtain ⟨w, hw, hraw⟩ := mem_texts_list.mp h
  rcases List.mem_or_eq_of_mem_set hw with hw | rfl
  · exact .inr (mem_texts_list.mpr ⟨w, hw, hraw⟩)
  · exact .inl hraw

theorem texts_of_setChild (h : raw ∈ (setChild token new v).texts) :
    raw ∈ new.texts ∨ raw ∈ v.texts := by
  cases v with
  | map fields => exact texts_of_insert h
  | list items =>
      simp only [setChild] at h
      split at h
      · exact texts_of_set h
      · exact .inr h
  | _ => exact .inr h

theorem texts_of_put {p : Path} (h : raw ∈ (v.put p new).texts) :
    raw ∈ new.texts ∨ raw ∈ v.texts := by
  induction p generalizing v with
  | nil =>
      rw [put_nil] at h
      exact .inl h
  | cons token p ih =>
      cases hc : v.child? token with
      | none =>
          rw [put_cons_of_child?_eq_none hc] at h
          exact .inr h
      | some c =>
          rw [put_cons_of_child? hc] at h
          rcases texts_of_setChild h with h | h
          · exact (ih h).imp id (texts_of_child? hc)
          · exact .inr h

theorem texts_of_writeChild {seen : Path} {w : Value} (hw : writeChild seen token new v = .ok w)
    (h : raw ∈ w.texts) : raw ∈ new.texts ∨ raw ∈ v.texts := by
  cases childWritten_of_writeChild hw with
  | key fields => exact texts_of_insert h
  | appended items htoken =>
      obtain ⟨u, hu, h⟩ := mem_texts_list.mp h
      rcases List.mem_append.mp hu with hu | hu
      · exact .inr (mem_texts_list.mpr ⟨u, hu, h⟩)
      · exact .inl (List.mem_singleton.mp hu ▸ h)
  | element items => exact texts_of_set h

/-- **An update brings in no text but those of the value that is written.** -/
theorem texts_of_written {pointer : Pointer} {w : Value} (hw : v.written pointer new = .ok w)
    (h : raw ∈ w.texts) : raw ∈ new.texts ∨ raw ∈ v.texts := by
  obtain ⟨path, last, parent, parent', -, hparent, hwrite, rfl⟩ := exists_of_written hw
  rcases texts_of_put h with h | h
  · exact (texts_of_writeChild hwrite h).imp id (texts_of_node? hparent)
  · exact .inr h

/-! ### Removing -/

theorem texts_of_removeChild? {rest : Value} (hrest : removeChild? token v = some rest)
    (h : raw ∈ rest.texts) : raw ∈ v.texts := by
  cases childRemoved_of_removeChild? hrest with
  | key fields =>
      obtain ⟨e, he, h⟩ := mem_texts_map.mp h
      exact mem_texts_map.mpr ⟨e, Entries.mem_of_mem_erase he, h⟩
  | element items =>
      obtain ⟨w, hw, h⟩ := mem_texts_list.mp h
      exact mem_texts_list.mpr ⟨w, List.mem_of_mem_eraseIdx hw, h⟩

/-- **A removal brings in no text.** -/
theorem texts_of_removed? {pointer : Pointer} {rest : Value}
    (hrest : v.removed? pointer = some rest) (h : raw ∈ rest.texts) : raw ∈ v.texts := by
  obtain ⟨-, rfl⟩ | ⟨path, last, parent, parent', -, hparent, hremove, rfl⟩ :=
    exists_of_removed? hrest
  · cases v <;> exact absurd h (by simp [cleared, texts, textsOfItems, textsOfFields])
  · rcases texts_of_put h with h | h
    · exact texts_of_node? hparent (texts_of_removeChild? hremove h)
    · exact h

end Value

end Docweave
