import Docweave.Json.Reader
import Docweave.Proofs.WellFormed

/-!
What reading JSON text gives.

Whatever the text is, no map that is read has a key twice (`wellFormed_of_read`), since a key that
comes again is written over.  Values, elements, fields and entries call each other, each with less
fuel, so what they give is shown of all four at once by induction on the fuel (`reads`).
-/

namespace Docweave

/-- Two steps go well exactly if one does after the other. -/
theorem Except.bind_eq_ok_iff {ε α β : Type} {x : Except ε α} {f : α → Except ε β} {b : β} :
    (x >>= f) = .ok b ↔ ∃ a, x = .ok a ∧ f a = .ok b := by
  cases x with
  | error fault =>
      exact ⟨fun h => absurd h (by simp [bind, Except.bind]), fun ⟨_, h, _⟩ => nomatch h⟩
  | ok a => exact ⟨fun h => ⟨a, rfl, h⟩, fun ⟨_, ha, h⟩ => Except.ok.inj ha ▸ h⟩

namespace Json

variable {cs rest : List Char} {v : Value}

theorem map_wrap_eq_ok {α : Type} {f : α → Value} {x : Read α}
    (h : x.map (wrap f) = .ok (v, rest)) : ∃ a, x = .ok (a, rest) ∧ v = f a := by
  cases x with
  | error stop => exact absurd h (by simp [Except.map])
  | ok a =>
      obtain ⟨rfl, rfl⟩ := Prod.mk.inj (Except.ok.inj h)
      exact ⟨a.1, rfl, rfl⟩

theorem word_eq_ok {letters : List Char} {result : Value}
    (h : word result letters cs = .ok (v, rest)) : v = result := by
  induction letters generalizing cs with
  | nil => exact (Prod.mk.inj (Except.ok.inj h)).1.symm
  | cons w ws ih =>
      cases cs with
      | nil => exact absurd h (by simp [word, stopAt])
      | cons c cs =>
          rw [word] at h
          split at h
          · exact ih h
          · exact absurd h (by simp [stopOn])

/-- What is read with so much fuel has no key twice. -/
structure Reads (fuel : Nat) : Prop where
  value : ∀ {room cs v rest}, Json.value fuel room cs = .ok (v, rest) → v.WellFormed
  items : ∀ {room first read cs items rest}, (Value.list read).WellFormed →
    Json.items fuel room first read cs = .ok (items, rest) → (Value.list items).WellFormed
  fields : ∀ {room first read cs fields rest}, (Value.map read).WellFormed →
    Json.fields fuel room first read cs = .ok (fields, rest) → (Value.map fields).WellFormed
  entry : ∀ {room read cs fields rest}, (Value.map read).WellFormed →
    Json.entry fuel room read cs = .ok (fields, rest) → (Value.map fields).WellFormed

namespace Reads

variable {fuel : Nat}

theorem value_succ (h : Reads fuel) {room : Nat}
    (hread : Json.value (fuel + 1) room cs = .ok (v, rest)) : v.WellFormed := by
  rw [Json.value] at hread
  split at hread
  · exact absurd hread (by simp [stopOn])
  · exact word_eq_ok hread ▸ Value.wellFormed_null
  · exact word_eq_ok hread ▸ Value.wellFormed_bool true
  · exact word_eq_ok hread ▸ Value.wellFormed_bool false
  · obtain ⟨n, -, rfl⟩ := map_wrap_eq_ok hread
    exact Value.wellFormed_number n
  · obtain ⟨s, -, rfl⟩ := map_wrap_eq_ok hread
    exact Value.wellFormed_text s
  · split at hread
    · exact absurd hread (by simp [stopOn])
    · obtain ⟨items, hitems, rfl⟩ := map_wrap_eq_ok hread
      exact h.items Value.wellFormed_list_nil hitems
  · split at hread
    · exact absurd hread (by simp [stopOn])
    · obtain ⟨fields, hfields, rfl⟩ := map_wrap_eq_ok hread
      exact h.fields Value.wellFormed_map_nil hfields
  · split at hread
    · obtain ⟨n, -, rfl⟩ := map_wrap_eq_ok hread
      exact Value.wellFormed_number n
    · exact absurd hread (by simp [stopOn])

theorem items_succ (h : Reads fuel) {room : Nat} {first : Bool} {read items : List Value}
    (hbefore : (Value.list read).WellFormed)
    (hread : Json.items (fuel + 1) room first read cs = .ok (items, rest)) :
    (Value.list items).WellFormed := by
  have hnext : ∀ {cs}, Except.bind (Json.value fuel room cs)
      (fun e => Json.items fuel room false (e.1 :: read) e.2) = .ok (items, rest) →
      (Value.list items).WellFormed := by
    intro cs hread
    obtain ⟨⟨v, rest⟩, hv, hread⟩ := Except.bind_eq_ok_iff.mp hread
    exact h.items (Value.wellFormed_list_cons_iff.mpr ⟨h.value hv, hbefore⟩) hread
  rw [Json.items] at hread
  split at hread
  · exact absurd hread (by simp [stopOn])
  · obtain ⟨rfl, -⟩ := Prod.mk.inj (Except.ok.inj hread)
    exact Value.wellFormed_list_reverse_iff.mpr hbefore
  · split at hread
    · exact hnext hread
    split at hread
    · exact absurd hread (by simp [stopOn])
    split at hread
    · exact absurd hread (by simp [stopOn])
    · exact absurd hread (by simp [stopOn])
    · exact hnext hread

theorem fields_succ (h : Reads fuel) {room : Nat} {first : Bool} {read fields : Fields}
    (hbefore : (Value.map read).WellFormed)
    (hread : Json.fields (fuel + 1) room first read cs = .ok (fields, rest)) :
    (Value.map fields).WellFormed := by
  rw [Json.fields] at hread
  split at hread
  · exact absurd hread (by simp [stopOn])
  · obtain ⟨rfl, -⟩ := Prod.mk.inj (Except.ok.inj hread)
    exact hbefore
  · split at hread
    · split at hread
      · exact h.entry hbefore hread
      · exact absurd hread (by simp [stopOn])
    split at hread
    · exact absurd hread (by simp [stopOn])
    split at hread
    · exact absurd hread (by simp [stopOn])
    · exact h.entry hbefore hread
    · exact absurd hread (by simp [stopOn])
    · exact absurd hread (by simp [stopOn])

theorem entry_succ (h : Reads fuel) {room : Nat} {read fields : Fields}
    (hbefore : (Value.map read).WellFormed)
    (hread : Json.entry (fuel + 1) room read cs = .ok (fields, rest)) :
    (Value.map fields).WellFormed := by
  rw [Json.entry] at hread
  obtain ⟨⟨key, afterKey⟩, -, hread⟩ := Except.bind_eq_ok_iff.mp hread
  obtain ⟨⟨⟨⟩, afterColon⟩, -, hread⟩ := Except.bind_eq_ok_iff.mp hread
  obtain ⟨⟨v, afterValue⟩, hv, hread⟩ := Except.bind_eq_ok_iff.mp hread
  exact h.fields (hbefore.insert (h.value hv) key) hread

end Reads

theorem reads (fuel : Nat) : Reads fuel := by
  induction fuel with
  | zero =>
      refine ⟨fun h => ?_, fun _ h => ?_, fun _ h => ?_, fun _ h => ?_⟩
      · exact absurd h (by simp [value, stopOn])
      · exact absurd h (by simp [items, stopOn])
      · exact absurd h (by simp [fields, stopOn])
      · exact absurd h (by simp [entry, stopOn])
  | succ fuel ih => exact ⟨ih.value_succ, ih.items_succ, ih.fields_succ, ih.entry_succ⟩

/-- **No map of a value read from JSON text has a key twice.** -/
theorem wellFormed_of_read (h : read cs = .ok v) : v.WellFormed := by
  simp only [read] at h
  split at h
  · exact absurd h (by simp)
  · rename_i w rest hvalue
    split at h
    · exact Except.ok.inj h ▸ (reads _).value hvalue
    · exact absurd h (by simp)

end Json

end Docweave
