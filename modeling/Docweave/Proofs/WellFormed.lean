import Docweave.Proofs.Node

/-!
No key twice, whatever is done to a document.

A map is a list of entries, so nothing in its type keeps a key from coming twice; `WellFormed` says
that it does not, at every node.  Every operation that builds a document from others keeps it: the
nodes of a well-formed document are well-formed, and so is a document with well-formed values
written into it.
-/

namespace Docweave

namespace Value

theorem wellFormedItems_iff {items : List Value} :
    WellFormedItems items ↔ ∀ v ∈ items, v.WellFormed := by
  induction items with
  | nil => simp [WellFormedItems]
  | cons v vs ih => simp [WellFormedItems, ih]

theorem wellFormedFields_iff {fields : Fields} :
    WellFormedFields fields ↔ ∀ e ∈ fields, e.2.WellFormed := by
  induction fields with
  | nil => simp [WellFormedFields]
  | cons e es ih =>
      obtain ⟨key, v⟩ := e
      simp only [WellFormedFields, ih, List.forall_mem_cons]

theorem wellFormed_list_iff {items : List Value} :
    (list items).WellFormed ↔ ∀ v ∈ items, v.WellFormed := by
  rw [WellFormed, wellFormedItems_iff]

theorem wellFormed_map_iff {fields : Fields} :
    (map fields).WellFormed ↔ Entries.Distinct fields ∧ ∀ e ∈ fields, e.2.WellFormed := by
  rw [WellFormed, wellFormedFields_iff]

@[simp] theorem wellFormed_null : null.WellFormed := by
  rw [WellFormed.eq_def]
  trivial

@[simp] theorem wellFormed_bool (b : Bool) : (bool b).WellFormed := by
  rw [WellFormed.eq_def]
  trivial

@[simp] theorem wellFormed_number (n : Number) : (number n).WellFormed := by
  rw [WellFormed.eq_def]
  trivial

@[simp] theorem wellFormed_text (s : String) : (text s).WellFormed := by
  rw [WellFormed.eq_def]
  trivial

@[simp] theorem wellFormed_list_nil : (list []).WellFormed :=
  wellFormed_list_iff.mpr fun _ h => absurd h List.not_mem_nil

@[simp] theorem wellFormed_list_cons_iff {v : Value} {items : List Value} :
    (list (v :: items)).WellFormed ↔ v.WellFormed ∧ (list items).WellFormed := by
  simp only [wellFormed_list_iff, List.forall_mem_cons]

@[simp] theorem wellFormed_list_append_iff {vs ws : List Value} :
    (list (vs ++ ws)).WellFormed ↔ (list vs).WellFormed ∧ (list ws).WellFormed := by
  simp only [wellFormed_list_iff, List.mem_append, or_imp, forall_and]

@[simp] theorem wellFormed_list_reverse_iff {items : List Value} :
    (list items.reverse).WellFormed ↔ (list items).WellFormed := by
  simp only [wellFormed_list_iff, List.mem_reverse]

@[simp] theorem wellFormed_map_nil : (map []).WellFormed :=
  wellFormed_map_iff.mpr ⟨.nil, fun _ h => absurd h List.not_mem_nil⟩

@[simp] theorem wellFormed_map_singleton_iff {key : String} {v : Value} :
    (map [(key, v)]).WellFormed ↔ v.WellFormed := by
  rw [wellFormed_map_iff, List.forall_mem_singleton]
  exact and_iff_right (by simp [Entries.Distinct, Entries.keys])

/-! ### Going down -/

theorem WellFormed.of_child? {v c : Value} {token : String} (hv : v.WellFormed)
    (h : v.child? token = some c) : c.WellFormed := by
  cases v with
  | map fields => exact (wellFormed_map_iff.mp hv).2 _ (Entries.mem_of_find? h)
  | list items =>
      obtain ⟨i, -, hi⟩ := Option.bind_eq_some_iff.mp h
      exact wellFormed_list_iff.mp hv c (List.mem_of_getElem? hi)
  | _ => exact absurd h (by simp [child?])

theorem WellFormed.of_node? {v w : Value} {p : Path} (hv : v.WellFormed)
    (h : v.node? p = some w) : w.WellFormed := by
  induction p generalizing v with
  | nil =>
      rw [node?_nil] at h
      exact Option.some.inj h ▸ hv
  | cons token p ih =>
      rw [node?_cons] at h
      obtain ⟨c, hc, hw⟩ := Option.bind_eq_some_iff.mp h
      exact ih (hv.of_child? hc) hw

/-! ### Writing -/

theorem WellFormed.insert {fields : Fields} {v : Value} (h : (map fields).WellFormed)
    (hv : v.WellFormed) (key : String) : (map (Entries.insert fields key v)).WellFormed := by
  rw [wellFormed_map_iff] at h ⊢
  refine ⟨h.1.insert key v, ?_⟩
  intro e he
  have hfind := (h.1.insert key v).find?_of_mem (show (e.1, e.2) ∈ _ from he)
  rw [Entries.find?_insert] at hfind
  split at hfind
  · exact Option.some.inj hfind ▸ hv
  · exact h.2 e (Entries.mem_of_find? hfind)

theorem WellFormed.erase {fields : Fields} (h : (map fields).WellFormed) (key : String) :
    (map (Entries.erase fields key)).WellFormed := by
  rw [wellFormed_map_iff] at h ⊢
  refine ⟨h.1.erase key, ?_⟩
  intro e he
  have hfind := (h.1.erase key).find?_of_mem (show (e.1, e.2) ∈ _ from he)
  by_cases hkey : key = e.1
  · rw [← hkey, h.1.find?_erase key] at hfind
    exact absurd hfind (by simp)
  · rw [Entries.find?_erase_of_ne fields hkey] at hfind
    exact h.2 e (Entries.mem_of_find? hfind)

theorem WellFormed.set {items : List Value} {v : Value} (h : (list items).WellFormed)
    (hv : v.WellFormed) (i : Nat) : (list (items.set i v)).WellFormed := by
  rw [wellFormed_list_iff] at h ⊢
  intro w hw
  rcases List.mem_or_eq_of_mem_set hw with hmem | rfl
  · exact h w hmem
  · exact hv

theorem WellFormed.setChild {v new : Value} (hv : v.WellFormed) (hnew : new.WellFormed)
    (token : String) : (setChild token new v).WellFormed := by
  cases v with
  | map fields => exact hv.insert hnew token
  | list items =>
      simp only [Value.setChild]
      split
      · exact hv.set hnew _
      · exact hv
  | _ => exact hv

/-- A well-formed value in the place of a node of a well-formed document leaves it well-formed. -/
theorem WellFormed.put {v new : Value} (hv : v.WellFormed) (hnew : new.WellFormed) (p : Path) :
    (v.put p new).WellFormed := by
  induction p generalizing v with
  | nil => simpa using hnew
  | cons token p ih =>
      cases hc : v.child? token with
      | none => rwa [put_cons_of_child?_eq_none hc]
      | some c =>
          rw [put_cons_of_child? hc]
          exact hv.setChild (ih (hv.of_child? hc)) token

theorem WellFormed.writeChild {v new written : Value} {seen : Path} {token : String}
    (hv : v.WellFormed) (hnew : new.WellFormed)
    (h : Value.writeChild seen token new v = .ok written) : written.WellFormed := by
  cases childWritten_of_writeChild h with
  | key fields => exact hv.insert hnew token
  | appended items htoken =>
      have hlast : (list [new]).WellFormed :=
        wellFormed_list_cons_iff.mpr ⟨hnew, wellFormed_list_nil⟩
      exact wellFormed_list_append_iff.mpr ⟨hv, hlast⟩
  | element items => exact hv.set hnew _

theorem WellFormed.removeChild? {v rest : Value} {token : String} (hv : v.WellFormed)
    (h : Value.removeChild? token v = some rest) : rest.WellFormed := by
  cases childRemoved_of_removeChild? h with
  | key fields => exact hv.erase token
  | element items =>
      rw [wellFormed_list_iff] at hv ⊢
      intro w hw
      exact hv w (List.mem_of_mem_eraseIdx hw)

theorem WellFormed.cleared (v : Value) : v.cleared.WellFormed := by
  cases v <;> simp [Value.cleared]

end Value

end Docweave
