import Docweave.Proofs.WellFormed

/-!
The children of a node one after the other.

`entries` are the values right below a node in their order, each with its token.  They are exactly
the children: an element of a list beyond what 64 bits count has no token, so it is no node, and
nothing that works by paths can reach or change it.  A document is determined by the head of its
root and the children there.
-/

namespace Docweave

namespace Value

/-- The elements of a list from a position on that have a token, each with it. -/
def numbered : Nat → List Value → List (String × Value)
  | _, [] => []
  | i, v :: vs =>
    match token? i with
    | some token => (token, v) :: numbered (i + 1) vs
    | none => []

/-- The children of a node in their order, each with its token. -/
def entries : Value → List (String × Value)
  | .map fields => fields
  | .list items => numbered 0 items
  | _ => []

theorem mem_numbered_iff {i : Nat} {items : List Value} {e : String × Value} :
    e ∈ numbered i items ↔ ∃ j, token? (i + j) = some e.1 ∧ items[j]? = some e.2 := by
  induction items generalizing i with
  | nil => simp [numbered]
  | cons v vs ih =>
      rw [numbered]
      cases htoken : token? i with
      | none =>
          -- No later element has a token either.
          refine iff_of_false List.not_mem_nil fun ⟨j, hj, _⟩ => ?_
          have hlarge : token? (i + j) = none :=
            token?_eq_none_iff.mpr ((token?_eq_none_iff.mp htoken).trans (Nat.le_add_right i j))
          exact absurd (hlarge.symm.trans hj) (by simp)
      | some token =>
          rw [List.mem_cons, ih]
          constructor
          · rintro (rfl | ⟨j, hj, hitem⟩)
            · exact ⟨0, htoken, rfl⟩
            · exact ⟨j + 1, by rwa [Nat.add_comm j 1, ← Nat.add_assoc], by simpa using hitem⟩
          · rintro ⟨_ | j, hj, hitem⟩
            · obtain rfl := Option.some.inj hitem
              exact Or.inl (Prod.ext (Option.some.inj (hj.symm.trans htoken)) rfl)
            · exact Or.inr ⟨j, by rwa [Nat.add_assoc, Nat.add_comm 1 j], by simpa using hitem⟩

theorem distinct_numbered (i : Nat) (items : List Value) :
    Entries.Distinct (numbered i items) := by
  induction items generalizing i with
  | nil => exact Entries.Distinct.nil
  | cons v vs ih =>
      rw [numbered]
      cases htoken : token? i with
      | none => exact Entries.Distinct.nil
      | some token =>
          refine List.nodup_cons.mpr ⟨fun hmem => ?_, ih (i + 1)⟩
          obtain ⟨e, he, heq⟩ := List.mem_map.mp hmem
          obtain ⟨j, hj, -⟩ := mem_numbered_iff.mp he
          have := token?_inj (hj.trans (congrArg some heq)) htoken
          omega

theorem entries_of_isContainer_eq_false {v : Value} (h : v.isContainer = false) :
    v.entries = [] := by
  cases v <;> first | rfl | exact absurd h (by simp [isContainer])

theorem WellFormed.distinct_entries {v : Value} (h : v.WellFormed) :
    Entries.Distinct v.entries := by
  cases v with
  | map fields => exact (wellFormed_map_iff.mp h).1
  | list items => exact distinct_numbered 0 items
  | _ => exact Entries.Distinct.nil

theorem WellFormed.of_mem_entries {v : Value} (h : v.WellFormed) {e : String × Value}
    (he : e ∈ v.entries) : e.2.WellFormed := by
  cases v with
  | map fields => exact (wellFormed_map_iff.mp h).2 e he
  | list items =>
      obtain ⟨j, -, hitem⟩ := mem_numbered_iff.mp he
      exact wellFormed_list_iff.mp h _ (List.mem_of_getElem? hitem)
  | _ => exact absurd he List.not_mem_nil

/-- Induction over documents by the entries of a node. -/
theorem entries_induction {motive : Value → Prop}
    (node : ∀ v, (∀ e ∈ v.entries, motive e.2) → motive v) (v : Value) : motive v := by
  induction v using Value.induction with
  | list items ih =>
      refine node _ fun e he => ?_
      obtain ⟨j, -, hitem⟩ := mem_numbered_iff.mp he
      exact ih _ (List.mem_of_getElem? hitem)
  | map fields ih => exact node _ ih
  | _ => exact node _ fun e he => absurd he List.not_mem_nil

theorem mem_entries_setChild {v new : Value} {token : String} {e : String × Value}
    (h : e ∈ (setChild token new v).entries) : e.2 = new ∨ e ∈ v.entries := by
  cases v with
  | map fields => exact (Entries.mem_insert h).imp (fun heq => by rw [heq]) id
  | list items =>
      simp only [setChild] at h
      split at h
      · obtain ⟨j, htoken, hitem⟩ := mem_numbered_iff.mp h
        rw [List.getElem?_set] at hitem
        split at hitem
        · split at hitem
          · exact Or.inl (Option.some.inj hitem).symm
          · exact absurd hitem (by simp)
        · exact Or.inr (mem_numbered_iff.mpr ⟨j, htoken, hitem⟩)
      · exact Or.inr h
  | _ => exact Or.inr h

/-! ### Entries are children -/

theorem mem_entries_of_child? {v c : Value} {token : String} (h : v.child? token = some c) :
    (token, c) ∈ v.entries := by
  cases v with
  | map fields => exact Entries.mem_of_find? h
  | list items =>
      obtain ⟨i, hi, hc⟩ := Option.bind_eq_some_iff.mp h
      exact mem_numbered_iff.mpr ⟨i, by rw [Nat.zero_add]; exact token?_eq_some_iff.mpr hi, hc⟩
  | _ => exact absurd h (by simp [child?])

theorem child?_of_mem_entries {v : Value} (hv : v.WellFormed) {e : String × Value}
    (he : e ∈ v.entries) : v.child? e.1 = some e.2 := by
  cases v with
  | map fields => exact (wellFormed_map_iff.mp hv).1.find?_of_mem he
  | list items =>
      obtain ⟨j, htoken, hitem⟩ := mem_numbered_iff.mp he
      rw [Nat.zero_add] at htoken
      rw [child?, token?_eq_some_iff.mp htoken]
      exact hitem
  | _ => exact absurd he List.not_mem_nil

/-- An entry of a node is a node of the document. -/
theorem node?_child_of_mem_entries {root v : Value} {path : Path} (hn : root.node? path = some v)
    (hv : v.WellFormed) {e : String × Value} (he : e ∈ v.entries) :
    root.node? (path.child e.1) = some e.2 := by
  rw [node?_concat, hn, Option.bind_some]
  exact child?_of_mem_entries hv he

theorem keys_numbered_of_length_eq {items items' : List Value} (h : items.length = items'.length)
    (i : Nat) : Entries.keys (numbered i items) = Entries.keys (numbered i items') := by
  induction items generalizing i items' with
  | nil =>
      obtain rfl := List.length_eq_zero_iff.mp h.symm
      rfl
  | cons v vs ih =>
      cases items' with
      | nil => exact absurd h (by simp)
      | cons w ws =>
          rw [numbered, numbered]
          cases token? i with
          | none => rfl
          | some token => exact congrArg (token :: ·) (ih (Nat.succ.inj h) (i + 1))

/-- The tokens of the children, and their order, can be read off the head. -/
theorem keys_entries_of_head_eq {v w : Value} (h : v.head = w.head) :
    Entries.keys v.entries = Entries.keys w.entries := by
  cases w with
  | map fields =>
      obtain ⟨fields', rfl, hkeys⟩ := map_of_head_eq h
      exact hkeys
  | list items =>
      obtain ⟨items', rfl, hlength, -⟩ := list_of_head_eq h
      exact keys_numbered_of_length_eq hlength 0
  | _ => rw [eq_of_head_eq_of_scalar h rfl]

/-- **A node is its head with its children.** -/
theorem eq_of_head_eq {v w : Value} (hv : v.WellFormed) (hw : w.WellFormed)
    (h : v.head = w.head) (hchildren : ∀ token, v.child? token = w.child? token) : v = w := by
  cases w with
  | map fields =>
      obtain ⟨fields', rfl, hkeys⟩ := map_of_head_eq h
      rw [Entries.ext_of_keys_eq (wellFormed_map_iff.mp hv).1 hkeys hchildren]
  | list items =>
      obtain ⟨items', rfl, hlength, hdrop⟩ := list_of_head_eq h
      congr 1
      refine List.ext_getElem? fun i => ?_
      by_cases hlt : i < 0x10000000000000000
      · have hi := index?_eq_some_iff.mpr ⟨rfl, hlt⟩
        simpa only [child?, hi, Option.bind_some] using hchildren (toString i)
      · obtain ⟨k, rfl⟩ := Nat.exists_eq_add_of_le (Nat.le_of_not_lt hlt)
        rw [← List.getElem?_drop, ← List.getElem?_drop, hdrop]
  | _ => exact eq_of_head_eq_of_scalar h rfl

/-- A node with the head of a document and well-formed children is one. -/
theorem WellFormed.of_head_eq {v w : Value} (hw : w.WellFormed) (h : v.head = w.head)
    (hchildren : ∀ token c, v.child? token = some c → c.WellFormed) : v.WellFormed := by
  cases w with
  | map fields =>
      obtain ⟨fields', rfl, hkeys⟩ := map_of_head_eq h
      have hdistinct : Entries.Distinct fields' := by
        unfold Entries.Distinct
        rw [hkeys]
        exact (wellFormed_map_iff.mp hw).1
      exact wellFormed_map_iff.mpr
        ⟨hdistinct, fun e he => hchildren e.1 e.2 (hdistinct.find?_of_mem he)⟩
  | list items =>
      obtain ⟨items', rfl, -, hdrop⟩ := list_of_head_eq h
      refine wellFormed_list_iff.mpr fun c hc => ?_
      obtain ⟨i, hi⟩ := List.getElem?_of_mem hc
      by_cases hlt : i < 0x10000000000000000
      · refine hchildren (toString i) c ?_
        rw [child?, index?_eq_some_iff.mpr ⟨rfl, hlt⟩]
        exact hi
      · obtain ⟨k, rfl⟩ := Nat.exists_eq_add_of_le (Nat.le_of_not_lt hlt)
        rw [← List.getElem?_drop, hdrop] at hi
        exact wellFormed_list_iff.mp hw c (List.mem_of_mem_drop (List.mem_of_getElem? hi))
  | _ => exact eq_of_head_eq_of_scalar h rfl ▸ hw

/-! ### The nodes of a document -/

mutual

/-- The number of nodes of a kind. -/
def count (kind : Value → Bool) : Value → Nat
  | .list items => (kind (.list items)).toNat + countItems kind items
  | .map fields => (kind (.map fields)).toNat + countFields kind fields
  | v => (kind v).toNat

/-- The number of nodes of a kind in the elements of a list. -/
def countItems (kind : Value → Bool) : List Value → Nat
  | [] => 0
  | v :: vs => count kind v + countItems kind vs

/-- The number of nodes of a kind in the entries of a map. -/
def countFields (kind : Value → Bool) : List (String × Value) → Nat
  | [] => 0
  | (_, v) :: es => count kind v + countFields kind es

end

variable {kind : Value → Bool}

/-- All nodes together are what a document is large. -/
theorem count_true (v : Value) : v.count (fun _ => true) = v.size := by
  induction v using Value.induction with
  | list items ih =>
      have hitems : countItems (fun _ => true) items = sizeItems items := by
        induction items with
        | nil => rfl
        | cons v vs hvs =>
            obtain ⟨hv, hrest⟩ := List.forall_mem_cons.mp ih
            rw [countItems, sizeItems, hv, hvs hrest]
      rw [count, size, hitems, Bool.toNat_true]
  | map fields ih =>
      have hfields : countFields (fun _ => true) fields = sizeFields fields := by
        induction fields with
        | nil => rfl
        | cons e es hes =>
            obtain ⟨he, hrest⟩ := List.forall_mem_cons.mp ih
            rw [countFields, sizeFields, he, hes hrest]
      rw [count, size, hfields, Bool.toNat_true]
  | _ => rfl

theorem countFields_numbered_le (i : Nat) (items : List Value) :
    countFields kind (numbered i items) ≤ countItems kind items := by
  induction items generalizing i with
  | nil => exact Nat.le_refl 0
  | cons v vs ih =>
      rw [numbered]
      cases token? i with
      | none => exact Nat.zero_le _
      | some token => exact Nat.add_le_add_left (ih (i + 1)) (v.count kind)

/-- A node is counted if it is of the kind, and what is in its entries is counted as well. -/
theorem countFields_entries_le (v : Value) :
    (kind v).toNat + countFields kind v.entries ≤ v.count kind := by
  cases v with
  | map fields => exact Nat.le_refl _
  | list items => exact Nat.add_le_add_left (countFields_numbered_le 0 items) _
  | _ => exact Nat.le_refl _

/-- The nodes of a kind below a node are no more than are counted in its entries. -/
theorem exists_nodes_below {es : List (String × Value)}
    (h : ∀ e ∈ es, ∃ paths : List Path, paths.length ≤ e.2.count kind ∧
      ∀ q w, e.2.node? q = some w → kind w = true → q ∈ paths) :
    ∃ paths : List Path, paths.length ≤ countFields kind es ∧
      ∀ e ∈ es, ∀ q w, e.2.node? q = some w → kind w = true → e.1 :: q ∈ paths := by
  induction es with
  | nil => exact ⟨[], Nat.zero_le _, fun e he => absurd he List.not_mem_nil⟩
  | cons e es ih =>
      obtain ⟨he, hes⟩ := List.forall_mem_cons.mp h
      obtain ⟨here, hherelength, hhere⟩ := he
      obtain ⟨there, htherelength, hthere⟩ := ih hes
      refine ⟨here.map (e.1 :: ·) ++ there, ?_, List.forall_mem_cons.mpr ⟨?_, ?_⟩⟩
      · rw [List.length_append, List.length_map, countFields]
        omega
      · intro q w hq hw
        exact List.mem_append_left there (List.mem_map.mpr ⟨q, hhere q w hq hw, rfl⟩)
      · intro e' he' q w hq hw
        exact List.mem_append_right _ (hthere e' he' q w hq hw)

/-- **A document has no more nodes of a kind than are counted.** -/
theorem exists_nodes_of_kind (kind : Value → Bool) (v : Value) :
    ∃ paths : List Path, paths.length ≤ v.count kind ∧
      ∀ q w, v.node? q = some w → kind w = true → q ∈ paths := by
  induction v using entries_induction with
  | node v ih =>
      obtain ⟨below, hlength, hbelow⟩ := exists_nodes_below ih
      have hcount := @countFields_entries_le kind v
      have hinside : ∀ token q w, v.node? (token :: q) = some w → kind w = true →
          token :: q ∈ below := by
        intro token q w hq hw
        rw [node?_cons] at hq
        obtain ⟨c, hc, hq⟩ := Option.bind_eq_some_iff.mp hq
        exact hbelow (token, c) (mem_entries_of_child? hc) q w hq hw
      cases hkind : kind v with
      | true =>
          rw [hkind, Bool.toNat_true] at hcount
          refine ⟨[] :: below, ?_, fun q w hq hw => ?_⟩
          · rw [List.length_cons]
            omega
          · cases q with
            | nil => exact List.mem_cons_self
            | cons token q => exact List.mem_cons_of_mem _ (hinside token q w hq hw)
      | false =>
          refine ⟨below, by omega, fun q w hq hw => ?_⟩
          cases q with
          | nil =>
              obtain rfl := Option.some.inj hq
              exact absurd (hkind.symm.trans hw) (by simp)
          | cons token q => exact hinside token q w hq hw

/-- **A document has no more nodes than it is large.** -/
theorem exists_nodes (v : Value) :
    ∃ paths : List Path, paths.length ≤ v.size ∧ ∀ q, (v.node? q).isSome = true → q ∈ paths := by
  obtain ⟨paths, hlength, hpaths⟩ := exists_nodes_of_kind (fun _ => true) v
  refine ⟨paths, count_true v ▸ hlength, fun q hq => ?_⟩
  obtain ⟨w, hw⟩ := Option.isSome_iff_exists.mp hq
  exact hpaths q w hw rfl

end Value

end Docweave
