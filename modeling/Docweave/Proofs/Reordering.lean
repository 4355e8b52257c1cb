import Docweave.Proofs.Children
import Docweave.Proofs.Directive
import Mathlib.Data.List.Perm.Basic

/-!
Documents that differ in nothing but the order of the keys of their maps.

`Reordered` pairs the children of two nodes by token, so it goes down to the nodes of two documents
path by path, and it can be shown from heads and children.  Documents that are reordered are the
same as documents, which is what `Value.same` decides.
-/

namespace Docweave

namespace Value

/-- At every map the keys of the one document are a permutation of the keys of the other, and
nothing else differs. -/
inductive Reordered : Value → Value → Prop
  | scalar {v : Value} (h : v.isContainer = false) : Reordered v v
  | list {items items' : List Value} (hlength : items.length = items'.length)
      (hitems : ∀ (i : Nat) (v v' : Value), items[i]? = some v → items'[i]? = some v' →
        Reordered v v') :
      Reordered (.list items) (.list items')
  | map {fields fields' : Fields}
      (hkeys : (Entries.keys fields).Perm (Entries.keys fields'))
      (hfields : ∀ (key : String) (v v' : Value), Entries.find? fields key = some v →
        Entries.find? fields' key = some v' → Reordered v v') :
      Reordered (.map fields) (.map fields')

/-! ### Equality of documents -/

theorem sameItems_iff {xs ys : List Value} :
    sameItems xs ys = true ↔ List.Forall₂ (fun x y => x.same y = true) xs ys := by
  induction xs generalizing ys with
  | nil => cases ys <;> simp [sameItems]
  | cons x xs ih => cases ys <;> simp [sameItems, ih]

theorem sameFields_iff {es fs : Fields} :
    sameFields es fs = true ↔
      ∀ e ∈ es, ∃ w, Entries.find? fs e.1 = some w ∧ e.2.same w = true := by
  induction es with
  | nil => simp [sameFields]
  | cons e es ih =>
      obtain ⟨k, v⟩ := e
      rw [sameFields, Bool.and_eq_true, ih, List.forall_mem_cons]
      refine and_congr_left' ?_
      cases Entries.find? fs k <;> simp

namespace Reordered

variable {v w c : Value} {p : Path} {token : String}

theorem refl (v : Value) : Reordered v v := by
  induction v using Value.induction with
  | list items ih =>
      refine .list rfl fun i v v' hv hv' => ?_
      obtain rfl := Option.some.inj (hv.symm.trans hv')
      exact ih v (List.mem_of_getElem? hv)
  | map fields ih =>
      refine .map (.refl _) fun key v v' hv hv' => ?_
      obtain rfl := Option.some.inj (hv.symm.trans hv')
      exact ih (key, v) (Entries.mem_of_find? hv)
  | _ => exact .scalar rfl

theorem symm (h : Reordered v w) : Reordered w v := by
  induction h with
  | scalar h => exact .scalar h
  | list hlength _ ih => exact .list hlength.symm fun i v v' hv hv' => ih i v' v hv' hv
  | map hkeys _ ih => exact .map hkeys.symm fun key v v' hv hv' => ih key v' v hv' hv

/-- The entries of a map can be put in any order. -/
theorem of_perm {fields fields' : Fields} (hdistinct : Entries.Distinct fields)
    (h : fields.Perm fields') : Reordered (.map fields) (.map fields') := by
  refine .map (h.map Prod.fst) fun key v v' hv hv' => ?_
  obtain rfl := Option.some.inj (hv.symm.trans ((hdistinct.find?_of_perm h key).trans hv'))
  exact refl v

/-! ### Nodes -/

theorem exists_child (h : Reordered v w) (hc : v.child? token = some c) :
    ∃ d, w.child? token = some d ∧ Reordered c d := by
  cases h with
  | scalar hscalar => cases v <;> simp_all [child?, isContainer]
  | @list items items' hlength hitems =>
      obtain ⟨i, hi, hc⟩ := Option.bind_eq_some_iff.mp hc
      obtain ⟨hlt, -⟩ := List.getElem?_eq_some_iff.mp hc
      rw [hlength] at hlt
      have hd := List.getElem?_eq_getElem hlt
      exact ⟨_, by rw [child?, hi, Option.bind_some, hd], hitems i c _ hc hd⟩
  | @map fields fields' hkeys hfields =>
      have hmem := hkeys.mem_iff.mp
        ((Entries.find?_isSome_iff fields token).mp (Option.isSome_of_eq_some hc))
      obtain ⟨d, hd⟩ :=
        Option.isSome_iff_exists.mp ((Entries.find?_isSome_iff fields' token).mpr hmem)
      exact ⟨d, hd, hfields token c d hc hd⟩

theorem exists_node (h : Reordered v w) (hn : v.node? p = some c) :
    ∃ d, w.node? p = some d ∧ Reordered c d := by
  induction p generalizing v w with
  | nil =>
      rw [node?_nil] at hn
      exact ⟨w, node?_nil w, Option.some.inj hn ▸ h⟩
  | cons token p ih =>
      rw [node?_cons] at hn
      obtain ⟨x, hx, hn⟩ := Option.bind_eq_some_iff.mp hn
      obtain ⟨y, hy, hxy⟩ := h.exists_child hx
      obtain ⟨d, hd, hcd⟩ := ih hxy hn
      exact ⟨d, by rw [node?_cons, hy, Option.bind_some, hd], hcd⟩

theorem isDirective_eq {markers : List String} (h : Reordered v w) :
    isDirective markers v = isDirective markers w := by
  cases h with
  | scalar _ => rfl
  | list _ _ => rfl
  | map hkeys _ =>
      rw [Bool.eq_iff_iff, isDirective_map_iff, isDirective_map_iff]
      simp only [Entries.contains, Entries.find?_isSome_iff, hkeys.mem_iff]

theorem wellFormed (h : Reordered v w) (hv : v.WellFormed) : w.WellFormed := by
  induction h with
  | scalar _ => exact hv
  | @list items items' hlength _ ih =>
      refine wellFormed_list_iff.mpr fun d hd => ?_
      obtain ⟨i, hi, rfl⟩ := List.getElem_of_mem hd
      exact ih i _ _ (List.getElem?_eq_getElem (hlength ▸ hi)) (List.getElem?_eq_getElem hi)
        (wellFormed_list_iff.mp hv _ (List.getElem_mem _))
  | @map fields fields' hkeys _ ih =>
      obtain ⟨hdistinct, hfields⟩ := wellFormed_map_iff.mp hv
      have hdistinct' : Entries.Distinct fields' := hkeys.nodup_iff.mp hdistinct
      refine wellFormed_map_iff.mpr ⟨hdistinct', fun e he => ?_⟩
      have hfind := hdistinct'.find?_of_mem he
      have hmem := hkeys.mem_iff.mpr
        ((Entries.find?_isSome_iff fields' e.1).mp (Option.isSome_of_eq_some hfind))
      obtain ⟨c, hc⟩ :=
        Option.isSome_iff_exists.mp ((Entries.find?_isSome_iff fields e.1).mpr hmem)
      exact ih e.1 c e.2 hc hfind (hfields (e.1, c) (Entries.mem_of_find? hc))

/-- **Documents that are reordered are the same.** -/
theorem same (h : Reordered v w) (hv : v.WellFormed) : v.same w = true := by
  induction h with
  | @scalar v hscalar =>
      cases v with
      | list _ | map _ => exact absurd hscalar (by simp [isContainer])
      | _ => simp [Value.same, Number.same_self]
  | @list items items' hlength _ ih =>
      rw [Value.same, sameItems_iff, List.forall₂_iff_get]
      refine ⟨hlength, fun i hi hi' => ?_⟩
      exact ih i _ _ (List.getElem?_eq_getElem hi) (List.getElem?_eq_getElem hi')
        (wellFormed_list_iff.mp hv _ (List.get_mem items ⟨i, hi⟩))
  | @map fields fields' hkeys _ ih =>
      obtain ⟨hdistinct, hfields⟩ := wellFormed_map_iff.mp hv
      have hlength : fields.length = fields'.length := by
        simpa [Entries.keys] using hkeys.length_eq
      rw [Value.same, Bool.and_eq_true, beq_iff_eq, sameFields_iff]
      refine ⟨hlength, fun e he => ?_⟩
      have hmem := hkeys.mem_iff.mp (List.mem_map.mpr ⟨e, he, rfl⟩)
      obtain ⟨d, hd⟩ :=
        Option.isSome_iff_exists.mp ((Entries.find?_isSome_iff fields' e.1).mpr hmem)
      exact ⟨d, hd, ih e.1 e.2 d (hdistinct.find?_of_mem he) hd (hfields e he)⟩

/-- Nodes are reordered if their heads are those of reordered nodes and their children are
reordered. -/
theorem of_heads {v' w' : Value} (h : Reordered w w') (hv : v.head = w.head)
    (hv' : v'.head = w'.head) (hchildren : ∀ token c c', v.child? token = some c →
      v'.child? token = some c' → Reordered c c') : Reordered v v' := by
  cases h with
  | scalar hscalar =>
      rw [eq_of_head_eq_of_scalar hv hscalar, eq_of_head_eq_of_scalar hv' hscalar]
      exact .scalar hscalar
  | @list items items' hlength hitems =>
      obtain ⟨xs, rfl, hxs, hxsfar⟩ := list_of_head_eq hv
      obtain ⟨ys, rfl, hys, hysfar⟩ := list_of_head_eq hv'
      refine .list (hxs.trans (hlength.trans hys.symm)) fun i c c' hc hc' => ?_
      by_cases hlt : i < 0x10000000000000000
      · have hi := index?_eq_some_iff.mpr ⟨rfl, hlt⟩
        exact hchildren (toString i) c c' (by rw [child?, hi, Option.bind_some, hc])
          (by rw [child?, hi, Option.bind_some, hc'])
      · -- Elements beyond what 64 bits count belong to the head.
        obtain ⟨k, rfl⟩ := Nat.exists_eq_add_of_le (Nat.le_of_not_lt hlt)
        rw [← List.getElem?_drop, hxsfar, List.getElem?_drop] at hc
        rw [← List.getElem?_drop, hysfar, List.getElem?_drop] at hc'
        exact hitems _ c c' hc hc'
  | @map fields fields' hkeys _ =>
      obtain ⟨xs, rfl, hxs⟩ := map_of_head_eq hv
      obtain ⟨ys, rfl, hys⟩ := map_of_head_eq hv'
      exact .map (hxs ▸ hys ▸ hkeys) hchildren

end Reordered

/-- A node can be given other children one by one. -/
theorem exists_of_children (w : Value) {R : String → Value → Prop}
    (h : ∀ token, (w.child? token).isSome = true → ∃ u, R token u) :
    ∃ v : Value, v.head = w.head ∧ ∀ token u, v.child? token = some u → R token u := by
  have hsome : ∀ tokens : List String, ∃ v : Value, v.head = w.head ∧
      ∀ token ∈ tokens, ∀ u, v.child? token = some u → R token u := by
    intro tokens
    induction tokens with
    | nil => exact ⟨w, rfl, fun token htoken => absurd htoken List.not_mem_nil⟩
    | cons token tokens ih =>
        obtain ⟨v, hhead, hv⟩ := ih
        cases hc : v.child? token with
        | none =>
            refine ⟨v, hhead, List.forall_mem_cons.mpr ⟨fun u hu => ?_, hv⟩⟩
            exact absurd (hc.symm.trans hu) (by simp)
        | some c =>
            obtain ⟨u, hu⟩ := h token (by
              rw [← child?_isSome_of_head_eq hhead, hc, Option.isSome_some])
            refine ⟨setChild token u v, (head_setChild hc u).trans hhead, ?_⟩
            intro other hother x hx
            by_cases hne : token = other
            · subst hne
              rw [child?_setChild_self hc] at hx
              exact Option.some.inj hx ▸ hu
            · rw [child?_setChild_of_ne v hne] at hx
              exact hv other ((List.mem_cons.mp hother).resolve_left (Ne.symm hne)) x hx
  obtain ⟨v, hhead, hv⟩ := hsome (Entries.keys w.entries)
  refine ⟨v, hhead, fun token u hu => hv token ?_ u hu⟩
  have hchild := child?_isSome_of_head_eq hhead token
  rw [hu, Option.isSome_some] at hchild
  obtain ⟨c, hc⟩ := Option.isSome_iff_exists.mp hchild.symm
  exact List.mem_map.mpr ⟨_, mem_entries_of_child? hc, rfl⟩

end Value

/-- What is the same as a directive is one. -/
theorem isDirective_of_same {markers : List String} {v w : Value} (h : v.same w = true)
    (hv : isDirective markers v = true) : isDirective markers w = true := by
  cases v with
  | map es =>
      cases w with
      | map fs =>
          rw [Value.same, Bool.and_eq_true] at h
          obtain ⟨marker, hmarker, hcontains⟩ := isDirective_map_iff.mp hv
          obtain ⟨x, hx⟩ := Option.isSome_iff_exists.mp hcontains
          obtain ⟨y, hy, -⟩ := Value.sameFields_iff.mp h.2 _ (Entries.mem_of_find? hx)
          exact isDirective_map_iff.mpr ⟨marker, hmarker, Option.isSome_of_eq_some hy⟩
      | _ => exact absurd h (by simp [Value.same])
  | _ => exact absurd hv (by simp [isDirective])

end Docweave
