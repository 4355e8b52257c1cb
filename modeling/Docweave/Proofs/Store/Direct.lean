import Docweave.Proofs.WellFormed
import Docweave.Store.Direct

/-!
What a document answers, and that the direct store answers it.

`found`, `written` and `removed?` say what a look-up, an update and a removal come to, in terms of
nodes: which node is there, which document results, which kind of fault it is.  They fix every
observable answer but the wording of a fault.  The direct store is shown here to give these
answers; the indexed store gives them as long as its index fits.
-/

namespace Docweave

namespace Value

/-- What a look-up comes to, with faults by kind. -/
def found (root : Value) (pointer : Pointer) : Except FaultKind Value :=
  match pointer.path? with
  | none => .error .refused
  | some path =>
    match root.node? path with
    | some v => .ok v
    | none => .error .notFound

/-- What an update comes to: the parent of the node is put anew, with the child in it. -/
def written (root : Value) (pointer : Pointer) (new : Value) : Except FaultKind Value :=
  match pointer.path? with
  | none => .error .refused
  | some path =>
    match path.getLast? with
    | none => .error .refused
    | some last =>
      match root.node? path.parent with
      | none => .error .notFound
      | some parent =>
        match writeChild path.parent last new parent with
        | .ok parent => .ok (root.put path.parent parent)
        | .error (.miss _) => .error .notFound
        | .error (.refused _) => .error .refused

/-- What a removal comes to: the parent of the node is put anew, without the child. -/
def removed? (root : Value) (pointer : Pointer) : Option Value :=
  match pointer.path? with
  | none => none
  | some path =>
    match path.getLast? with
    | none => some root.cleared
    | some last =>
      (root.node? path.parent).bind fun parent =>
        (removeChild? last parent).map fun rest => root.put path.parent rest

theorem found_isOk_iff {root : Value} {pointer : Pointer} :
    (root.found pointer).isOk = true ↔
      ∃ path, pointer.path? = some path ∧ (root.node? path).isSome = true := by
  unfold found
  cases pointer.path? with
  | none => simp [Except.isOk, Except.toBool]
  | some path => cases hn : root.node? path <;> simp [Except.isOk, Except.toBool, hn]

/-- What an update comes to, if it comes to a document. -/
theorem exists_of_written {root new root' : Value} {pointer : Pointer}
    (h : root.written pointer new = .ok root') :
    ∃ path last parent parent', pointer.path? = some (path.child last) ∧
      root.node? path = some parent ∧ writeChild path last new parent = .ok parent' ∧
      root' = root.put path parent' := by
  unfold written at h
  split at h
  · exact absurd h (by simp)
  rename_i whole hwhole
  rcases whole.eq_nil_or_child with rfl | ⟨path, last, rfl⟩
  · exact absurd h (by simp)
  simp only [Path.getLast?_child, Path.parent_child] at h
  split at h
  · exact absurd h (by simp)
  rename_i parent hparent
  split at h
  · rename_i parent' hwrite
    exact ⟨path, last, parent, parent', hwhole, hparent, hwrite, (Except.ok.inj h).symm⟩
  · exact absurd h (by simp)
  · exact absurd h (by simp)

/-- What a removal comes to, if it comes to a document. -/
theorem exists_of_removed? {root root' : Value} {pointer : Pointer}
    (h : root.removed? pointer = some root') :
    pointer.path? = some [] ∧ root' = root.cleared ∨
      ∃ path last parent parent', pointer.path? = some (path.child last) ∧
        root.node? path = some parent ∧ removeChild? last parent = some parent' ∧
        root' = root.put path parent' := by
  unfold removed? at h
  split at h
  · exact absurd h (by simp)
  rename_i whole hwhole
  rcases whole.eq_nil_or_child with rfl | ⟨path, last, rfl⟩
  · exact .inl ⟨hwhole, (Option.some.inj h).symm⟩
  simp only [Path.getLast?_child, Path.parent_child] at h
  obtain ⟨parent, hparent, h⟩ := Option.bind_eq_some_iff.mp h
  obtain ⟨parent', hremove, rfl⟩ := Option.map_eq_some_iff.mp h
  exact .inr ⟨path, last, parent, parent', hwhole, hparent, hremove, rfl⟩

theorem WellFormed.written {root new root' : Value} {pointer : Pointer} (hroot : root.WellFormed)
    (hnew : new.WellFormed) (h : root.written pointer new = .ok root') : root'.WellFormed := by
  obtain ⟨path, last, parent, parent', -, hparent, hwrite, rfl⟩ := exists_of_written h
  exact hroot.put ((hroot.of_node? hparent).writeChild hnew hwrite) _

theorem WellFormed.removed? {root root' : Value} {pointer : Pointer} (hroot : root.WellFormed)
    (h : root.removed? pointer = some root') : root'.WellFormed := by
  obtain ⟨-, rfl⟩ | ⟨path, last, parent, parent', -, hparent, hremove, rfl⟩ := exists_of_removed? h
  · exact WellFormed.cleared root
  · exact hroot.put ((hroot.of_node? hparent).removeChild? hremove) _

/-! ### Edits along a path -/

/-- An edit changes the node that a walk comes to, or misses where the walk does. -/
theorem editAt_eq_walk (change : Value → Except EditFault Value) (seen p : Path) (v : Value) :
    editAt change seen p v =
      match walk seen p v with
      | .ok w => (change w).map fun new => v.put p new
      | .error miss => .error (.miss miss) := by
  induction p generalizing seen v with
  | nil =>
      simp only [editAt, walk, put_nil]
      cases change v <;> rfl
  | cons token p ih =>
      rw [editAt, walk]
      cases hc : child seen token v with
      | error miss => rfl
      | ok c =>
          simp only [ih, put_cons_of_child? (child_eq_ok_iff.mp hc)]
          cases walk (seen ++ [token]) p c with
          | error miss => rfl
          | ok w =>
              simp only
              cases change w <;> rfl

theorem editAt_eq_map {change : Value → Except EditFault Value} {seen p : Path} {v w : Value}
    (h : v.node? p = some w) : editAt change seen p v = (change w).map fun new => v.put p new := by
  rw [editAt_eq_walk, walk_eq_ok_iff.mpr h]

theorem editAt_eq_miss (change : Value → Except EditFault Value) (seen : Path) {p : Path}
    {v : Value} (h : v.node? p = none) : ∃ miss, editAt change seen p v = .error (.miss miss) := by
  obtain ⟨miss, hmiss⟩ := walk_eq_error seen h
  exact ⟨miss, by rw [editAt_eq_walk, hmiss]⟩

theorem removeAt?_child (p : Path) (last : String) (v : Value) :
    removeAt? (p.child last) v =
      (v.node? p).bind fun w => (removeChild? last w).map fun rest => v.put p rest := by
  induction p generalizing v with
  | nil => simp [Path.child, removeAt?]
  | cons token p ih =>
      have hstep : removeAt? (token :: Path.child p last) v =
          (v.child? token).bind fun c =>
            (removeAt? (Path.child p last) c).map fun new => setChild token new v := by
        obtain ⟨x, xs, hx⟩ := List.exists_cons_of_ne_nil (Path.child_ne_nil p last)
        rw [hx, removeAt?.eq_3 _ _ _ (List.cons_ne_nil x xs)]
        cases hc : v.child? token with
        | none =>
            obtain ⟨miss, hmiss⟩ := child_eq_error [] hc
            simp [hmiss]
        | some c => simp [child_eq_ok_iff.mpr hc]
      show removeAt? (token :: Path.child p last) v = _
      rw [hstep, node?_cons, Option.bind_assoc]
      refine Option.bind_congr fun c hc => ?_
      rw [ih, Option.map_bind]
      refine Option.bind_congr fun w _ => ?_
      simp only [Function.comp_def, Option.map_map, put_cons_of_child? hc]

end Value

namespace Direct

variable {store : Direct}

theorem get_mapError (store : Direct) (pointer : Pointer) :
    (store.get pointer).mapError Fault.kind = store.content.found pointer := by
  unfold get Value.lookup Value.found
  cases pointer.path? with
  | none => rfl
  | some path =>
      simp only
      cases hn : store.content.node? path with
      | some v => rw [Value.walk_eq_ok_iff.mpr hn]; rfl
      | none =>
          obtain ⟨miss, hmiss⟩ := Value.walk_eq_error [] hn
          rw [hmiss]
          rfl

theorem has_eq (store : Direct) (pointer : Pointer) :
    store.has pointer = (store.content.found pointer).isOk := by
  rw [← get_mapError, has]
  cases store.get pointer <;> rfl

theorem update_mapError (store : Direct) (pointer : Pointer) (new : Value) :
    ((store.update pointer new).map Direct.content).mapError Fault.kind =
      store.content.written pointer new := by
  unfold update Value.written
  cases pointer.path? with
  | none => rfl
  | some path =>
      simp only
      cases path.getLast? with
      | none => rfl
      | some last =>
          simp only
          cases hn : store.content.node? path.parent with
          | none =>
              obtain ⟨miss, hmiss⟩ := Value.editAt_eq_miss
                (Value.writeChild path.parent last new) [] hn
              rw [hmiss]
              rfl
          | some parent =>
              rw [Value.editAt_eq_map hn]
              simp only
              rcases Value.writeChild path.parent last new parent with (_ | _) | _ <;> rfl

theorem delete?_map (store : Direct) (pointer : Pointer) :
    (store.delete? pointer).map Direct.content = store.content.removed? pointer := by
  unfold delete? Value.removed?
  cases pointer.path? with
  | none => rfl
  | some path =>
      rcases path.eq_nil_or_child with rfl | ⟨p, last, rfl⟩
      · rfl
      · have hremove := Value.removeAt?_child p last store.content
        obtain ⟨x, xs, hx⟩ := List.exists_cons_of_ne_nil (p.child_ne_nil last)
        simp only [Path.getLast?_child, Path.parent_child]
        rw [← hremove, hx, Option.map_map]
        exact Option.map_id_apply

end Direct

end Docweave
