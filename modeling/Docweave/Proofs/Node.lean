import Docweave.Proofs.Token

/-!
Documents as trees of nodes.

The definitions that run walk a document and report where a walk fails.  Proofs want the tree
itself: `child?` is the child under a token, `node?` the node at the end of a path, and `put` the
document with another value in the place of an existing node.  The laws that matter say what a
`put` does to every node of the document.

  * At and below the path stands what was put.
  * Beside the path nothing changes.
  * Above the path a node keeps its head: its kind, its keys in order, its length.

`head` is the part of a node that does not belong to its children.  Elements of a list beyond what
64 bits count are no children, because no token names them, so they are part of the head.
-/

namespace Docweave

namespace Value

/-- Induction over documents: a list has the hypothesis for its elements, a map for the values of
its entries. -/
@[elab_as_elim]
theorem induction {motive : Value → Prop} (null : motive .null) (bool : ∀ b, motive (.bool b))
    (number : ∀ n, motive (.number n)) (text : ∀ s, motive (.text s))
    (list : ∀ items, (∀ v ∈ items, motive v) → motive (.list items))
    (map : ∀ fields, (∀ e ∈ fields, motive e.2) → motive (.map fields)) (v : Value) : motive v :=
  Value.rec
    (motive_2 := fun items => ∀ v ∈ items, motive v)
    (motive_3 := fun fields => ∀ e ∈ fields, motive e.2)
    (motive_4 := fun e => motive e.2)
    null bool number text list map
    (fun _ h => absurd h List.not_mem_nil)
    (fun _ _ hv hvs _ h => (List.mem_cons.mp h).elim (fun heq => heq ▸ hv) (hvs _))
    (fun _ h => absurd h List.not_mem_nil)
    (fun _ _ he hes _ h => (List.mem_cons.mp h).elim (fun heq => heq ▸ he) (hes _))
    (fun _ _ hv => hv) v

/-- The child that a token names. -/
def child? (v : Value) (token : String) : Option Value :=
  match v with
  | .map fields => Entries.find? fields token
  | .list items => (index? token).bind fun i => items[i]?
  | _ => none

/-- The node at the end of a path. -/
def node? : Value → Path → Option Value
  | v, [] => some v
  | v, token :: path => (v.child? token).bind fun c => c.node? path

/-- The document with another value in the place of the node at the end of a path. -/
def put : Value → Path → Value → Value
  | _, [], new => new
  | v, token :: path, new =>
    match v.child? token with
    | some c => setChild token (c.put path new) v
    | none => v

/-! ### Heads -/

/-- What a node is apart from its children. -/
inductive Head where
  | null
  | bool (b : Bool)
  | number (n : Number)
  | text (s : String)
  | list (length : Nat) (far : List Value)
  | map (keys : List String)

/-- The kind of a node with the length of a list, the keys of a map, or the scalar itself. -/
def head : Value → Head
  | .null => .null
  | .bool b => .bool b
  | .number n => .number n
  | .text s => .text s
  | .list items => .list items.length (items.drop 0x10000000000000000)
  | .map fields => .map (Entries.keys fields)

theorem map_of_head_eq {v : Value} {fields : Fields} (h : v.head = head (.map fields)) :
    ∃ fields', v = .map fields' ∧ Entries.keys fields' = Entries.keys fields := by
  cases v with
  | map fields' => exact ⟨fields', rfl, Head.map.inj h⟩
  | _ => exact absurd h (by simp [head])

theorem list_of_head_eq {v : Value} {items : List Value} (h : v.head = head (.list items)) :
    ∃ items', v = .list items' ∧ items'.length = items.length ∧
      items'.drop 0x10000000000000000 = items.drop 0x10000000000000000 := by
  cases v with
  | list items' => exact ⟨items', rfl, Head.list.inj h⟩
  | _ => exact absurd h (by simp [head])

/-- A scalar is its own head. -/
theorem eq_of_head_eq_of_scalar {v w : Value} (h : v.head = w.head)
    (hw : w.isContainer = false) : v = w := by
  cases w <;> cases v <;> simp_all [head, isContainer]

/-- Which tokens name a child can be read off the head. -/
theorem child?_isSome_of_head_eq {v w : Value} (h : v.head = w.head) (token : String) :
    (v.child? token).isSome = (w.child? token).isSome := by
  cases w with
  | map fields =>
      obtain ⟨fields', rfl, hkeys⟩ := map_of_head_eq h
      rw [Bool.eq_iff_iff]
      simp only [child?, Entries.find?_isSome_iff, hkeys]
  | list items =>
      obtain ⟨items', rfl, hlength, -⟩ := list_of_head_eq h
      simp only [child?]
      cases index? token with
      | none => rfl
      | some i =>
          rw [Option.bind_some, Option.bind_some, Bool.eq_iff_iff, Option.isSome_iff_exists,
            Option.isSome_iff_exists]
          simp only [List.getElem?_eq_some_iff, hlength]
          simp
  | _ =>
      rw [eq_of_head_eq_of_scalar h rfl]

theorem exists_child?_of_head_eq {v w c : Value} (h : v.head = w.head) {token : String}
    (hc : v.child? token = some c) : ∃ d, w.child? token = some d := by
  rw [← Option.isSome_iff_exists, ← child?_isSome_of_head_eq h, hc, Option.isSome_some]

/-! ### One step down -/

theorem child_eq_ok_iff {seen : Path} {token : String} {v c : Value} :
    child seen token v = .ok c ↔ v.child? token = some c := by
  cases v with
  | map fields =>
      simp only [child, child?]
      cases Entries.find? fields token <;> simp
  | list items =>
      simp only [child, child?]
      cases index? token with
      | none => simp
      | some i =>
          simp only [Option.bind_some]
          cases items[i]? <;> simp
  | _ => simp [child, child?]

theorem child_eq_error (seen : Path) {token : String} {v : Value} (h : v.child? token = none) :
    ∃ miss, child seen token v = .error miss := by
  cases hc : child seen token v with
  | error miss => exact ⟨miss, rfl⟩
  | ok c => rw [child_eq_ok_iff.mp hc] at h; exact absurd h (by simp)

theorem child?_setChild_self {v c : Value} {token : String} (h : v.child? token = some c)
    (new : Value) : (setChild token new v).child? token = some new := by
  cases v with
  | map fields => simp [setChild, child?, Entries.find?_insert]
  | list items =>
      simp only [child?] at h
      cases hi : index? token with
      | none => simp [hi] at h
      | some i =>
          simp only [hi, Option.bind_some] at h
          have hlt : i < items.length := (List.getElem?_eq_some_iff.mp h).1
          simp [setChild, child?, hi, hlt]
  | _ => simp [child?] at h

theorem child?_setChild_of_ne (v : Value) {token other : String} (hne : token ≠ other)
    (new : Value) : (setChild token new v).child? other = v.child? other := by
  cases v with
  | map fields => simp only [setChild, child?, Entries.find?_insert, if_neg hne]
  | list items =>
      simp only [setChild]
      cases hi : index? token with
      | none => rfl
      | some i =>
          simp only [child?]
          cases hj : index? other with
          | none => rfl
          | some j =>
              have hij : i ≠ j := by
                rintro rfl
                exact hne (index?_inj hi hj)
              simp only [Option.bind_some, List.getElem?_set_ne hij]
  | _ => rfl

/-- Exchanging an existing child keeps the head. -/
theorem head_setChild {v c : Value} {token : String} (h : v.child? token = some c)
    (new : Value) : (setChild token new v).head = v.head := by
  cases v with
  | map fields =>
      have hmem : token ∈ Entries.keys fields := by
        rw [← Entries.find?_isSome_iff]
        exact Option.isSome_of_eq_some h
      simp only [setChild, head, Entries.keys_insert_of_mem new hmem]
  | list items =>
      simp only [setChild]
      cases hi : index? token with
      | none => rfl
      | some i =>
          have hlt : i < 0x10000000000000000 := (index?_eq_some_iff.mp hi).2
          simp only [head, List.length_set, List.drop_set_of_lt hlt]
  | _ => rfl

/-! ### Many steps down -/

@[simp] theorem node?_nil (v : Value) : v.node? [] = some v := by
  rw [node?]

theorem node?_cons (v : Value) (token : String) (path : Path) :
    v.node? (token :: path) = (v.child? token).bind fun c => c.node? path := by
  rw [node?]

theorem node?_append (v : Value) (p q : Path) :
    v.node? (p ++ q) = (v.node? p).bind fun w => w.node? q := by
  induction p generalizing v with
  | nil => simp
  | cons token p ih =>
      simp only [List.cons_append, node?_cons, Option.bind_assoc, ih]

theorem node?_concat (v : Value) (p : Path) (token : String) :
    v.node? (p.child token) = (v.node? p).bind fun w => w.child? token := by
  rw [Path.child, node?_append]
  congr
  funext w
  rw [node?_cons]
  cases w.child? token <;> simp

/-- Above a node there is a node. -/
theorem node?_isSome_of_prefix {v : Value} {p q : Path} (hpq : p <+: q)
    (h : (v.node? q).isSome = true) : (v.node? p).isSome = true := by
  obtain ⟨r, rfl⟩ := hpq
  rw [node?_append] at h
  cases hp : v.node? p with
  | none => simp [hp] at h
  | some w => rfl

theorem walk_eq_ok_iff {seen path : Path} {v w : Value} :
    walk seen path v = .ok w ↔ v.node? path = some w := by
  induction path generalizing seen v with
  | nil => simp [walk]
  | cons token path ih =>
      rw [walk, node?_cons]
      cases hc : v.child? token with
      | none =>
          obtain ⟨miss, hmiss⟩ := child_eq_error seen hc
          simp [hmiss]
      | some c =>
          rw [child_eq_ok_iff.mpr hc]
          simpa using ih

theorem walk_eq_error (seen : Path) {path : Path} {v : Value} (h : v.node? path = none) :
    ∃ miss, walk seen path v = .error miss := by
  cases hw : walk seen path v with
  | error miss => exact ⟨miss, rfl⟩
  | ok w => rw [walk_eq_ok_iff.mp hw] at h; exact absurd h (by simp)

/-- A look-up finds the node at the path of its pointer. -/
theorem lookup_eq_ok_iff {root v : Value} {pointer : Pointer} :
    root.lookup pointer = .ok v ↔ ∃ path, pointer.path? = some path ∧ root.node? path = some v := by
  unfold lookup
  cases hp : pointer.path? with
  | none => simp
  | some path =>
      have hwalk : walk [] path root = .ok v ↔ root.node? path = some v := walk_eq_ok_iff
      simp only [Option.some.injEq, exists_eq_left', ← hwalk]
      cases walk [] path root <;> simp

/-! ### Putting a value in the place of a node -/

@[simp] theorem put_nil (v new : Value) : v.put [] new = new := by
  rw [put]

theorem put_cons_of_child? {v c : Value} {token : String} (h : v.child? token = some c)
    (path : Path) (new : Value) :
    v.put (token :: path) new = setChild token (c.put path new) v := by
  rw [put, h]

theorem put_cons_of_child?_eq_none {v : Value} {token : String} (h : v.child? token = none)
    (path : Path) (new : Value) : v.put (token :: path) new = v := by
  rw [put, h]

/-- At and below the path stands what was put. -/
theorem node?_put_append {v : Value} {p : Path} (h : (v.node? p).isSome = true) (new : Value)
    (q : Path) : (v.put p new).node? (p ++ q) = new.node? q := by
  induction p generalizing v with
  | nil => simp
  | cons token p ih =>
      rw [node?_cons] at h
      cases hc : v.child? token with
      | none => simp [hc] at h
      | some c =>
          rw [hc, Option.bind_some] at h
          rw [put_cons_of_child? hc, List.cons_append, node?_cons, child?_setChild_self hc,
            Option.bind_some, ih h]

theorem node?_put_self {v : Value} {p : Path} (h : (v.node? p).isSome = true) (new : Value) :
    (v.put p new).node? p = some new := by
  have := node?_put_append h new []
  rwa [List.append_nil, node?_nil] at this

/-- Above the path a node holds what was put. -/
theorem node?_put_above (v : Value) (p r : Path) (new : Value) :
    (v.put (p ++ r) new).node? p = (v.node? p).map fun w => w.put r new := by
  induction p generalizing v with
  | nil => simp
  | cons token p ih =>
      rw [List.cons_append, node?_cons, node?_cons]
      cases hc : v.child? token with
      | none => rw [put_cons_of_child?_eq_none hc, hc]; rfl
      | some c =>
          rw [put_cons_of_child? hc, child?_setChild_self hc, Option.bind_some, Option.bind_some,
            ih]

/-- Beside the path nothing changes. -/
theorem node?_put_beside (v : Value) {p q : Path} (hpq : ¬ p <+: q) (hqp : ¬ q <+: p)
    (new : Value) : (v.put p new).node? q = v.node? q := by
  induction p generalizing v q with
  | nil => exact absurd (List.nil_prefix) hpq
  | cons token p ih =>
      cases q with
      | nil => exact absurd (List.nil_prefix) hqp
      | cons other q =>
          cases hc : v.child? token with
          | none => rw [put_cons_of_child?_eq_none hc]
          | some c =>
              rw [put_cons_of_child? hc, node?_cons, node?_cons]
              by_cases hne : token = other
              · subst hne
                rw [List.cons_prefix_cons] at hpq hqp
                rw [child?_setChild_self hc, hc, Option.bind_some, Option.bind_some]
                exact ih c (fun h => hpq ⟨rfl, h⟩) (fun h => hqp ⟨rfl, h⟩)
              · rw [child?_setChild_of_ne v hne]

/-- Putting a value below a node keeps its head. -/
theorem head_put (v : Value) {r : Path} (hr : r ≠ []) (new : Value) :
    (v.put r new).head = v.head := by
  cases r with
  | nil => exact absurd rfl hr
  | cons token r =>
      cases hc : v.child? token with
      | none => rw [put_cons_of_child?_eq_none hc]
      | some c => rw [put_cons_of_child? hc, head_setChild hc]

/-- A node that is not at or below the path is still there and keeps its head. -/
theorem head_node?_put {v w : Value} {p q : Path} (hpq : ¬ p <+: q) (h : v.node? q = some w)
    (new : Value) : ∃ w', (v.put p new).node? q = some w' ∧ w'.head = w.head := by
  by_cases hqp : q <+: p
  · obtain ⟨r, rfl⟩ := hqp
    refine ⟨w.put r new, by rw [node?_put_above, h]; rfl, head_put w ?_ new⟩
    rintro rfl
    exact hpq (by simp)
  · exact ⟨w, by rw [node?_put_beside v hpq hqp, h], rfl⟩

/-- A node that is not at or below the path was there before, with its head. -/
theorem head_node?_of_put {v w new : Value} {p q : Path} (hpq : ¬ p <+: q)
    (h : (v.put p new).node? q = some w) : ∃ w', v.node? q = some w' ∧ w.head = w'.head := by
  by_cases hqp : q <+: p
  · obtain ⟨r, rfl⟩ := hqp
    rw [node?_put_above] at h
    obtain ⟨w', hw', rfl⟩ := Option.map_eq_some_iff.mp h
    refine ⟨w', hw', head_put w' ?_ new⟩
    rintro rfl
    exact hpq (by simp)
  · exact ⟨w, by rwa [node?_put_beside v hpq hqp] at h, rfl⟩

/-- Putting below a node is putting the changed node. -/
theorem put_append {v w : Value} {p : Path} (h : v.node? p = some w) (r : Path) (new : Value) :
    v.put (p ++ r) new = v.put p (w.put r new) := by
  induction p generalizing v with
  | nil => simp only [node?_nil, Option.some.injEq] at h; simp [h]
  | cons token p ih =>
      rw [node?_cons] at h
      cases hc : v.child? token with
      | none => simp [hc] at h
      | some c =>
          rw [hc, Option.bind_some] at h
          rw [List.cons_append, put_cons_of_child? hc, put_cons_of_child? hc, ih h]

theorem setChild_self {v c : Value} {token : String} (h : v.child? token = some c) :
    setChild token c v = v := by
  cases v with
  | map fields => simp only [setChild, Entries.insert_self h]
  | list items =>
      simp only [child?] at h
      cases hi : index? token with
      | none => simp [hi] at h
      | some i =>
          simp only [hi, Option.bind_some] at h
          obtain ⟨hlt, rfl⟩ := List.getElem?_eq_some_iff.mp h
          simp only [setChild, hi, List.set_getElem_self]
  | _ => rfl

theorem put_self {v w : Value} {p : Path} (h : v.node? p = some w) : v.put p w = v := by
  induction p generalizing v with
  | nil =>
      rw [node?_nil] at h
      rw [put, Option.some.inj h]
  | cons token p ih =>
      rw [node?_cons] at h
      obtain ⟨c, hc, h⟩ := Option.bind_eq_some_iff.mp h
      rw [put_cons_of_child? hc, ih h, setChild_self hc]

theorem setChild_setChild {v c : Value} {token : String} (h : v.child? token = some c)
    (a b : Value) : setChild token b (setChild token a v) = setChild token b v := by
  cases v with
  | map fields => simp only [setChild, Entries.insert_insert]
  | list items =>
      obtain ⟨i, hi, -⟩ := Option.bind_eq_some_iff.mp h
      simp only [setChild, hi, List.set_set]
  | _ => rfl

/-- What is put last counts. -/
theorem put_put (v : Value) (p : Path) (a b : Value) : (v.put p a).put p b = v.put p b := by
  induction p generalizing v with
  | nil => simp
  | cons token p ih =>
      cases hc : v.child? token with
      | none => rw [put_cons_of_child?_eq_none hc]
      | some c =>
          rw [put_cons_of_child? hc, put_cons_of_child? hc,
            put_cons_of_child? (child?_setChild_self hc _), ih, setChild_setChild hc]

/-- Without a node at the path there is nothing to put a value in the place of. -/
theorem put_of_node?_eq_none {v : Value} {p : Path} (h : v.node? p = none) (new : Value) :
    v.put p new = v := by
  induction p generalizing v with
  | nil => simp at h
  | cons token p ih =>
      rw [node?_cons] at h
      cases hc : v.child? token with
      | none => rw [put_cons_of_child?_eq_none hc]
      | some c =>
          rw [hc, Option.bind_some] at h
          rw [put_cons_of_child? hc, ih h, setChild_self hc]

/-! ### Writing and removing a child -/

/-- What writing a child comes to. -/
inductive ChildWritten (token : String) (new : Value) : Value → Value → Prop
  | key (fields : Fields) :
      ChildWritten token new (.map fields) (.map (Entries.insert fields token new))
  | appended (items : List Value) (htoken : token = appendToken) :
      ChildWritten token new (.list items) (.list (items ++ [new]))
  | element (items : List Value) {i : Nat} (hne : token ≠ appendToken)
      (hi : index? token = some i) (hlt : i < items.length) :
      ChildWritten token new (.list items) (.list (items.set i new))

theorem childWritten_of_writeChild {seen : Path} {token : String} {new v w : Value}
    (h : writeChild seen token new v = .ok w) : ChildWritten token new v w := by
  cases v with
  | map fields =>
      obtain rfl := Except.ok.inj h
      exact .key fields
  | list items =>
      simp only [writeChild] at h
      split at h
      · rename_i htoken
        obtain rfl := Except.ok.inj h
        exact .appended items htoken
      · rename_i hne
        split at h
        · exact absurd h (by simp)
        · rename_i i hi
          split at h
          · obtain rfl := Except.ok.inj h
            exact .element items hne hi ‹_›
          · exact absurd h (by simp)
  | _ => exact absurd h (by simp [writeChild])

/-- What removing a child comes to. -/
inductive ChildRemoved (token : String) : Value → Value → Prop
  | key (fields : Fields) : ChildRemoved token (.map fields) (.map (Entries.erase fields token))
  | element (items : List Value) {i : Nat} (hi : index? token = some i) (hlt : i < items.length) :
      ChildRemoved token (.list items) (.list (items.eraseIdx i))

theorem childRemoved_of_removeChild? {token : String} {v rest : Value}
    (h : removeChild? token v = some rest) : ChildRemoved token v rest := by
  cases v with
  | map fields =>
      simp only [removeChild?, Option.ite_none_right_eq_some, Option.some.injEq] at h
      exact h.2 ▸ .key fields
  | list items =>
      simp only [removeChild?] at h
      split at h
      · rename_i i hi
        rw [Option.ite_none_right_eq_some, Option.some.injEq] at h
        exact h.2 ▸ .element items hi h.1
      · exact absurd h (by simp)
  | _ => exact absurd h (by simp [removeChild?])

end Value

end Docweave
