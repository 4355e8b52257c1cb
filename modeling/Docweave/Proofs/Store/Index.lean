import Docweave.Proofs.WellFormed
import Docweave.Store.Indexed

/-!
What the index of a document holds, and what adding and dropping entries does to it.

`Value.steps?` is the answer the index has to give: for a path the steps to its node, if there is
one.  `Index.add` and `Index.dropBelow` touch exactly the paths strictly below the one they are
called for.  There, `add` gives the nodes of the value it adds their steps and leaves the rest, and
`dropBelow` clears the nodes of the value it drops and leaves the rest.  Both are inductions on the
value; what keeps siblings apart is that a child has one token, which for a map is that no key
comes twice and for a list that no two tokens are one index.
-/

namespace Docweave

namespace Value

/-- The step to the child under a token. -/
def stepFor (v : Value) (token : String) : Step :=
  match v with
  | .list _ => .index ((index? token).getD 0)
  | _ => .key token

/-- The steps to the node at the end of a path. -/
def steps? : Value → Path → Option (List Step)
  | _, [] => some []
  | v, token :: path =>
    (v.child? token).bind fun c => (c.steps? path).map fun steps => v.stepFor token :: steps

@[simp] theorem steps?_nil (v : Value) : v.steps? [] = some [] := by
  rw [steps?]

theorem steps?_cons (v : Value) (token : String) (path : Path) :
    v.steps? (token :: path) =
      (v.child? token).bind fun c => (c.steps? path).map fun steps => v.stepFor token :: steps := by
  rw [steps?]

theorem steps?_isSome (v : Value) (path : Path) :
    (v.steps? path).isSome = (v.node? path).isSome := by
  induction path generalizing v with
  | nil => simp
  | cons token path ih =>
      rw [steps?_cons, node?_cons]
      cases v.child? token with
      | none => rfl
      | some c => simp [ih]

theorem stepTo?_stepFor {v c : Value} {token : String} (h : v.child? token = some c) :
    v.stepTo? (v.stepFor token) = some c := by
  cases v with
  | map fields => exact h
  | list items =>
      obtain ⟨i, hi, hc⟩ := Option.bind_eq_some_iff.mp h
      rw [stepFor, hi]
      exact hc
  | _ => exact absurd h (by simp [child?])

theorem setStep_stepFor {v c : Value} {token : String} (h : v.child? token = some c)
    (new : Value) : setStep (v.stepFor token) new v = setChild token new v := by
  cases v with
  | map fields => rfl
  | list items =>
      obtain ⟨i, hi, -⟩ := Option.bind_eq_some_iff.mp h
      simp only [stepFor, hi, Option.getD_some, setStep, setChild]
  | _ => exact absurd h (by simp [child?])

theorem follow?_of_steps? {v : Value} {path : Path} {steps : List Step}
    (h : v.steps? path = some steps) : v.follow? steps = v.node? path := by
  induction path generalizing v steps with
  | nil =>
      rw [steps?_nil] at h
      obtain rfl := Option.some.inj h
      rw [node?_nil, follow?]
  | cons token path ih =>
      rw [steps?_cons] at h
      obtain ⟨c, hc, h⟩ := Option.bind_eq_some_iff.mp h
      obtain ⟨below, hbelow, rfl⟩ := Option.map_eq_some_iff.mp h
      rw [follow?, stepTo?_stepFor hc, node?_cons, hc, Option.bind_some, Option.bind_some,
        ih hbelow]

theorem replaceAt_of_steps? {v : Value} {path : Path} {steps : List Step}
    (h : v.steps? path = some steps) (new : Value) : replaceAt new steps v = v.put path new := by
  induction path generalizing v steps with
  | nil =>
      rw [steps?_nil] at h
      obtain rfl := Option.some.inj h
      rw [put_nil, replaceAt]
  | cons token path ih =>
      rw [steps?_cons] at h
      obtain ⟨c, hc, h⟩ := Option.bind_eq_some_iff.mp h
      obtain ⟨below, hbelow, rfl⟩ := Option.map_eq_some_iff.mp h
      simp only [replaceAt, stepTo?_stepFor hc, ih hbelow, setStep_stepFor hc,
        put_cons_of_child? hc]

theorem steps?_append {v w : Value} {p : Path} {steps : List Step} (hn : v.node? p = some w)
    (hs : v.steps? p = some steps) (q : Path) :
    v.steps? (p ++ q) = (w.steps? q).map fun below => steps ++ below := by
  induction p generalizing v steps with
  | nil =>
      rw [node?_nil] at hn
      rw [steps?_nil] at hs
      obtain rfl := Option.some.inj hn
      obtain rfl := Option.some.inj hs
      simp
  | cons token p ih =>
      rw [steps?_cons] at hs
      obtain ⟨c, hc, hs⟩ := Option.bind_eq_some_iff.mp hs
      obtain ⟨front, hfront, rfl⟩ := Option.map_eq_some_iff.mp hs
      rw [node?_cons, hc, Option.bind_some] at hn
      rw [List.cons_append, steps?_cons, hc, Option.bind_some, ih hn hfront, Option.map_map]
      rfl

/-- The step to a child can be read off the head. -/
theorem stepFor_of_head_eq {v w : Value} (h : v.head = w.head) (token : String) :
    v.stepFor token = w.stepFor token := by
  cases v <;> cases w <;> simp_all [head, stepFor]

/-- What is put at a path does not change the steps to any node that is not strictly below. -/
theorem steps?_put (v : Value) {p q : Path} (h : ∀ token r, q ≠ p ++ token :: r) (new : Value) :
    (v.put p new).steps? q = v.steps? q := by
  induction p generalizing v q with
  | nil =>
      cases q with
      | nil => simp
      | cons token r => exact absurd rfl (h token r)
  | cons token p ih =>
      cases q with
      | nil => simp
      | cons other q =>
          cases hc : v.child? token with
          | none => rw [put_cons_of_child?_eq_none hc]
          | some c =>
              have hstep := stepFor_of_head_eq (head_setChild hc (c.put p new)) other
              rw [put_cons_of_child? hc, steps?_cons, steps?_cons, hstep]
              by_cases hne : token = other
              · subst hne
                rw [child?_setChild_self hc, hc, Option.bind_some, Option.bind_some,
                  ih c fun u r heq => h u r (by rw [heq, List.cons_append])]
              · rw [child?_setChild_of_ne v hne]

/-! ### The rest of a list -/

/-- The element under a token, if it is in the rest of a list that starts at a position. -/
def itemFrom? (i : Nat) (items : List Value) (token : String) : Option Value :=
  (index? token).bind fun j => if i ≤ j then items[j - i]? else none

theorem itemFrom?_zero (items : List Value) (token : String) :
    itemFrom? 0 items token = (list items).child? token := by
  simp only [itemFrom?, child?, Nat.zero_le, if_true, Nat.sub_zero]

theorem itemFrom?_nil (i : Nat) (token : String) : itemFrom? i [] token = none := by
  simp [itemFrom?]

/-- No token counts beyond a machine word. -/
theorem itemFrom?_of_token?_eq_none {i : Nat} (h : token? i = none) (items : List Value)
    (token : String) : itemFrom? i items token = none := by
  have hlarge := token?_eq_none_iff.mp h
  refine Option.bind_eq_none_iff.mpr fun j hj => ?_
  have hsmall := (index?_eq_some_iff.mp hj).2
  rw [if_neg (by omega)]

theorem itemFrom?_self {i : Nat} {own : String} (h : token? i = some own) (v : Value)
    (vs : List Value) : itemFrom? i (v :: vs) own = some v := by
  rw [itemFrom?, token?_eq_some_iff.mp h, Option.bind_some, if_pos (Nat.le_refl i), Nat.sub_self]
  rfl

theorem itemFrom?_succ_self {i : Nat} {own : String} (h : token? i = some own)
    (vs : List Value) : itemFrom? (i + 1) vs own = none := by
  rw [itemFrom?, token?_eq_some_iff.mp h, Option.bind_some, if_neg (by omega)]

theorem itemFrom?_of_ne {i : Nat} {own token : String} (h : token? i = some own)
    (hne : own ≠ token) (v : Value) (vs : List Value) :
    itemFrom? (i + 1) vs token = itemFrom? i (v :: vs) token := by
  refine Option.bind_congr fun j hj => ?_
  have hji : j ≠ i := fun heq => hne (index?_inj (token?_eq_some_iff.mp h) (heq ▸ hj))
  by_cases hlt : i + 1 ≤ j
  · obtain ⟨k, rfl⟩ : ∃ k, j = i + 1 + k := ⟨j - (i + 1), by omega⟩
    rw [if_pos hlt, if_pos (by omega), show i + 1 + k - (i + 1) = k by omega,
      show i + 1 + k - i = k + 1 by omega, List.getElem?_cons_succ]
  · rw [if_neg hlt, if_neg (by omega)]

end Value

namespace Index

/-! ### Adding -/

/-- Adds a child with the nodes below it. -/
def addChild (path : Path) (steps : List Step) (token : String) (step : Step) (v : Value)
    (index : Index) : Index :=
  (add (path.child token) (steps ++ [step]) v index).insert (path.child token) (steps ++ [step])

/-- What adding a value does to an index. -/
structure Adds (v : Value) : Prop where
  below : ∀ path steps index token r, (add path steps v index)[path ++ token :: r]? =
    ((v.steps? (token :: r)).map fun below => steps ++ below).or index[path ++ token :: r]?
  beside : ∀ path steps index q, (∀ token r, q ≠ path ++ token :: r) →
    (add path steps v index)[q]? = index[q]?

variable {path q : Path} {steps : List Step} {index : Index}

theorem getElem?_addChild_self {v : Value} (hv : Adds v) (token : String) (step : Step) (r : Path) :
    (addChild path steps token step v index)[path ++ token :: r]? =
      ((v.steps? r).map fun below => steps ++ step :: below).or index[path ++ token :: r]? := by
  rw [addChild, Std.ExtHashMap.getElem?_insert]
  cases r with
  | nil => simp [Path.child]
  | cons next r =>
      have hne : (path.child token == path ++ token :: next :: r) = false := by simp [Path.child]
      have hat : path ++ token :: next :: r = path.child token ++ next :: r := by simp [Path.child]
      rw [hne, if_neg Bool.false_ne_true, hat, hv.below]
      simp only [List.append_assoc, List.singleton_append]

theorem getElem?_addChild_of_ne {v : Value} (hv : Adds v) {token : String} {step : Step}
    (h : ∀ r, q ≠ path ++ token :: r) :
    (addChild path steps token step v index)[q]? = index[q]? := by
  have hne : (path.child token == q) = false := by
    rw [beq_eq_false_iff_ne]
    exact fun heq => h [] (by rw [← heq, Path.child])
  rw [addChild, Std.ExtHashMap.getElem?_insert, hne, if_neg Bool.false_ne_true]
  refine hv.beside _ _ _ _ fun next r heq => h (next :: r) ?_
  rw [heq, Path.child, List.append_assoc, List.singleton_append]

theorem getElem?_addFields {fields : Fields} (hfields : ∀ e ∈ fields, Adds e.2)
    (hdistinct : Entries.Distinct fields) (index : Index) (token : String) (r : Path) :
    (addFields path steps fields index)[path ++ token :: r]? =
      ((Entries.find? fields token).bind fun c =>
        (c.steps? r).map fun below => steps ++ Step.key token :: below).or
          index[path ++ token :: r]? := by
  induction fields generalizing index with
  | nil => simp [addFields]
  | cons e es ih =>
      obtain ⟨key, v⟩ := e
      have hv : Adds v := hfields _ List.mem_cons_self
      show (addFields path steps es (addChild path steps key (.key key) v index))[_]? = _
      rw [ih (fun e he => hfields e (List.mem_cons_of_mem _ he)) hdistinct.of_cons,
        Entries.find?_cons]
      by_cases hkey : key = token
      · subst hkey
        rw [if_pos rfl, hdistinct.find?_eq_none_of_cons, getElem?_addChild_self hv]
        rfl
      · rw [if_neg hkey, getElem?_addChild_of_ne hv]
        intro r' heq
        exact hkey (List.cons.inj (List.append_cancel_left heq)).1.symm

theorem getElem?_addFields_beside {fields : Fields} (hfields : ∀ e ∈ fields, Adds e.2)
    (index : Index) (hq : ∀ token r, q ≠ path ++ token :: r) :
    (addFields path steps fields index)[q]? = index[q]? := by
  induction fields generalizing index with
  | nil => rw [addFields]
  | cons e es ih =>
      obtain ⟨key, v⟩ := e
      show (addFields path steps es (addChild path steps key (.key key) v index))[q]? = _
      rw [ih fun e he => hfields e (List.mem_cons_of_mem _ he),
        getElem?_addChild_of_ne (hfields _ List.mem_cons_self) (hq key)]

theorem getElem?_addItems {items : List Value} (hitems : ∀ v ∈ items, Adds v) (i : Nat)
    (index : Index) (token : String) (r : Path) :
    (addItems path steps i items index)[path ++ token :: r]? =
      ((Value.itemFrom? i items token).bind fun c =>
        (c.steps? r).map fun below => steps ++ (Value.list []).stepFor token :: below).or
          index[path ++ token :: r]? := by
  induction items generalizing i index with
  | nil => simp [addItems, Value.itemFrom?_nil]
  | cons v vs ih =>
      have hv : Adds v := hitems _ List.mem_cons_self
      have hvs : ∀ w ∈ vs, Adds w := fun w hw => hitems w (List.mem_cons_of_mem _ hw)
      rw [addItems]
      cases hi : token? i with
      | none => rw [Value.itemFrom?_of_token?_eq_none hi]; rfl
      | some own =>
          show (addItems path steps (i + 1) vs
            (addChild path steps own (.index i) v index))[_]? = _
          rw [ih hvs]
          by_cases htoken : own = token
          · subst htoken
            rw [Value.itemFrom?_succ_self hi, Value.itemFrom?_self hi, getElem?_addChild_self hv,
              Value.stepFor, token?_eq_some_iff.mp hi]
            rfl
          · rw [Value.itemFrom?_of_ne hi htoken, getElem?_addChild_of_ne hv]
            exact fun r' heq => htoken (List.cons.inj (List.append_cancel_left heq)).1.symm

theorem getElem?_addItems_beside {items : List Value} (hitems : ∀ v ∈ items, Adds v) (i : Nat)
    (index : Index) (hq : ∀ token r, q ≠ path ++ token :: r) :
    (addItems path steps i items index)[q]? = index[q]? := by
  induction items generalizing i index with
  | nil => rw [addItems]
  | cons v vs ih =>
      rw [addItems]
      cases token? i with
      | none => rfl
      | some own =>
          show (addItems path steps (i + 1) vs
            (addChild path steps own (.index i) v index))[q]? = _
          rw [ih fun w hw => hitems w (List.mem_cons_of_mem _ hw),
            getElem?_addChild_of_ne (hitems _ List.mem_cons_self) (hq own)]

/-- **Adding a value gives every node below it its steps and touches nothing else.** -/
theorem adds (v : Value) (hv : v.WellFormed) : Adds v := by
  induction v using Value.induction with
  | list items ih =>
      have hitems : ∀ c ∈ items, Adds c := fun c hc =>
        ih c hc (Value.wellFormed_list_iff.mp hv c hc)
      refine ⟨?_, fun path steps index q hq => getElem?_addItems_beside hitems 0 index hq⟩
      intro path steps index token r
      show (addItems path steps 0 items index)[_]? = _
      rw [getElem?_addItems hitems, Value.steps?_cons, Value.itemFrom?_zero]
      simp only [Value.stepFor, Option.map_bind, Option.map_map, Function.comp_def]
  | map fields ih =>
      obtain ⟨hdistinct, hwell⟩ := Value.wellFormed_map_iff.mp hv
      have hfields : ∀ e ∈ fields, Adds e.2 := fun e he => ih e he (hwell e he)
      refine ⟨?_, fun path steps index q hq => getElem?_addFields_beside hfields index hq⟩
      intro path steps index token r
      show (addFields path steps fields index)[_]? = _
      rw [getElem?_addFields hfields hdistinct, Value.steps?_cons]
      simp only [Value.child?, Value.stepFor, Option.map_bind, Option.map_map, Function.comp_def]
  | _ => exact ⟨fun _ _ _ _ _ => rfl, fun _ _ _ _ _ => rfl⟩

/-! ### Dropping -/

/-- Drops a child with the nodes below it. -/
def dropChild (path : Path) (token : String) (v : Value) (index : Index) : Index :=
  (dropBelow (path.child token) v index).erase (path.child token)

/-- What dropping a value does to an index. -/
structure Drops (v : Value) : Prop where
  below : ∀ path index token r, (dropBelow path v index)[path ++ token :: r]? =
    if (v.node? (token :: r)).isSome = true then none else index[path ++ token :: r]?
  beside : ∀ path index q, (∀ token r, q ≠ path ++ token :: r) →
    (dropBelow path v index)[q]? = index[q]?

theorem getElem?_dropChild_self {v : Value} (hv : Drops v) (token : String) (r : Path) :
    (dropChild path token v index)[path ++ token :: r]? =
      if (v.node? r).isSome = true then none else index[path ++ token :: r]? := by
  rw [dropChild, Std.ExtHashMap.getElem?_erase]
  cases r with
  | nil => simp [Path.child]
  | cons next r =>
      have hne : (path.child token == path ++ token :: next :: r) = false := by simp [Path.child]
      have hat : path ++ token :: next :: r = path.child token ++ next :: r := by simp [Path.child]
      rw [hne, if_neg Bool.false_ne_true, hat, hv.below]

theorem getElem?_dropChild_of_ne {v : Value} (hv : Drops v) {token : String}
    (h : ∀ r, q ≠ path ++ token :: r) : (dropChild path token v index)[q]? = index[q]? := by
  have hne : (path.child token == q) = false := by
    rw [beq_eq_false_iff_ne]
    exact fun heq => h [] (by rw [← heq, Path.child])
  rw [dropChild, Std.ExtHashMap.getElem?_erase, hne, if_neg Bool.false_ne_true]
  refine hv.beside _ _ _ fun next r heq => h (next :: r) ?_
  rw [heq, Path.child, List.append_assoc, List.singleton_append]

theorem getElem?_dropFields {fields : Fields} (hfields : ∀ e ∈ fields, Drops e.2)
    (hdistinct : Entries.Distinct fields) (index : Index) (token : String) (r : Path) :
    (dropFields path fields index)[path ++ token :: r]? =
      if ((Entries.find? fields token).bind fun c => c.node? r).isSome = true then none
      else index[path ++ token :: r]? := by
  induction fields generalizing index with
  | nil => simp [dropFields]
  | cons e es ih =>
      obtain ⟨key, v⟩ := e
      have hv : Drops v := hfields _ List.mem_cons_self
      show (dropFields path es (dropChild path key v index))[_]? = _
      rw [ih (fun e he => hfields e (List.mem_cons_of_mem _ he)) hdistinct.of_cons,
        Entries.find?_cons]
      by_cases hkey : key = token
      · subst hkey
        rw [if_pos rfl, hdistinct.find?_eq_none_of_cons, getElem?_dropChild_self hv]
        rfl
      · rw [if_neg hkey, getElem?_dropChild_of_ne hv]
        intro r' heq
        exact hkey (List.cons.inj (List.append_cancel_left heq)).1.symm

theorem getElem?_dropFields_beside {fields : Fields} (hfields : ∀ e ∈ fields, Drops e.2)
    (index : Index) (hq : ∀ token r, q ≠ path ++ token :: r) :
    (dropFields path fields index)[q]? = index[q]? := by
  induction fields generalizing index with
  | nil => rw [dropFields]
  | cons e es ih =>
      obtain ⟨key, v⟩ := e
      show (dropFields path es (dropChild path key v index))[q]? = _
      rw [ih fun e he => hfields e (List.mem_cons_of_mem _ he),
        getElem?_dropChild_of_ne (hfields _ List.mem_cons_self) (hq key)]

theorem getElem?_dropItems {items : List Value} (hitems : ∀ v ∈ items, Drops v) (i : Nat)
    (index : Index) (token : String) (r : Path) :
    (dropItems path i items index)[path ++ token :: r]? =
      if ((Value.itemFrom? i items token).bind fun c => c.node? r).isSome = true then none
      else index[path ++ token :: r]? := by
  induction items generalizing i index with
  | nil => simp [dropItems, Value.itemFrom?_nil]
  | cons v vs ih =>
      have hv : Drops v := hitems _ List.mem_cons_self
      have hvs : ∀ w ∈ vs, Drops w := fun w hw => hitems w (List.mem_cons_of_mem _ hw)
      rw [dropItems]
      cases hi : token? i with
      | none => rw [Value.itemFrom?_of_token?_eq_none hi]; rfl
      | some own =>
          show (dropItems path (i + 1) vs (dropChild path own v index))[_]? = _
          rw [ih hvs]
          by_cases htoken : own = token
          · subst htoken
            rw [Value.itemFrom?_succ_self hi, Value.itemFrom?_self hi, getElem?_dropChild_self hv]
            rfl
          · rw [Value.itemFrom?_of_ne hi htoken, getElem?_dropChild_of_ne hv]
            exact fun r' heq => htoken (List.cons.inj (List.append_cancel_left heq)).1.symm

theorem getElem?_dropItems_beside {items : List Value} (hitems : ∀ v ∈ items, Drops v) (i : Nat)
    (index : Index) (hq : ∀ token r, q ≠ path ++ token :: r) :
    (dropItems path i items index)[q]? = index[q]? := by
  induction items generalizing i index with
  | nil => rw [dropItems]
  | cons v vs ih =>
      rw [dropItems]
      cases token? i with
      | none => rfl
      | some own =>
          show (dropItems path (i + 1) vs (dropChild path own v index))[q]? = _
          rw [ih fun w hw => hitems w (List.mem_cons_of_mem _ hw),
            getElem?_dropChild_of_ne (hitems _ List.mem_cons_self) (hq own)]

/-- **Dropping a value clears every node below it and touches nothing else.** -/
theorem drops (v : Value) (hv : v.WellFormed) : Drops v := by
  induction v using Value.induction with
  | list items ih =>
      have hitems : ∀ c ∈ items, Drops c :=
        fun c hc => ih c hc (Value.wellFormed_list_iff.mp hv c hc)
      refine ⟨?_, fun path index q hq => getElem?_dropItems_beside hitems 0 index hq⟩
      intro path index token r
      show (dropItems path 0 items index)[_]? = _
      rw [getElem?_dropItems hitems, Value.node?_cons, Value.itemFrom?_zero]
  | map fields ih =>
      obtain ⟨hdistinct, hwell⟩ := Value.wellFormed_map_iff.mp hv
      have hfields : ∀ e ∈ fields, Drops e.2 := fun e he => ih e he (hwell e he)
      refine ⟨?_, fun path index q hq => getElem?_dropFields_beside hfields index hq⟩
      intro path index token r
      show (dropFields path fields index)[_]? = _
      rw [getElem?_dropFields hfields hdistinct, Value.node?_cons]
      rfl
  | _ => exact ⟨fun _ _ _ _ => rfl, fun _ _ _ _ => rfl⟩

end Index

end Docweave
