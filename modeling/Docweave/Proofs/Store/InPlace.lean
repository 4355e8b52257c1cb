import Docweave.Document
import Docweave.Proofs.Store.Direct

/-!
Edits that are made in place.

`Store.update` and `Store.delete?` answer with a store of their own, so nothing is left behind when
they fail.  Here the same edits are programs that work on one store step by step: a program writes
to the document, drops and adds entries of the index and looks at what it has written before, and
when it ends in a fault the store stays as it is at that moment.  `InPlace.update_eq` and
`InPlace.delete_eq` say that a program leaves the store that the edit answers, or, when there is
none, the store that there was: it finds every fault before anything is different.

Nothing is assumed of the store.  An index may be stale, so that steps lead nowhere or to another
node, and an entry may stand for a node that is gone.
-/

namespace Docweave

/-- An action on a state, which stays as it is at the moment of a fault. -/
abbrev Editing (σ : Type) : Type → Type := ExceptT Fault (StateM σ)

namespace InPlace

@[simp] theorem get_bind_editing {σ α : Type} (f : σ → Editing σ α) (state : σ) :
    (get >>= f) state = f state state := rfl

@[simp] theorem get_bind_state {σ α : Type} (f : σ → StateM σ α) (state : σ) :
    (get >>= f) state = f state state := rfl

@[simp] theorem modify_bind_editing {σ α : Type} (f : σ → σ) (g : PUnit → Editing σ α) (state : σ) :
    (modify f >>= g) state = g ⟨⟩ (f state) := rfl

@[simp] theorem modify_bind_state {σ α : Type} (f : σ → σ) (g : PUnit → StateM σ α) (state : σ) :
    (modify f >>= g) state = g ⟨⟩ (f state) := rfl

theorem bind_editing {σ α β : Type} (x : Editing σ α) (g : α → Editing σ β) (state : σ) :
    (x >>= g) state =
      match x state with
      | (.ok a, state') => g a state'
      | (.error fault, state') => (.error fault, state') := by
  show ExceptT.bindCont g (x state).1 (x state).2 = _
  rcases x state with ⟨_ | _, _⟩ <;> rfl

theorem bind_state {σ α β : Type} (x : StateM σ α) (g : α → StateM σ β) (state : σ) :
    (x >>= g) state = g (x state).1 (x state).2 := rfl

theorem modify_editing {σ : Type} (f : σ → σ) (state : σ) :
    (modify f : Editing σ PUnit) state = (.ok ⟨⟩, f state) := rfl

/-- The end of an edit that is made as a whole or not at all. -/
def wholly {σ : Type} (state : σ) : Except Fault σ → Except Fault Unit × σ
  | .ok written => (.ok (), written)
  | .error fault => (.error fault, state)

/-- The end of a removal that is made as a whole or not at all. -/
def removed {σ : Type} (state : σ) : Option σ → Bool × σ
  | some rest => (true, rest)
  | none => (false, state)

theorem wholly_eq_error_iff {σ : Type} {state after : σ} {answer : Except Fault σ} {fault : Fault} :
    wholly state answer = (.error fault, after) ↔ answer = .error fault ∧ after = state := by
  cases answer <;> simp [wholly, eq_comm]

theorem removed_eq_false_iff {σ : Type} {state after : σ} {answer : Option σ} :
    removed state answer = (false, after) ↔ answer = none ∧ after = state := by
  cases answer <;> simp [removed, eq_comm]

/-! ### The direct store -/

/-- Puts a node of the document anew. -/
def setNode (path : Path) (new : Value) (store : Direct) : Direct :=
  ⟨store.content.put path new⟩

/-- Replaces or creates the node a pointer addresses. -/
def updateDirect (pointer : Pointer) (new : Value) : Editing Direct Unit :=
  match pointer.path? with
  | none => throw (.refused pointer .filePointer)
  | some path =>
    match path.getLast? with
    | none => throw (.refused pointer .wholeDocument)
    | some last => do
      match (← get).content.walk [] path.parent with
      | .error miss => throw (.notFound pointer miss)
      | .ok (.map fields) => modify (setNode path.parent (.map (Entries.insert fields last new)))
      | .ok (.list items) =>
        if last = appendToken then modify (setNode path.parent (.list (items ++ [new])))
        else match index? last with
          | none => throw (.notFound pointer (.index path.parent last))
          | some i =>
            if i < items.length then modify (setNode path.parent (.list (items.set i new)))
            else throw (.notFound pointer (.range path.parent i items.length))
      | .ok _ => throw (.refused pointer (.scalarParent path.parent))

/-- Removes the node a pointer addresses; the answer tells whether there was one. -/
def deleteDirect (pointer : Pointer) : StateM Direct Bool :=
  match pointer.path? with
  | none => pure false
  | some path =>
    match path.getLast? with
    | none => do
      modify fun store => ⟨store.content.cleared⟩
      pure true
    | some last => do
      match (← get).content.walk [] path.parent with
      | .error _ => pure false
      | .ok (.map fields) =>
        -- What is taken out tells whether it was there, so the map is written either way.
        modify (setNode path.parent (.map (Entries.erase fields last)))
        pure (Entries.contains fields last)
      | .ok (.list items) =>
        match index? last with
        | none => pure false
        | some i =>
          if i < items.length then
            modify (setNode path.parent (.list (items.eraseIdx i)))
            pure true
          else pure false
      | .ok _ => pure false

theorem updateDirect_eq (store : Direct) (pointer : Pointer) (new : Value) :
    updateDirect pointer new store = wholly store (store.update pointer new) := by
  unfold updateDirect Direct.update
  cases pointer.path? with
  | none => rfl
  | some path =>
      simp only
      cases path.getLast? with
      | none => rfl
      | some last =>
          simp only [get_bind_editing, Value.editAt_eq_walk]
          cases Value.walk [] path.parent store.content with
          | error miss => rfl
          | ok parent =>
              cases parent with
              | list items =>
                  simp only [Value.writeChild]
                  split
                  · rfl
                  · cases index? last with
                    | none => rfl
                    | some i =>
                        simp only
                        split <;> rfl
              | _ => rfl

theorem deleteDirect_eq (store : Direct) (pointer : Pointer) :
    deleteDirect pointer store = removed store (store.delete? pointer) := by
  unfold deleteDirect Direct.delete?
  cases pointer.path? with
  | none => rfl
  | some path =>
      rcases path.eq_nil_or_child with rfl | ⟨path, last, rfl⟩
      · rfl
      · obtain ⟨token, tokens, hcons⟩ := List.exists_cons_of_ne_nil (path.child_ne_nil last)
        have hremove := Value.removeAt?_child path last store.content
        simp only [Path.getLast?_child, Path.parent_child]
        rw [get_bind_state]
        rw [hcons] at hremove ⊢
        simp only [hremove]
        cases hn : store.content.node? path with
        | none =>
            obtain ⟨miss, hmiss⟩ := Value.walk_eq_error [] hn
            rw [hmiss]
            rfl
        | some parent =>
            rw [Value.walk_eq_ok_iff.mpr hn, Option.bind_some]
            cases parent with
            | map fields =>
                simp only [Value.removeChild?, modify_bind_state]
                cases hcontains : Entries.contains fields last with
                | true => rfl
                | false =>
                    have habsent : Entries.find? fields last = none := by
                      rwa [Entries.contains, Option.isSome_eq_false_iff, Option.isNone_iff_eq_none]
                        at hcontains
                    rw [Entries.erase_eq_self habsent, setNode, Value.put_self hn]
                    rfl
            | list items =>
                simp only [Value.removeChild?]
                cases index? last with
                | none => rfl
                | some i =>
                    simp only
                    split <;> rfl
            | _ => rfl

end InPlace

namespace Value

theorem stepTo?_setStep {v c : Value} {step : Step} (h : v.stepTo? step = some c) (new : Value) :
    (setStep step new v).stepTo? step = some new := by
  cases step with
  | key key =>
      cases v with
      | map fields => simp [setStep, stepTo?, Entries.find?_insert]
      | _ => exact absurd h (by simp [stepTo?])
  | index i =>
      cases v with
      | list items =>
          have hlt : i < items.length := (List.getElem?_eq_some_iff.mp h).1
          simp [setStep, stepTo?, hlt]
      | _ => exact absurd h (by simp [stepTo?])

/-- What is put behind steps that lead somewhere is found there. -/
theorem follow?_replaceAt {v old : Value} {steps : List Step} (h : v.follow? steps = some old)
    (new : Value) : (replaceAt new steps v).follow? steps = some new := by
  induction steps generalizing v with
  | nil => rfl
  | cons step steps ih =>
      rw [follow?] at h
      obtain ⟨c, hc, h⟩ := Option.bind_eq_some_iff.mp h
      simp only [replaceAt, hc, follow?, stepTo?_setStep hc, Option.bind_some, ih h]

theorem setStep_self {v c : Value} {step : Step} (h : v.stepTo? step = some c) :
    setStep step c v = v := by
  cases step with
  | key key =>
      cases v with
      | map fields => rw [setStep, Entries.insert_self h]
      | _ => exact absurd h (by simp [stepTo?])
  | index i =>
      cases v with
      | list items =>
          obtain ⟨hlt, rfl⟩ := List.getElem?_eq_some_iff.mp h
          rw [setStep, List.set_getElem_self]
      | _ => exact absurd h (by simp [stepTo?])

/-- Putting what is there already changes nothing. -/
theorem replaceAt_self {v w : Value} {steps : List Step} (h : v.follow? steps = some w) :
    replaceAt w steps v = v := by
  induction steps generalizing v with
  | nil => exact (Option.some.inj h).symm
  | cons step steps ih =>
      rw [follow?] at h
      obtain ⟨c, hc, h⟩ := Option.bind_eq_some_iff.mp h
      simp only [replaceAt, hc, ih h, setStep_self hc]

theorem follow?_concat (v : Value) (steps : List Step) (step : Step) :
    v.follow? (steps ++ [step]) = (v.follow? steps).bind fun w => w.stepTo? step := by
  induction steps generalizing v with
  | nil => simp [follow?]
  | cons first steps ih =>
      simp only [List.cons_append, follow?, Option.bind_assoc]
      exact Option.bind_congr fun c _ => ih c

end Value

namespace InPlace

/-! ### The indexed store -/

/-- Writes a node of the document, and leaves the index as it is. -/
def writeNode (steps : List Step) (new : Value) (store : Indexed) : Indexed :=
  { store with content := Value.replaceAt new steps store.content }

/-- Drops the entries below a node that was at a path. -/
def dropBelow (path : Path) (old : Value) (store : Indexed) : Indexed :=
  if old.isContainer then { store with index := Index.dropBelow path old store.index } else store

/-- Adds the entries below a node that has been written, as the document holds it now. -/
def addBelow (path : Path) (steps : List Step) (new : Value) (store : Indexed) : Indexed :=
  if new.isContainer then
    match store.content.follow? steps with
    | some v => { store with index := Index.add path steps v store.index }
    | none => store
  else store

/-- Adds the entry of a node. -/
def enter (path : Path) (steps : List Step) (store : Indexed) : Indexed :=
  { store with index := store.index.insert path steps }

/-- Drops the entry of a node. -/
def leave (path : Path) (store : Indexed) : Indexed :=
  { store with index := store.index.erase path }

/-- Adds the entries of the elements of a list from a position on. -/
def enterItems (path : Path) (steps : List Step) : Nat → List Value → StateM Indexed Unit
  | _, [] => pure ()
  | i, v :: vs =>
    match token? i with
    | some token => do
      modify (addBelow (path.child token) (steps ++ [.index i]) v)
      modify (enter (path.child token) (steps ++ [.index i]))
      enterItems path steps (i + 1) vs
    | none => pure ()

/-- Writes the value of a node that is indexed already. -/
def overwriteNode (path : Path) (steps : List Step) (old new : Value) : Editing Indexed Unit := do
  modify (writeNode steps new)
  modify (dropBelow path old)
  modify (addBelow path steps new)

/-- Writes a child that is not indexed, under a parent that is. -/
def createChild (pointer : Pointer) (path : Path) (steps : List Step) (last : String)
    (new : Value) : Value → Editing Indexed Unit
  | .map fields => do
    modify (writeNode steps (.map (Entries.insert fields last new)))
    modify (addBelow (path.child last) (steps ++ [.key last]) new)
    modify (enter (path.child last) (steps ++ [.key last]))
  | .list items =>
    if last = appendToken then do
      modify (writeNode steps (.list (items ++ [new])))
      match token? items.length with
      | some token =>
        modify (addBelow (path.child token) (steps ++ [.index items.length]) new)
        modify (enter (path.child token) (steps ++ [.index items.length]))
      | none => pure ()
    else throw (.notFound pointer (.slot path last items.length))
  | _ => throw (.refused pointer (.scalarParent path))

/-- Replaces or creates the node a pointer addresses. -/
def updateIndexed (pointer : Pointer) (new : Value) : Editing Indexed Unit :=
  match pointer.path? with
  | none => throw (.refused pointer .filePointer)
  | some path =>
    match path.getLast? with
    | none => throw (.refused pointer .wholeDocument)
    | some last => do
      match (← get).index[path]? with
      | some steps =>
        match (← get).content.follow? steps with
        | none => throw (.notFound pointer .unlisted)
        | some old => overwriteNode path steps old new
      | none =>
        match (← get).index.steps? path.parent with
        | none => throw (.notFound pointer .unlisted)
        | some steps =>
          match (← get).content.follow? steps with
          | none => throw (.notFound pointer .unlisted)
          | some parent => createChild pointer path.parent steps last new parent

/-- Takes a child behind the last step out of its parent; later elements of a list move up. -/
def removeChild (path : Path) (steps : List Step) (step : Step) (parent : Value) :
    StateM Indexed Bool :=
  match parent, step with
  | .map fields, .key key => do
    -- The key is taken out before it is known whether it was there.
    modify (writeNode steps (.map (Entries.erase fields key)))
    match Entries.find? fields key with
    | none => pure false
    | some old =>
      modify (dropBelow path old)
      modify (leave path)
      pure true
  | .list items, .index i =>
    if i < items.length then do
      modify fun store =>
        { store with index := Index.dropItems path.parent i (items.drop i) store.index }
      modify (writeNode steps (.list (items.eraseIdx i)))
      enterItems path.parent steps i ((items.eraseIdx i).drop i)
      pure true
    else pure false
  | _, _ => pure false

/-- Removes the node a pointer addresses; the answer tells whether there was one. -/
def deleteIndexed (pointer : Pointer) : StateM Indexed Bool :=
  match pointer.path? with
  | none => pure false
  | some [] => do
    modify fun store => ⟨store.content.cleared, ∅⟩
    pure true
  | some path => do
    match (← get).index[path]? with
    | none => pure false
    | some steps =>
      match steps.getLast? with
      | none => pure false
      | some step =>
        match (← get).content.follow? steps.dropLast with
        | none => pure false
        | some parent => removeChild path steps.dropLast step parent

section

variable {store : Indexed} {path : Path} {steps : List Step} {old new v : Value}

theorem dropBelow_eq (path : Path) (old : Value) (store : Indexed) :
    dropBelow path old store = { store with index := Index.dropBelow path old store.index } := by
  cases old <;> rfl

theorem addBelow_eq (h : store.content.follow? steps = some v) :
    addBelow path steps v store = { store with index := Index.add path steps v store.index } := by
  unfold addBelow
  split
  · rw [h]
  · cases v <;> first | rfl | exact absurd rfl ‹_›

/-- What has been written is found behind the steps. -/
theorem follow?_writeNode (h : store.content.follow? steps = some old) :
    (writeNode steps new store).content.follow? steps = some new :=
  Value.follow?_replaceAt h new

theorem writeNode_self (h : store.content.follow? steps = some old) :
    writeNode steps old store = store := by
  rw [writeNode, Value.replaceAt_self h]

/-- A child that has been written with its parent is found behind one more step. -/
theorem follow?_writeNode_child {parent : Value} {step : Step}
    (h : store.content.follow? steps = some old) (hchild : parent.stepTo? step = some v) :
    (writeNode steps parent store).content.follow? (steps ++ [step]) = some v := by
  rw [Value.follow?_concat, follow?_writeNode h, Option.bind_some, hchild]

end

/-- The entries of the elements of a list are added as if the list was looked at once. -/
theorem enterItems_eq {store : Indexed} {path : Path} {steps : List Step} {vs : List Value}
    {i : Nat}
    (h : ∀ k v, vs[k]? = some v → store.content.follow? (steps ++ [.index (i + k)]) = some v) :
    enterItems path steps i vs store =
      (⟨⟩, { store with index := Index.addItems path steps i vs store.index }) := by
  induction vs generalizing i store with
  | nil => rfl
  | cons v vs ih =>
      rw [enterItems, Index.addItems]
      cases token? i with
      | none => rfl
      | some token =>
          have hfirst : store.content.follow? (steps ++ [.index i]) = some v := h 0 v rfl
          simp only [modify_bind_state]
          rw [addBelow_eq hfirst]
          refine ih fun k w hw => ?_
          have hlater := h (k + 1) w hw
          rwa [Nat.add_comm k 1, ← Nat.add_assoc] at hlater

theorem overwriteNode_eq {store : Indexed} {steps : List Step} {old : Value}
    (h : store.content.follow? steps = some old) (path : Path) (new : Value) :
    overwriteNode path steps old new store = (.ok (), store.overwrite path steps old new) := by
  have hnew : (writeNode steps new store).content.follow? steps = some new := follow?_writeNode h
  simp only [overwriteNode, modify_bind_editing, modify_editing, dropBelow_eq]
  exact congrArg (Prod.mk (Except.ok ())) (addBelow_eq hnew)

theorem createChild_eq {store : Indexed} {steps : List Step} {parent : Value}
    (h : store.content.follow? steps = some parent) (pointer : Pointer) (path : Path)
    (last : String) (new : Value) :
    createChild pointer path steps last new parent store =
      wholly store (store.create pointer path steps last new parent) := by
  cases parent with
  | map fields =>
      have hstep : (Value.map (Entries.insert fields last new)).stepTo? (.key last) = some new := by
        simp [Value.stepTo?, Entries.find?_insert]
      simp only [createChild, modify_bind_editing, modify_editing]
      rw [addBelow_eq (follow?_writeNode_child h hstep)]
      rfl
  | list items =>
      have hstep : (Value.list (items ++ [new])).stepTo? (.index items.length) = some new := by
        simp [Value.stepTo?]
      simp only [createChild, Indexed.create]
      split
      · simp only [modify_bind_editing]
        cases token? items.length with
        | none => rfl
        | some token =>
            simp only [modify_bind_editing, modify_editing]
            rw [addBelow_eq (follow?_writeNode_child h hstep)]
            rfl
      · rfl
  | _ => rfl

theorem updateIndexed_eq (store : Indexed) (pointer : Pointer) (new : Value) :
    updateIndexed pointer new store = wholly store (store.update pointer new) := by
  unfold updateIndexed Indexed.update
  cases pointer.path? with
  | none => rfl
  | some path =>
      simp only
      cases path.getLast? with
      | none => rfl
      | some last =>
          simp only [get_bind_editing]
          cases store.index[path]? with
          | some steps =>
              simp only [get_bind_editing]
              cases hold : store.content.follow? steps with
              | none => rfl
              | some old => exact overwriteNode_eq hold path new
          | none =>
              simp only [get_bind_editing]
              cases store.index.steps? path.parent with
              | none => rfl
              | some steps =>
                  simp only [get_bind_editing]
                  cases hparent : store.content.follow? steps with
                  | none => rfl
                  | some parent => exact createChild_eq hparent pointer path.parent last new

theorem removeChild_eq {store : Indexed} {steps : List Step} {parent : Value}
    (h : store.content.follow? steps = some parent) (path : Path) (step : Step) :
    removeChild path steps step parent store =
      removed store (store.removeStep? path steps step parent) := by
  cases parent with
  | map fields =>
      cases step with
      | index i => rfl
      | key key =>
          simp only [removeChild, Indexed.removeStep?, modify_bind_state]
          cases hold : Entries.find? fields key with
          | none =>
              rw [Entries.erase_eq_self hold, writeNode_self h]
              rfl
          | some old =>
              simp only [modify_bind_state, dropBelow_eq]
              rfl
  | list items =>
      cases step with
      | key key => rfl
      | index i =>
          simp only [removeChild, Indexed.removeStep?]
          split
          · simp only [modify_bind_state]
            rw [bind_state, enterItems_eq ?_]
            · rfl
            · intro k v hv
              refine follow?_writeNode_child h ?_
              rwa [List.getElem?_drop] at hv
          · rfl
  | _ => rfl

theorem deleteIndexed_eq (store : Indexed) (pointer : Pointer) :
    deleteIndexed pointer store = removed store (store.delete? pointer) := by
  unfold deleteIndexed Indexed.delete?
  cases pointer.path? with
  | none => rfl
  | some path =>
      cases path with
      | nil => rfl
      | cons token tokens =>
          simp only [get_bind_state]
          cases store.index[token :: tokens]? with
          | none => rfl
          | some steps =>
              simp only
              cases steps.getLast? with
              | none => rfl
              | some step =>
                  simp only [get_bind_state]
                  cases hparent : store.content.follow? steps.dropLast with
                  | none => rfl
                  | some parent => exact removeChild_eq hparent (token :: tokens) step

/-! ### Either store, and a document behind it -/

/-- Replaces or creates the node a pointer addresses. -/
def update (pointer : Pointer) (new : Value) : Editing Store Unit
  | .direct store => (updateDirect pointer new store).map id .direct
  | .indexed store => (updateIndexed pointer new store).map id .indexed

/-- Removes the node a pointer addresses; the answer tells whether there was one. -/
def delete (pointer : Pointer) : StateM Store Bool
  | .direct store => (deleteDirect pointer store).map id .direct
  | .indexed store => (deleteIndexed pointer store).map id .indexed

theorem update_eq (store : Store) (pointer : Pointer) (new : Value) :
    update pointer new store = wholly store (store.update pointer new) := by
  cases store with
  | direct store =>
      rw [update, updateDirect_eq, Store.update]
      cases store.update pointer new <;> rfl
  | indexed store =>
      rw [update, updateIndexed_eq, Store.update]
      cases store.update pointer new <;> rfl

theorem delete_eq (store : Store) (pointer : Pointer) :
    delete pointer store = removed store (store.delete? pointer) := by
  cases store with
  | direct store =>
      rw [delete, deleteDirect_eq, Store.delete?]
      cases store.delete? pointer <;> rfl
  | indexed store =>
      rw [delete, deleteIndexed_eq, Store.delete?]
      cases store.delete? pointer <;> rfl

/-- A value with its directives resolved, if references are allowed; the resolver remembers them. -/
def resolved (files : Files) (new : Value) : Editing Document Value := fun d =>
  match d.resolver? with
  | none => (.ok new, d)
  | some resolver =>
    let (answer, resolver) := Resolver.resolve files d.store new "<update>" resolver
    (answer, { d with resolver? := some resolver })

/-- Writes to the store of a document. -/
def written (pointer : Pointer) (v : Value) : Editing Document Unit := fun d =>
  let (answer, store) := update pointer v d.store
  (answer, { d with store })

/-- Writes a value at the text of a pointer. -/
def updateDocument (files : Files) (raw : String) (new : Value) : Editing Document Unit := do
  let pointer ← Pointer.ofText raw
  let v ← resolved files new
  written pointer v

theorem written_eq (d : Document) (pointer : Pointer) (v : Value) :
    written pointer v d =
      match d.store.update pointer v with
      | .error fault => (.error fault, d)
      | .ok store => (.ok (), { d with store }) := by
  rw [written, update_eq]
  cases d.store.update pointer v <;> rfl

theorem updateDocument_eq (files : Files) (d : Document) (raw : String) (new : Value) :
    updateDocument files raw new d = d.update files raw new := by
  unfold updateDocument Document.update
  cases Pointer.ofText raw with
  | error fault => rfl
  | ok pointer =>
      show ((resolved files new >>= written pointer : Editing Document Unit)) d = _
      rw [bind_editing, resolved]
      cases d.resolver? with
      | none => exact written_eq d pointer new
      | some resolver =>
          simp only
          cases Resolver.resolve files d.store new "<update>" resolver with
          | mk answer resolver =>
              cases answer with
              | error fault => rfl
              | ok v => exact written_eq _ pointer v

theorem store_resolved (files : Files) (new : Value) (d : Document) :
    (resolved files new d).2.store = d.store := by
  unfold resolved
  split <;> rfl

theorem store_of_written_eq_error {d after : Document} {pointer : Pointer} {v : Value}
    {fault : Fault} (h : written pointer v d = (.error fault, after)) : after.store = d.store := by
  rw [written_eq] at h
  split at h
  · exact congrArg Document.store (Prod.mk.inj h).2.symm
  · exact absurd (Prod.mk.inj h).1 (by simp)

/-- Whatever it is that fails, resolving or writing, the store is what it was. -/
theorem store_of_updateDocument_eq_error {files : Files} {d after : Document} {raw : String}
    {new : Value} {fault : Fault} (h : updateDocument files raw new d = (.error fault, after)) :
    after.store = d.store := by
  unfold updateDocument at h
  cases hp : Pointer.ofText raw with
  | error malformed =>
      rw [hp] at h
      exact congrArg Document.store (Prod.mk.inj h).2.symm
  | ok pointer =>
      rw [hp] at h
      change ((resolved files new >>= written pointer : Editing Document Unit)) d = _ at h
      rw [bind_editing] at h
      have hstore := store_resolved files new d
      split at h
      · rename_i v d' hresolved
        rw [hresolved] at hstore
        exact (store_of_written_eq_error h).trans hstore
      · rename_i unresolved d' hresolved
        rw [hresolved] at hstore
        exact (congrArg Document.store (Prod.mk.inj h).2.symm).trans hstore

/-- **An edit that fails changes nothing.**  A program that updates a store or removes a node ends
in a fault, or answers that there was no such node, exactly if the edit has no store to answer
with, and leaves document and index as they were; a program that updates a document ends in a
fault exactly if the update does, be it that of a text that is no pointer, of resolving or of the
store, and leaves its store as it was. -/
theorem failures_change_nothing :
    (∀ (store after : Store) pointer new fault,
      update pointer new store = (.error fault, after) ↔
        store.update pointer new = .error fault ∧ after = store) ∧
    (∀ (store after : Store) pointer,
      delete pointer store = (false, after) ↔ store.delete? pointer = none ∧ after = store) ∧
    (∀ files (d after : Document) raw new fault,
      updateDocument files raw new d = (.error fault, after) ↔
        d.update files raw new = (.error fault, after) ∧ after.store = d.store) := by
  refine ⟨?_, ?_, ?_⟩
  · intro store after pointer new fault
    rw [update_eq]
    exact wholly_eq_error_iff
  · intro store after pointer
    rw [delete_eq]
    exact removed_eq_false_iff
  · intro files d after raw new fault
    rw [← updateDocument_eq]
    exact ⟨fun h => ⟨h, store_of_updateDocument_eq_error h⟩, fun h => h.1⟩

end InPlace

end Docweave
