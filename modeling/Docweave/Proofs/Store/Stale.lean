import Docweave.Proofs.Store.Agreement
import Mathlib.Data.List.Forall2

/-!
A stale index never lies.

Once a document is changed behind its index, the index no longer says which nodes there are, and
every write mends an index that does not describe the tree.  What survives is less than
`Indexed.Fits` and is all that is needed: each entry spells its own path, token by token, whatever
the document looks like now.  Steps that spell a path either lead nowhere or are the steps to the
node of that path, because following them checks at every node that it is of the kind the step is
for.  So a stale store may refuse what the document would allow, and that is the worst it does.

`Index.Spelled` is kept by adding and by dropping any value at any path, so it does not matter
whether the value a write drops is the one that was once indexed there.
-/

namespace Docweave

/-- The token that a step stands for. -/
def Step.token? : Step → Option String
  | .key name => some name
  | .index i => Docweave.token? i

/-- The steps stand for the tokens of the path, one for one. -/
def Spells (path : Path) (steps : List Step) : Prop :=
  List.Forall₂ (fun token (step : Step) => step.token? = some token) path steps

namespace Spells

theorem nil : Spells [] [] :=
  List.Forall₂.nil

theorem child {path : Path} {steps : List Step} (h : Spells path steps) {token : String}
    {step : Step} (hstep : step.token? = some token) :
    Spells (path.child token) (steps ++ [step]) :=
  List.rel_append h (.cons hstep .nil)

/-- All but the last step spell the path of the parent. -/
theorem dropLast {path : Path} {steps : List Step} (h : Spells path steps) :
    Spells path.parent steps.dropLast := by
  rw [Path.parent, List.dropLast_eq_take, List.dropLast_eq_take, ← h.length_eq]
  exact List.forall₂_take _ h

/-- The last step spells the last token. -/
theorem getLast? {path : Path} {last : String} {steps : List Step} {step : Step}
    (h : Spells (path.child last) steps) (hlast : steps.getLast? = some step) :
    step.token? = some last := by
  obtain ⟨front, rfl⟩ := List.getLast?_eq_some_iff.mp hlast
  have hrev := List.rel_reverse h
  rw [Path.child, List.reverse_append, List.reverse_append] at hrev
  exact (List.forall₂_cons.mp hrev).1

end Spells

namespace Value

/-- A step that leads to a child is the step to the child of its token. -/
theorem stepFor_of_stepTo? {v c : Value} {step : Step} {token : String}
    (htoken : step.token? = some token) (h : v.stepTo? step = some c) :
    v.child? token = some c ∧ v.stepFor token = step := by
  cases step with
  | key key =>
      obtain rfl := Option.some.inj htoken
      cases v with
      | map fields => exact ⟨h, rfl⟩
      | _ => exact absurd h (by simp [stepTo?])
  | index i =>
      have hindex : index? token = some i := token?_eq_some_iff.mp htoken
      cases v with
      | list items => exact ⟨by rw [child?, hindex]; exact h, by rw [stepFor, hindex]; rfl⟩
      | _ => exact absurd h (by simp [stepTo?])

/-- **Steps that spell a path and lead somewhere are the steps to the node of that path.** -/
theorem steps?_of_spells {v w : Value} {path : Path} {steps : List Step} (h : Spells path steps)
    (hfollow : v.follow? steps = some w) : v.steps? path = some steps := by
  induction h generalizing v with
  | nil => exact steps?_nil v
  | cons htoken _ ih =>
      rw [follow?] at hfollow
      obtain ⟨c, hc, hfollow⟩ := Option.bind_eq_some_iff.mp hfollow
      obtain ⟨hchild, hstep⟩ := stepFor_of_stepTo? htoken hc
      rw [steps?_cons, hchild, Option.bind_some, ih hfollow, Option.map_some, hstep]

theorem node?_of_spells {v w : Value} {path : Path} {steps : List Step} (h : Spells path steps)
    (hfollow : v.follow? steps = some w) : v.node? path = some w := by
  rw [← follow?_of_steps? (steps?_of_spells h hfollow), hfollow]

end Value

namespace Index

/-- Every entry is that of a node below the root, and its steps spell its path. -/
def Spelled (index : Index) : Prop :=
  ∀ path steps, index[path]? = some steps → path ≠ [] ∧ Spells path steps

theorem spelled_empty : Spelled ∅ :=
  fun _ _ h => absurd h (by simp)

namespace Spelled

variable {index : Index} {path : Path} {steps : List Step}

theorem steps? (h : index.Spelled) (hsteps : index.steps? path = some steps) :
    Spells path steps := by
  rw [Index.steps?] at hsteps
  split at hsteps
  · next hroot =>
      obtain rfl := Option.some.inj hsteps
      rw [hroot]
      exact .nil
  · exact (h path steps hsteps).2

theorem insert (h : index.Spelled) (hpath : path ≠ []) (hsteps : Spells path steps) :
    Spelled (Std.ExtHashMap.insert index path steps) := by
  intro path' steps' hget
  rw [Std.ExtHashMap.getElem?_insert] at hget
  split at hget
  · next heq =>
      obtain rfl := Option.some.inj hget
      exact eq_of_beq heq ▸ ⟨hpath, hsteps⟩
  · exact h path' steps' hget

theorem erase (h : index.Spelled) (path : Path) : Spelled (Std.ExtHashMap.erase index path) := by
  intro path' steps' hget
  rw [Std.ExtHashMap.getElem?_erase] at hget
  split at hget
  · exact absurd hget (by simp)
  · exact h path' steps' hget

/-! ### Adding and dropping any value -/

/-- A child is added behind steps that spell the path of its parent. -/
theorem addChild {v : Value} (hv : ∀ path steps index, Spelled index → Spells path steps →
      Spelled (add path steps v index))
    (h : index.Spelled) (hsteps : Spells path steps) {token : String} {step : Step}
    (hstep : step.token? = some token) : Spelled (Index.addChild path steps token step v index) :=
  (hv _ _ _ h (hsteps.child hstep)).insert (path.child_ne_nil token) (hsteps.child hstep)

theorem addFields {fields : Fields} (hfields : ∀ e ∈ fields, ∀ path steps index, Spelled index →
      Spells path steps → Spelled (add path steps e.2 index))
    (h : index.Spelled) (hsteps : Spells path steps) :
    Spelled (Index.addFields path steps fields index) := by
  induction fields generalizing index with
  | nil => exact h
  | cons e es ih =>
      rw [Index.addFields]
      exact ih (fun e he => hfields e (List.mem_cons_of_mem _ he))
        (addChild (hfields e List.mem_cons_self) h hsteps rfl)

theorem addItems {items : List Value} (hitems : ∀ v ∈ items, ∀ path steps index, Spelled index →
      Spells path steps → Spelled (add path steps v index))
    (h : index.Spelled) (hsteps : Spells path steps) (i : Nat) :
    Spelled (Index.addItems path steps i items index) := by
  induction items generalizing i index with
  | nil => exact h
  | cons v vs ih =>
      rw [Index.addItems]
      split
      · next token htoken =>
          have hstep : (Step.index i).token? = some token := htoken
          exact ih (fun w hw => hitems w (List.mem_cons_of_mem _ hw))
            (addChild (hitems v List.mem_cons_self) h hsteps hstep) _
      · exact h

theorem add (v : Value) : ∀ path steps index, Spelled index → Spells path steps →
    Spelled (Index.add path steps v index) := by
  induction v using Value.induction with
  | list items ih => exact fun _ _ _ h hsteps => addItems ih h hsteps 0
  | map fields ih => exact fun _ _ _ h hsteps => addFields ih h hsteps
  | _ => exact fun _ _ _ h _ => h

theorem dropFields {fields : Fields} (hfields : ∀ e ∈ fields, ∀ path index, Spelled index →
      Spelled (dropBelow path e.2 index)) (h : index.Spelled) :
    Spelled (Index.dropFields path fields index) := by
  induction fields generalizing index with
  | nil => exact h
  | cons e es ih =>
      rw [Index.dropFields]
      exact ih (fun e he => hfields e (List.mem_cons_of_mem _ he))
        ((hfields e List.mem_cons_self _ _ h).erase _)

theorem dropItems {items : List Value} (hitems : ∀ v ∈ items, ∀ path index, Spelled index →
      Spelled (dropBelow path v index)) (h : index.Spelled) (i : Nat) :
    Spelled (Index.dropItems path i items index) := by
  induction items generalizing i index with
  | nil => exact h
  | cons v vs ih =>
      rw [Index.dropItems]
      split
      · exact ih (fun w hw => hitems w (List.mem_cons_of_mem _ hw))
          ((hitems v List.mem_cons_self _ _ h).erase _) _
      · exact h

theorem dropBelow (v : Value) : ∀ path index, Spelled index →
    Spelled (Index.dropBelow path v index) := by
  induction v using Value.induction with
  | list items ih => exact fun _ _ h => dropItems ih h 0
  | map fields ih => exact fun _ _ h => dropFields ih h
  | _ => exact fun _ _ h => h

end Spelled

theorem spelled_ofValue (root : Value) : (ofValue root).Spelled :=
  .add root [] [] ∅ spelled_empty .nil

end Index

namespace Indexed

variable {store : Indexed}

/-- What a look-up finds is the node of its pointer. -/
theorem lookup_of_get (h : store.index.Spelled) {pointer : Pointer} {v : Value}
    (hget : store.get pointer = .ok v) : store.content.lookup pointer = .ok v := by
  unfold get at hget
  split at hget
  · exact absurd hget (by simp)
  · next path hpath =>
      split at hget
      · next w hfollow =>
          obtain rfl := Except.ok.inj hget
          obtain ⟨steps, hsteps, hfollow⟩ := Option.bind_eq_some_iff.mp hfollow
          exact Value.lookup_eq_ok_iff.mpr
            ⟨path, hpath, Value.node?_of_spells (h.steps? hsteps) hfollow⟩
      · exact absurd hget (by simp)

/-- Overwriting the node behind steps that spell a path writes it to the document, and the index
stays spelled. -/
theorem overwrite_spelled (h : store.index.Spelled) {path : Path} {steps : List Step}
    (hsteps : Spells path steps) {old : Value} (hfollow : store.content.follow? steps = some old)
    (new : Value) : (store.overwrite path steps old new).content = store.content.put path new ∧
      (store.overwrite path steps old new).index.Spelled :=
  ⟨Value.replaceAt_of_steps? (Value.steps?_of_spells hsteps hfollow) new,
    .add new _ _ _ (.dropBelow old _ _ h) hsteps⟩

/-- A child that is created is written to its parent, and the index stays spelled. -/
theorem writeChild_of_create (h : store.index.Spelled) {pointer : Pointer} {path : Path}
    {steps : List Step} (hsteps : Spells path steps) {parent : Value}
    (hfollow : store.content.follow? steps = some parent) {last : String} {new : Value}
    {written : Indexed}
    (hcreate : store.create pointer path steps last new parent = .ok written) :
    (∃ parent', Value.writeChild path last new parent = .ok parent' ∧
      written.content = store.content.put path parent') ∧ written.index.Spelled := by
  have hreplace := Value.replaceAt_of_steps? (Value.steps?_of_spells hsteps hfollow)
  have hnew := Index.Spelled.add new
  cases parent with
  | map fields =>
      obtain rfl := Except.ok.inj hcreate
      exact ⟨⟨_, rfl, hreplace _⟩, .addChild hnew h hsteps rfl⟩
  | list items =>
      simp only [create] at hcreate
      split at hcreate
      · next hlast =>
          obtain rfl := Except.ok.inj hcreate
          refine ⟨⟨_, if_pos hlast, hreplace _⟩, ?_⟩
          dsimp only
          split
          · next token htoken => exact .addChild hnew h hsteps htoken
          · exact h
      · exact absurd hcreate (by simp)
  | _ => exact absurd hcreate (by simp [create])

/-- **An update that is done is done to the document, and the index stays spelled.** -/
theorem written_of_update (h : store.index.Spelled) {pointer : Pointer} {new : Value}
    {written : Indexed} (hu : store.update pointer new = .ok written) :
    store.content.written pointer new = .ok written.content ∧ written.index.Spelled := by
  unfold update at hu
  unfold Value.written
  generalize pointer.path? = path? at hu ⊢
  obtain _ | path := path?
  · exact absurd hu (by simp)
  obtain rfl | ⟨p, last, rfl⟩ := path.eq_nil_or_child
  · exact absurd hu (by simp)
  simp only [Path.getLast?_child, Path.parent_child] at hu ⊢
  split at hu
  · next steps hsteps =>
      split at hu
      · next old hfollow =>
          obtain rfl := Except.ok.inj hu
          have hspells := (h _ _ hsteps).2
          obtain ⟨hcontent, hspelled⟩ := overwrite_spelled h hspells hfollow new
          have hn := Value.node?_of_spells hspells hfollow
          rw [Value.node?_concat] at hn
          obtain ⟨parent, hparent, hc⟩ := Option.bind_eq_some_iff.mp hn
          simp only [hparent, Value.writeChild_of_child? hc, hcontent, Value.put_child hparent hc]
          exact ⟨trivial, hspelled⟩
      · exact absurd hu (by simp)
  · split at hu
    · exact absurd hu (by simp)
    next steps hsteps =>
    split at hu
    · next parent hfollow =>
        have hspells := h.steps? hsteps
        obtain ⟨⟨parent', hwrite, hcontent⟩, hspelled⟩ :=
          writeChild_of_create h hspells hfollow hu
        simp only [Value.node?_of_spells hspells hfollow, hwrite, hcontent]
        exact ⟨trivial, hspelled⟩
    · exact absurd hu (by simp)

/-- A child that is removed behind a step that spells its token is removed from its parent, and
the index stays spelled. -/
theorem removeChild?_of_removeStep? (h : store.index.Spelled) {p : Path} {last : String}
    {steps : List Step} (hsteps : Spells p steps) {parent : Value}
    (hfollow : store.content.follow? steps = some parent) {step : Step}
    (hstep : step.token? = some last) {rest : Indexed}
    (hremove : store.removeStep? (p.child last) steps step parent = some rest) :
    (∃ parent', Value.removeChild? last parent = some parent' ∧
      rest.content = store.content.put p parent') ∧ rest.index.Spelled := by
  have hreplace := Value.replaceAt_of_steps? (Value.steps?_of_spells hsteps hfollow)
  unfold removeStep? at hremove
  split at hremove
  · next fields key =>
      obtain rfl : key = last := Option.some.inj hstep
      obtain ⟨old, hold, rfl⟩ := Option.map_eq_some_iff.mp hremove
      refine ⟨⟨_, ?_, hreplace _⟩, (Index.Spelled.dropBelow old _ _ h).erase _⟩
      rw [Value.removeChild?, Entries.contains, hold, Option.isSome_some, if_pos rfl]
  · next items i =>
      have hindex : index? last = some i := token?_eq_some_iff.mp hstep
      obtain ⟨hlt, hrest⟩ := Option.ite_none_right_eq_some.mp hremove
      obtain rfl := Option.some.inj hrest
      refine ⟨⟨_, ?_, hreplace _⟩, ?_⟩
      · simp only [Value.removeChild?, hindex, if_pos hlt]
      · rw [Path.parent_child]
        exact .addItems (fun v _ => .add v) (.dropItems (fun v _ => .dropBelow v) h i) hsteps i
  · exact absurd hremove (by simp)

theorem delete?_of_child {pointer : Pointer} {p : Path} {last : String}
    (hpath : pointer.path? = some (p.child last)) :
    store.delete? pointer = (store.index[p.child last]?).bind fun steps =>
      steps.getLast?.bind fun step => (store.content.follow? steps.dropLast).bind fun parent =>
        store.removeStep? (p.child last) steps.dropLast step parent := by
  obtain ⟨first, rest, hcons⟩ := List.exists_cons_of_ne_nil (p.child_ne_nil last)
  rw [delete?, hpath, hcons]
  dsimp only
  cases store.index[first :: rest]? with
  | none => rfl
  | some steps =>
      dsimp only [Option.bind_some]
      cases steps.getLast? <;> rfl

/-- **A removal that is done is done to the document, and the index stays spelled.** -/
theorem removed?_of_delete? (h : store.index.Spelled) {pointer : Pointer} {rest : Indexed}
    (hd : store.delete? pointer = some rest) :
    store.content.removed? pointer = some rest.content ∧ rest.index.Spelled := by
  unfold Value.removed?
  cases hpath : pointer.path? with
  | none => exact absurd hd (by simp [delete?, hpath])
  | some path =>
      obtain rfl | ⟨p, last, rfl⟩ := path.eq_nil_or_child
      · rw [delete?, hpath] at hd
        obtain rfl := Option.some.inj hd
        exact ⟨rfl, Index.spelled_empty⟩
      · rw [delete?_of_child hpath] at hd
        obtain ⟨steps, hsteps, hd⟩ := Option.bind_eq_some_iff.mp hd
        obtain ⟨step, hlast, hd⟩ := Option.bind_eq_some_iff.mp hd
        obtain ⟨parent, hfollow, hremove⟩ := Option.bind_eq_some_iff.mp hd
        have hspells := (h _ _ hsteps).2
        have habove : Spells p steps.dropLast := by simpa using hspells.dropLast
        obtain ⟨⟨parent', hparent', hcontent⟩, hspelled⟩ :=
          removeChild?_of_removeStep? h habove hfollow (hspells.getLast? hlast) hremove
        simp only [Path.getLast?_child, Path.parent_child]
        rw [Value.node?_of_spells habove hfollow, Option.bind_some, hparent', hcontent]
        exact ⟨rfl, hspelled⟩

end Indexed

end Docweave
