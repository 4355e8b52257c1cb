import Docweave.Proofs.Store.Direct
import Docweave.Proofs.Store.Index

/-!
The indexed store answers what its document answers.

The invariant is `Indexed.Fits`: for every path the index has the steps to its node, and nothing
for a path without one.  While it holds, a look-up in the index and a walk by steps find what a
walk by tokens finds.  Every write exchanges one node of the document, and `Fits.put` says what is
left to show for it: beside that node the index is as it was, and below it the index lists what
was written.
-/

namespace Docweave

namespace Value

/-- The step to a child is the last one to a node below a node. -/
theorem steps?_child {v parent c : Value} {p : Path} {last : String} {steps : List Step}
    (hn : v.node? p = some parent) (hs : v.steps? p = some steps)
    (hc : parent.child? last = some c) :
    v.steps? (p.child last) = some (steps ++ [parent.stepFor last]) := by
  rw [Path.child, steps?_append hn hs, steps?_cons, hc]
  rfl

theorem steps?_eq_none {v : Value} {p : Path} (h : v.node? p = none) : v.steps? p = none := by
  rw [← Option.isNone_iff_eq_none, ← Option.isSome_eq_false_iff, steps?_isSome, h]
  rfl

theorem exists_steps {v w : Value} {p : Path} (h : v.node? p = some w) :
    ∃ steps, v.steps? p = some steps :=
  Option.isSome_iff_exists.mp ((steps?_isSome v p).trans (Option.isSome_of_eq_some h))

theorem steps?_child_eq_none {v parent : Value} {p : Path} {last : String}
    (hn : v.node? p = some parent) (hc : parent.child? last = none) :
    v.steps? (p.child last) = none :=
  steps?_eq_none (by rw [node?_concat, hn, Option.bind_some, hc])

/-- Beside an element that is appended a list has the children that it had. -/
theorem child?_append {items : List Value} {new : Value} {token : String}
    (h : index? token ≠ some items.length) :
    (list (items ++ [new])).child? token = (list items).child? token := by
  refine Option.bind_congr fun j hj => ?_
  have hj' : j ≠ items.length := fun heq => h (heq ▸ hj)
  rw [List.getElem?_append]
  split
  · rfl
  · rw [List.getElem?_eq_none (by simp; omega), List.getElem?_eq_none (by omega)]

/-- Writing to a child that is there exchanges it. -/
theorem writeChild_of_child? {v c : Value} {token : String} (h : v.child? token = some c)
    (seen : Path) (new : Value) : writeChild seen token new v = .ok (setChild token new v) := by
  cases v with
  | map fields => rfl
  | list items =>
      obtain ⟨i, hi, hc⟩ := Option.bind_eq_some_iff.mp h
      have hne : token ≠ appendToken := by
        rintro rfl
        rw [index?_appendToken] at hi
        exact absurd hi (by simp)
      have hlt : i < items.length := (List.getElem?_eq_some_iff.mp hc).1
      simp only [writeChild, if_neg hne, hi, if_pos hlt, setChild]
  | _ => exact absurd h (by simp [child?])

theorem removeChild?_of_child?_eq_none {v : Value} {token : String} (h : v.child? token = none) :
    removeChild? token v = none := by
  cases v with
  | map fields =>
      have hc : Entries.contains fields token = false := by
        rw [Entries.contains, Option.isSome_eq_false_iff, Option.isNone_iff_eq_none]
        exact h
      simp [removeChild?, hc]
  | list items =>
      simp only [removeChild?]
      cases hi : index? token with
      | none => rfl
      | some i =>
          rw [child?, hi, Option.bind_some, List.getElem?_eq_none_iff] at h
          simp only [if_neg (Nat.not_lt.mpr h)]
  | _ => rfl

theorem put_child {v parent c : Value} {p : Path} {last : String} (hn : v.node? p = some parent)
    (hc : parent.child? last = some c) (new : Value) :
    v.put (p.child last) new = v.put p (setChild last new parent) := by
  rw [Path.child, put_append hn, put_cons_of_child? hc, put_nil]

theorem itemFrom?_drop (i : Nat) (items : List Value) (token : String) :
    itemFrom? i (items.drop i) token =
      (index? token).bind fun j => if i ≤ j then items[j]? else none := by
  refine Option.bind_congr fun j _ => ?_
  by_cases hij : i ≤ j
  · rw [if_pos hij, if_pos hij, List.getElem?_drop, Nat.add_sub_cancel' hij]
  · rw [if_neg hij, if_neg hij]

end Value

namespace Indexed

/-- The index holds the steps to every node below the root, and nothing else. -/
def Fits (store : Indexed) : Prop :=
  ∀ token path, store.index[token :: path]? = store.content.steps? (token :: path)

/-- What an operation answers is what the document answers, and the index still fits. -/
def Answers (answer : Except Fault Indexed) (spec : Except FaultKind Value) : Prop :=
  match answer with
  | .ok store => spec = .ok store.content ∧ store.Fits
  | .error fault => spec = .error fault.kind

theorem fits_ofValue {root : Value} (hroot : root.WellFormed) : (ofValue root).Fits := by
  intro token path
  have h := (Index.adds root hroot).below [] [] ∅ token path
  simp only [List.nil_append, Std.ExtHashMap.getElem?_empty, Option.or_none, Option.map_id'] at h
  exact h

namespace Fits

variable {store : Indexed} {p : Path} {parent old : Value} {steps : List Step}

theorem steps?_eq (h : store.Fits) (path : Path) :
    store.index.steps? path = store.content.steps? path := by
  cases path with
  | nil => rw [Value.steps?_nil, Index.steps?, if_pos rfl]
  | cons token path => rw [Index.steps?, if_neg (List.cons_ne_nil token path), h token path]

theorem follow?_eq (h : store.Fits) (path : Path) :
    ((store.index.steps? path).bind fun steps => store.content.follow? steps) =
      store.content.node? path := by
  rw [h.steps?_eq]
  cases hs : store.content.steps? path with
  | some steps => rw [Option.bind_some, Value.follow?_of_steps? hs]
  | none =>
      cases hn : store.content.node? path with
      | none => rfl
      | some v =>
          obtain ⟨steps, hsteps⟩ := Value.exists_steps hn
          exact absurd (hs.symm.trans hsteps) (by simp)

theorem getElem?_child (h : store.Fits) (p : Path) (last : String) :
    store.index[p.child last]? = store.content.steps? (p.child last) := by
  rw [← h.steps?_eq, Index.steps?, if_neg (p.child_ne_nil last)]

/-- Below a node the index holds the steps to it, and on from there. -/
theorem below (h : store.Fits) (hn : store.content.node? p = some parent)
    (hs : store.content.steps? p = some steps) (token : String) (r : Path) :
    store.index[p ++ token :: r]? =
      (parent.steps? (token :: r)).map fun below => steps ++ below := by
  rw [← Value.steps?_append hn hs]
  cases p with
  | nil => exact h token r
  | cons first p => exact h first (p ++ token :: r)

/-- **An index fits again after a node is exchanged, if it is as before beside the node and lists
the nodes below what was put.** -/
theorem put (h : store.Fits) (hn : store.content.node? p = some parent)
    (hs : store.content.steps? p = some steps) {new : Value} {index : Index}
    (hbeside : ∀ q, (∀ token r, q ≠ p ++ token :: r) → index[q]? = store.index[q]?)
    (hbelow : ∀ token r, index[p ++ token :: r]? =
      (new.steps? (token :: r)).map fun below => steps ++ below) :
    Fits ⟨store.content.put p new, index⟩ := by
  intro first path
  show index[first :: path]? = (store.content.put p new).steps? (first :: path)
  by_cases hq : ∃ token r, first :: path = p ++ token :: r
  · obtain ⟨token, r, hq⟩ := hq
    have hself := Value.node?_put_self (Option.isSome_of_eq_some hn) new
    have hsteps : (store.content.put p new).steps? p = some steps := by
      rw [Value.steps?_put _ (fun token r heq => by simpa using congrArg List.length heq), hs]
    rw [hq, hbelow, Value.steps?_append hself hsteps]
  · have hq' : ∀ token r, first :: path ≠ p ++ token :: r :=
      fun token r heq => hq ⟨token, r, heq⟩
    rw [hbeside _ hq', h first path, Value.steps?_put _ hq']

/-! ### What each write does to the index -/

theorem overwrite (h : store.Fits) (hn : store.content.node? p = some old)
    (hs : store.content.steps? p = some steps) (hold : old.WellFormed) {new : Value}
    (hnew : new.WellFormed) : (store.overwrite p steps old new).Fits := by
  rw [Indexed.overwrite, Value.replaceAt_of_steps? hs]
  refine h.put hn hs ?_ ?_
  · intro q hq
    rw [(Index.adds new hnew).beside _ _ _ _ hq, (Index.drops old hold).beside _ _ _ hq]
  · intro token r
    rw [(Index.adds new hnew).below, (Index.drops old hold).below, h.below hn hs,
      ← Value.steps?_isSome]
    cases old.steps? (token :: r) <;> simp

/-- A new child is listed with the nodes below it. -/
theorem addChild (h : store.Fits) (hn : store.content.node? p = some parent)
    (hs : store.content.steps? p = some steps) {new parent' : Value} (hnew : new.WellFormed)
    {token : String} {step : Step} (hnone : parent.child? token = none)
    (hself : parent'.child? token = some new) (hstep : parent'.stepFor token = step)
    (hother : ∀ other, token ≠ other → parent'.child? other = parent.child? other ∧
      parent'.stepFor other = parent.stepFor other) :
    Fits ⟨store.content.put p parent', Index.addChild p steps token step new store.index⟩ := by
  refine h.put hn hs ?_ ?_
  · intro q hq
    rw [Index.getElem?_addChild_of_ne (Index.adds new hnew) (hq token)]
  · intro other r
    by_cases hne : token = other
    · subst hne
      rw [Index.getElem?_addChild_self (Index.adds new hnew), h.below hn hs, Value.steps?_cons,
        Value.steps?_cons, hnone, hself, hstep, Option.bind_some, Option.bind_none, Option.map_none,
        Option.or_none, Option.map_map]
      rfl
    · rw [Index.getElem?_addChild_of_ne (Index.adds new hnew), h.below hn hs, Value.steps?_cons,
        Value.steps?_cons, (hother other hne).1, (hother other hne).2]
      exact fun r' heq => hne (List.cons.inj (List.append_cancel_left heq)).1.symm

/-- An element that is appended is listed, if there is a token for it. -/
theorem append (h : store.Fits) {items : List Value}
    (hn : store.content.node? p = some (.list items)) (hs : store.content.steps? p = some steps)
    {new : Value} (hnew : new.WellFormed) :
    Fits ⟨store.content.put p (.list (items ++ [new])),
      match token? items.length with
      | some token => Index.addChild p steps token (.index items.length) new store.index
      | none => store.index⟩ := by
  cases htoken : token? items.length with
  | some token =>
      have hindex := token?_eq_some_iff.mp htoken
      refine h.addChild hn hs hnew ?_ ?_ ?_ fun other hne => ⟨Value.child?_append ?_, rfl⟩
      · simp [Value.child?, hindex]
      · simp [Value.child?, hindex]
      · simp only [Value.stepFor, hindex, Option.getD_some]
      · exact fun heq => hne (index?_inj hindex heq)
  | none =>
      refine h.put hn hs (fun _ _ => rfl) fun token r => ?_
      have hchild : (Value.list (items ++ [new])).child? token = (Value.list items).child? token :=
        Value.child?_append (index?_ne_of_token?_eq_none htoken token)
      rw [h.below hn hs, Value.steps?_cons, Value.steps?_cons, hchild]
      rfl

/-- An entry that is removed is dropped with the nodes below it. -/
theorem removeKey (h : store.Fits) {fields : Fields}
    (hn : store.content.node? p = some (.map fields)) (hs : store.content.steps? p = some steps)
    (hdistinct : Entries.Distinct fields) {key : String}
    (hold : Entries.find? fields key = some old) (hwell : old.WellFormed) :
    Fits ⟨store.content.put p (.map (Entries.erase fields key)),
      Index.dropChild p key old store.index⟩ := by
  refine h.put hn hs ?_ ?_
  · intro q hq
    rw [Index.getElem?_dropChild_of_ne (Index.drops old hwell) (hq key)]
  · intro token r
    by_cases hne : key = token
    · subst hne
      rw [Index.getElem?_dropChild_self (Index.drops old hwell), h.below hn hs, Value.steps?_cons,
        Value.steps?_cons, ← Value.steps?_isSome]
      simp only [Value.child?, hold, hdistinct.find?_erase key, Option.bind_some]
      cases old.steps? r <;> simp
    · rw [Index.getElem?_dropChild_of_ne (Index.drops old hwell), h.below hn hs, Value.steps?_cons,
        Value.steps?_cons]
      · simp only [Value.child?, Entries.find?_erase_of_ne fields hne, Value.stepFor]
      · exact fun r' heq => hne (List.cons.inj (List.append_cancel_left heq)).1.symm

/-- The later siblings of an element that is removed are listed anew. -/
theorem removeItem (h : store.Fits) {items : List Value}
    (hn : store.content.node? p = some (.list items)) (hs : store.content.steps? p = some steps)
    (hwell : ∀ v ∈ items, v.WellFormed) (i : Nat) :
    Fits ⟨store.content.put p (.list (items.eraseIdx i)),
      Index.addItems p steps i ((items.eraseIdx i).drop i)
        (Index.dropItems p i (items.drop i) store.index)⟩ := by
  have hadd : ∀ v ∈ (items.eraseIdx i).drop i, Index.Adds v := fun v hv =>
    Index.adds v (hwell v (List.mem_of_mem_eraseIdx (List.mem_of_mem_drop hv)))
  have hdrop : ∀ v ∈ items.drop i, Index.Drops v := fun v hv =>
    Index.drops v (hwell v (List.mem_of_mem_drop hv))
  refine h.put hn hs ?_ ?_
  · intro q hq
    rw [Index.getElem?_addItems_beside hadd i _ hq, Index.getElem?_dropItems_beside hdrop i _ hq]
  · intro token r
    rw [Index.getElem?_addItems hadd, Index.getElem?_dropItems hdrop, h.below hn hs,
      Value.itemFrom?_drop, Value.itemFrom?_drop, Value.steps?_cons, Value.steps?_cons]
    simp only [Value.child?, Value.stepFor]
    cases index? token with
    | none => rfl
    | some j =>
        simp only [Option.bind_some, Option.getD_some]
        by_cases hij : i ≤ j
        · -- From the element on, what is dropped is all that the index held there.
          simp only [if_pos hij]
          cases items[j]? with
          | none => cases (items.eraseIdx i)[j]? <;> simp [Option.map_map, Function.comp_def]
          | some c =>
              simp only [Option.bind_some, ← Value.steps?_isSome]
              cases (items.eraseIdx i)[j]? <;> cases c.steps? r <;>
                simp [Option.map_map, Function.comp_def]
        · have hlt : j < i := by omega
          simp [if_neg hij, List.getElem?_eraseIdx_of_lt hlt]

theorem clear (content : Value) : Fits ⟨content.cleared, ∅⟩ := by
  intro token path
  rw [Std.ExtHashMap.getElem?_empty, Value.steps?_cons]
  cases content <;> simp [Value.cleared, Value.child?]

end Fits

/-! ### What the store answers -/

variable {store : Indexed}

theorem get_mapError (h : store.Fits) (pointer : Pointer) :
    (store.get pointer).mapError Fault.kind = store.content.found pointer := by
  unfold get Value.found
  cases pointer.path? with
  | none => rfl
  | some path =>
      simp only [h.follow?_eq]
      cases store.content.node? path <;> rfl

theorem has_eq (h : store.Fits) (pointer : Pointer) :
    store.has pointer = (store.content.found pointer).isOk := by
  unfold has Value.found
  cases pointer.path? with
  | none => rfl
  | some path =>
      simp only [h.steps?_eq, Value.steps?_isSome]
      cases store.content.node? path <;> rfl

/-- Creating a child answers what writing it to its parent answers. -/
theorem create_answers (h : store.Fits) {pointer : Pointer} {p : Path} {parent : Value}
    {steps : List Step} (hn : store.content.node? p = some parent)
    (hs : store.content.steps? p = some steps) {last : String}
    (hnone : parent.child? last = none) {new : Value} (hnew : new.WellFormed) :
    Answers (store.create pointer p steps last new parent)
      (match Value.writeChild p last new parent with
        | .ok parent => .ok (store.content.put p parent)
        | .error (.miss _) => .error .notFound
        | .error (.refused _) => .error .refused) := by
  cases parent with
  | map fields =>
      simp only [create, Value.writeChild, Value.replaceAt_of_steps? hs]
      refine ⟨rfl, h.addChild hn hs hnew hnone ?_ rfl ?_⟩
      · simp only [Value.child?, Entries.find?_insert, if_pos]
      · intro other hne
        simp only [Value.child?, Entries.find?_insert, if_neg hne, Value.stepFor, and_self]
  | list items =>
      simp only [create, Value.writeChild]
      by_cases hlast : last = appendToken
      · simp only [if_pos hlast, Value.replaceAt_of_steps? hs]
        exact ⟨rfl, h.append hn hs hnew⟩
      · simp only [if_neg hlast]
        cases hi : index? last with
        | none => rfl
        | some i =>
            simp only [Value.child?, hi, Option.bind_some, List.getElem?_eq_none_iff] at hnone
            simp only [if_neg (Nat.not_lt.mpr hnone)]
            rfl
  | _ => rfl

/-- **An update answers what the document answers, and the index still fits.** -/
theorem update_answers (h : store.Fits) (hwell : store.content.WellFormed) (pointer : Pointer)
    {new : Value} (hnew : new.WellFormed) :
    Answers (store.update pointer new) (store.content.written pointer new) := by
  unfold update Value.written
  cases pointer.path? with
  | none => rfl
  | some path =>
      rcases path.eq_nil_or_child with rfl | ⟨p, last, rfl⟩
      · rfl
      simp only [Path.getLast?_child, Path.parent_child, h.steps?_eq, h.getElem?_child]
      cases hn : store.content.node? p with
      | none =>
          rw [Value.steps?_eq_none hn, Value.steps?_eq_none (by rw [Value.node?_concat, hn]; rfl)]
          rfl
      | some parent =>
          obtain ⟨steps, hs⟩ := Value.exists_steps hn
          cases hc : parent.child? last with
          | some old =>
              have hsteps := Value.steps?_child hn hs hc
              have hnode : store.content.node? (p.child last) = some old := by
                rw [Value.node?_concat, hn, Option.bind_some, hc]
              simp only [hsteps, Value.follow?_of_steps? hsteps, hnode,
                Value.writeChild_of_child? hc]
              refine ⟨?_, h.overwrite hnode hsteps (hwell.of_node? hnode) hnew⟩
              rw [overwrite, Value.replaceAt_of_steps? hsteps, Value.put_child hn hc]
          | none =>
              simp only [Value.steps?_child_eq_none hn hc, hs, Value.follow?_of_steps? hs, hn]
              exact create_answers h hn hs hc hnew

/-- Removing the child behind a step answers what removing it from its parent answers. -/
theorem removeStep?_answers (h : store.Fits) {p : Path} {parent old : Value} {steps : List Step}
    (hn : store.content.node? p = some parent) (hs : store.content.steps? p = some steps)
    (hwell : parent.WellFormed) {last : String} (hc : parent.child? last = some old) :
    ∃ parent' rest, Value.removeChild? last parent = some parent' ∧
      store.removeStep? (p.child last) steps (parent.stepFor last) parent = some rest ∧
      rest.content = store.content.put p parent' ∧ rest.Fits := by
  cases parent with
  | map fields =>
      have hfind : Entries.find? fields last = some old := hc
      refine ⟨.map (Entries.erase fields last),
        ⟨store.content.put p (.map (Entries.erase fields last)),
          Index.dropChild p last old store.index⟩, ?_, ?_, rfl, ?_⟩
      · rw [Value.removeChild?, Entries.contains, hfind, Option.isSome_some, if_pos rfl]
      · simp only [removeStep?, Value.stepFor, hfind, Option.map_some, Value.replaceAt_of_steps? hs]
        rfl
      · exact h.removeKey hn hs (Value.wellFormed_map_iff.mp hwell).1 hfind (hwell.of_child? hc)
  | list items =>
      obtain ⟨i, hi, hitem⟩ := Option.bind_eq_some_iff.mp hc
      have hlt : i < items.length := (List.getElem?_eq_some_iff.mp hitem).1
      refine ⟨.list (items.eraseIdx i),
        ⟨store.content.put p (.list (items.eraseIdx i)),
          Index.addItems p steps i ((items.eraseIdx i).drop i)
            (Index.dropItems p i (items.drop i) store.index)⟩, ?_, ?_, rfl, ?_⟩
      · simp only [Value.removeChild?, hi, if_pos hlt]
      · simp only [removeStep?, Value.stepFor, hi, Option.getD_some, if_pos hlt, Path.parent_child,
          Value.replaceAt_of_steps? hs]
      · exact h.removeItem hn hs (Value.wellFormed_list_iff.mp hwell) i
  | _ => exact absurd hc (by simp [Value.child?])

/-- **A removal answers what the document answers, and the index still fits.** -/
theorem delete?_answers (h : store.Fits) (hwell : store.content.WellFormed) (pointer : Pointer) :
    (store.delete? pointer).map content = store.content.removed? pointer ∧
      ∀ rest, store.delete? pointer = some rest → rest.Fits := by
  unfold delete? Value.removed?
  cases pointer.path? with
  | none => exact ⟨rfl, fun _ heq => absurd heq (by simp)⟩
  | some path =>
      rcases path.eq_nil_or_child with rfl | ⟨p, last, rfl⟩
      · refine ⟨rfl, fun rest heq => ?_⟩
        obtain rfl := Option.some.inj heq
        exact Fits.clear store.content
      have hindex := h.getElem?_child p last
      obtain ⟨first, path, hpath⟩ := List.exists_cons_of_ne_nil (p.child_ne_nil last)
      simp only [Path.getLast?_child, Path.parent_child]
      rw [hpath] at hindex ⊢
      simp only [hindex]
      rw [← hpath]
      cases hn : store.content.node? p with
      | none =>
          rw [Value.steps?_eq_none (by rw [Value.node?_concat, hn]; rfl)]
          exact ⟨rfl, fun _ heq => absurd heq (by simp)⟩
      | some parent =>
          rw [Option.bind_some]
          obtain ⟨steps, hs⟩ := Value.exists_steps hn
          cases hc : parent.child? last with
          | none =>
              rw [Value.steps?_child_eq_none hn hc, Value.removeChild?_of_child?_eq_none hc]
              exact ⟨rfl, fun _ heq => absurd heq (by simp)⟩
          | some old =>
              obtain ⟨parent', rest, hremove, hstep, hcontent, hfits⟩ :=
                removeStep?_answers h hn hs (hwell.of_node? hn) hc
              simp only [Value.steps?_child hn hs hc, List.getLast?_concat, List.dropLast_concat,
                Value.follow?_of_steps? hs, hn, Option.bind_some, hstep, hremove, Option.map_some,
                hcontent, true_and]
              intro rest' heq
              exact Option.some.inj heq ▸ hfits

end Indexed

end Docweave
