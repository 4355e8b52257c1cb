import Docweave.Proofs.Store.Indexed
import Docweave.Store

/-!
Which store a document is behind cannot be told from what it answers.

A store is `Sound` as long as its index, if it has one, fits its document.  A sound store answers
everything its document answers, a store that results from an edit is sound again, and the
document that results depends on the document alone.  So two sound stores with one document stay
two sound stores with one document, whatever is done to both, and `history_agrees` reads off what
that means for the answers.
-/

namespace Docweave

/-- A change that is asked of a store. -/
inductive Edit where
  | update (pointer : Pointer) (value : Value)
  | delete (pointer : Pointer)

/-- No map in the value that is written has a key twice. -/
def Edit.WellFormed : Edit → Prop
  | .update _ value => value.WellFormed
  | .delete _ => True

namespace Store

variable {store a b : Store}

/-- No map in the document has a key twice, and an index fits the document. -/
structure Sound (store : Store) : Prop where
  wellFormed : store.content.WellFormed
  fits : ∀ indexed, store = .indexed indexed → indexed.Fits

theorem sound_direct {direct : Direct} (h : direct.content.WellFormed) : Sound (.direct direct) :=
  ⟨h, fun _ heq => absurd heq (by simp)⟩

theorem sound_indexed {indexed : Indexed} (h : indexed.content.WellFormed) (hfits : indexed.Fits) :
    Sound (.indexed indexed) :=
  ⟨h, fun _ heq => Store.indexed.inj heq ▸ hfits⟩

theorem sound_wrap {root : Value} (h : root.WellFormed) (backend : Backend) :
    Sound (wrap backend root) := by
  cases backend with
  | direct => exact sound_direct h
  | indexed => exact sound_indexed h (Indexed.fits_ofValue h)

@[simp] theorem content_wrap (backend : Backend) (root : Value) :
    (wrap backend root).content = root := by
  cases backend <;> rfl

/-! ### A sound store answers what its document answers -/

theorem get_mapError (h : store.Sound) (pointer : Pointer) :
    (store.get pointer).mapError Fault.kind = store.content.found pointer := by
  cases store with
  | direct direct => exact direct.get_mapError pointer
  | indexed indexed => exact Indexed.get_mapError (h.fits indexed rfl) pointer

theorem has_eq (h : store.Sound) (pointer : Pointer) :
    store.has pointer = (store.content.found pointer).isOk := by
  cases store with
  | direct direct => exact direct.has_eq pointer
  | indexed indexed => exact Indexed.has_eq (h.fits indexed rfl) pointer

theorem update_mapError (h : store.Sound) (pointer : Pointer) {new : Value}
    (hnew : new.WellFormed) :
    ((store.update pointer new).map content).mapError Fault.kind =
      store.content.written pointer new := by
  cases store with
  | direct direct =>
      rw [content, ← direct.update_mapError pointer new, update]
      cases direct.update pointer new <;> rfl
  | indexed indexed =>
      have hanswers := Indexed.update_answers (h.fits indexed rfl) h.wellFormed pointer hnew
      rw [content, update]
      cases hu : indexed.update pointer new with
      | error fault =>
          rw [hu] at hanswers
          exact hanswers.symm
      | ok written =>
          rw [hu] at hanswers
          exact hanswers.1.symm

theorem Sound.update (h : store.Sound) {pointer : Pointer} {new : Value} (hnew : new.WellFormed)
    {written : Store} (hu : store.update pointer new = .ok written) : written.Sound := by
  have hcontent := update_mapError h pointer hnew
  rw [hu] at hcontent
  have hwell : written.content.WellFormed := h.wellFormed.written hnew hcontent.symm
  cases store with
  | direct direct =>
      rw [Store.update] at hu
      cases hd : direct.update pointer new with
      | error fault => rw [hd] at hu; exact absurd hu (by simp [Except.map])
      | ok rest =>
          rw [hd] at hu
          obtain rfl := Except.ok.inj hu
          exact sound_direct hwell
  | indexed indexed =>
      have hanswers := Indexed.update_answers (h.fits indexed rfl) h.wellFormed pointer hnew
      rw [Store.update] at hu
      cases hd : indexed.update pointer new with
      | error fault => rw [hd] at hu; exact absurd hu (by simp [Except.map])
      | ok rest =>
          rw [hd] at hu hanswers
          obtain rfl := Except.ok.inj hu
          exact sound_indexed hwell hanswers.2

theorem delete?_map (h : store.Sound) (pointer : Pointer) :
    (store.delete? pointer).map content = store.content.removed? pointer := by
  cases store with
  | direct direct =>
      rw [content, ← direct.delete?_map pointer, delete?, Option.map_map]
      rfl
  | indexed indexed =>
      rw [content, ← (Indexed.delete?_answers (h.fits indexed rfl) h.wellFormed pointer).1,
        delete?, Option.map_map]
      rfl

theorem Sound.delete? (h : store.Sound) {pointer : Pointer} {rest : Store}
    (hd : store.delete? pointer = some rest) : rest.Sound := by
  have hcontent := delete?_map h pointer
  rw [hd] at hcontent
  have hwell : rest.content.WellFormed := h.wellFormed.removed? hcontent.symm
  cases store with
  | direct direct =>
      obtain ⟨rest', -, rfl⟩ := Option.map_eq_some_iff.mp hd
      exact sound_direct hwell
  | indexed indexed =>
      obtain ⟨rest', hrest, rfl⟩ := Option.map_eq_some_iff.mp hd
      exact sound_indexed hwell
        ((Indexed.delete?_answers (h.fits indexed rfl) h.wellFormed pointer).2 rest' hrest)

/-- What the document comes to the store comes to. -/
theorem exists_update (h : store.Sound) {p : Pointer} {new root' : Value} (hnew : new.WellFormed)
    (hwritten : store.content.written p new = .ok root') :
    ∃ written, store.update p new = .ok written ∧ written.content = root' := by
  have hcontent := update_mapError h p hnew
  rw [hwritten] at hcontent
  cases hu : store.update p new with
  | error fault => exact absurd hcontent (by simp [hu, Except.map, Except.mapError])
  | ok written =>
      rw [hu] at hcontent
      exact ⟨written, rfl, Except.ok.inj hcontent⟩

theorem exists_delete? (h : store.Sound) {p : Pointer} {root' : Value}
    (hremoved : store.content.removed? p = some root') :
    ∃ rest, store.delete? p = some rest ∧ rest.content = root' := by
  have hcontent := delete?_map h p
  rw [hremoved] at hcontent
  exact Option.map_eq_some_iff.mp hcontent

/-! ### Pointers and paths -/

theorem get_eq_ok_iff (h : store.Sound) {pointer : Pointer} {v : Value} :
    store.get pointer = .ok v ↔
      ∃ path, pointer.path? = some path ∧ store.content.node? path = some v := by
  have hget := get_mapError h pointer
  rw [Value.found] at hget
  cases hpath : pointer.path? with
  | none =>
      rw [hpath] at hget
      cases hs : store.get pointer with
      | error fault => simp
      | ok w => rw [hs] at hget; exact absurd hget (by simp [Except.mapError])
  | some path =>
      simp only [hpath] at hget
      simp only [Option.some.injEq, exists_eq_left']
      cases hn : store.content.node? path with
      | none =>
          rw [hn] at hget
          cases hs : store.get pointer with
          | error fault => simp
          | ok w => rw [hs] at hget; exact absurd hget (by simp [Except.mapError])
      | some w =>
          rw [hn] at hget
          cases hs : store.get pointer with
          | error fault => rw [hs] at hget; exact absurd hget (by simp [Except.mapError])
          | ok u =>
              rw [hs] at hget
              obtain rfl := Except.ok.inj hget
              simp

theorem get_plain_eq_ok_iff (h : store.Sound) {path : Path} {v : Value} :
    store.get (.plain path) = .ok v ↔ store.content.node? path = some v :=
  (get_eq_ok_iff h).trans (by simp [Pointer.path?])

/-- A look-up fails with a kind of fault that wraps no other. -/
theorem kind_of_get {pointer : Pointer} {fault : Fault} (hget : store.get pointer = .error fault) :
    fault.kind = .refused ∨ fault.kind = .notFound := by
  cases store with
  | direct direct =>
      simp only [get, Direct.get, Value.lookup] at hget
      split at hget
      · exact Except.error.inj hget ▸ .inl rfl
      · split at hget
        · exact absurd hget (by simp)
        · exact Except.error.inj hget ▸ .inr rfl
  | indexed indexed =>
      simp only [get, Indexed.get] at hget
      split at hget
      · exact Except.error.inj hget ▸ .inl rfl
      · split at hget
        · exact absurd hget (by simp)
        · exact Except.error.inj hget ▸ .inr rfl

theorem kind_of_create {indexed : Indexed} {pointer : Pointer} {path : Path} {steps : List Step}
    {last : String} {new parent : Value} {fault : Fault}
    (h : indexed.create pointer path steps last new parent = .error fault) :
    fault.kind = .refused ∨ fault.kind = .notFound := by
  cases parent with
  | map fields => exact absurd h (by simp [Indexed.create])
  | list items =>
      simp only [Indexed.create] at h
      split at h
      · exact absurd h (by simp)
      · exact Except.error.inj h ▸ .inr rfl
  | _ => exact Except.error.inj h ▸ .inl rfl

/-- An update fails with a kind of fault that wraps no other. -/
theorem kind_of_update {pointer : Pointer} {new : Value} {fault : Fault}
    (hupdate : store.update pointer new = .error fault) :
    fault.kind = .refused ∨ fault.kind = .notFound := by
  cases store with
  | direct direct =>
      cases hdirect : direct.update pointer new with
      | ok written => simp [update, hdirect, Except.map] at hupdate
      | error fault' =>
          rw [update, hdirect] at hupdate
          obtain rfl := Except.error.inj hupdate
          simp only [Direct.update] at hdirect
          split at hdirect
          · exact Except.error.inj hdirect ▸ .inl rfl
          split at hdirect
          · exact Except.error.inj hdirect ▸ .inl rfl
          split at hdirect
          · exact absurd hdirect (by simp)
          · exact Except.error.inj hdirect ▸ .inr rfl
          · exact Except.error.inj hdirect ▸ .inl rfl
  | indexed indexed =>
      cases hindexed : indexed.update pointer new with
      | ok written => simp [update, hindexed, Except.map] at hupdate
      | error fault' =>
          rw [update, hindexed] at hupdate
          obtain rfl := Except.error.inj hupdate
          simp only [Indexed.update] at hindexed
          split at hindexed
          · exact Except.error.inj hindexed ▸ .inl rfl
          split at hindexed
          · exact Except.error.inj hindexed ▸ .inl rfl
          split at hindexed
          · split at hindexed
            · exact absurd hindexed (by simp)
            · exact Except.error.inj hindexed ▸ .inr rfl
          split at hindexed
          · exact Except.error.inj hindexed ▸ .inr rfl
          split at hindexed
          · exact kind_of_create hindexed
          · exact Except.error.inj hindexed ▸ .inr rfl

theorem has_plain (h : store.Sound) (path : Path) :
    store.has (.plain path) = (store.content.node? path).isSome := by
  rw [has_eq h, Bool.eq_iff_iff, Value.found_isOk_iff]
  exact ⟨fun ⟨_, hpath, hn⟩ => Option.some.inj hpath ▸ hn, fun hn => ⟨path, rfl, hn⟩⟩

/-- A node that is there can be updated, and the value takes its place. -/
theorem exists_update_plain (h : store.Sound) {path : Path} (hroot : path ≠ []) {old new : Value}
    (hn : store.content.node? path = some old) (hnew : new.WellFormed) :
    ∃ written, store.update (.plain path) new = .ok written ∧
      written.content = store.content.put path new := by
  refine exists_update h hnew ?_
  obtain rfl | ⟨p, last, rfl⟩ := path.eq_nil_or_child
  · exact absurd rfl hroot
  rw [Value.node?_concat] at hn
  obtain ⟨parent, hparent, hc⟩ := Option.bind_eq_some_iff.mp hn
  rw [Value.written, show (Pointer.plain (p.child last)).path? = some (p.child last) from rfl]
  simp only [Path.getLast?_child, Path.parent_child, hparent, Value.writeChild_of_child? hc,
    Value.put_child hparent hc]

/-- Updating a node that is there puts the value in its place. -/
theorem content_update_plain (h : store.Sound) {path : Path} (hroot : path ≠ []) {old new : Value}
    (hn : store.content.node? path = some old) (hnew : new.WellFormed) {written : Store}
    (hu : store.update (.plain path) new = .ok written) :
    written.content = store.content.put path new := by
  obtain ⟨written', hu', hcontent⟩ := exists_update_plain h hroot hn hnew
  obtain rfl := Except.ok.inj (hu.symm.trans hu')
  exact hcontent

/-! ### Histories of edits -/

/-- Does what is asked, and answers whether it was done or with which kind of fault it was not.  A
store that refuses an edit stays as it is. -/
def perform (store : Store) : Edit → Except FaultKind Bool × Store
  | .update pointer value =>
    match store.update pointer value with
    | .ok written => (.ok true, written)
    | .error fault => (.error fault.kind, store)
  | .delete pointer =>
    match store.delete? pointer with
    | some rest => (.ok true, rest)
    | none => (.ok false, store)

/-- The answers to edits that are made one after the other, each with the store after it. -/
def history (store : Store) : List Edit → List (Except FaultKind Bool × Store)
  | [] => []
  | edit :: edits => store.perform edit :: (store.perform edit).2.history edits

/-- Nothing that can be asked tells two stores apart. -/
structure Agree (a b : Store) : Prop where
  content : a.content = b.content
  has : ∀ pointer, a.has pointer = b.has pointer
  get : ∀ pointer, (a.get pointer).mapError Fault.kind = (b.get pointer).mapError Fault.kind

theorem agree_of_content_eq (ha : a.Sound) (hb : b.Sound) (h : a.content = b.content) :
    Agree a b where
  content := h
  has pointer := by rw [has_eq ha, has_eq hb, h]
  get pointer := by rw [get_mapError ha, get_mapError hb, h]

theorem perform_sound (h : store.Sound) {edit : Edit} (hedit : edit.WellFormed) :
    (store.perform edit).2.Sound := by
  cases edit with
  | update pointer value =>
      rw [perform]
      split
      · exact h.update hedit ‹_›
      · exact h
  | delete pointer =>
      rw [perform]
      split
      · exact h.delete? ‹_›
      · exact h

/-- One edit: the answer and the document after it depend on the document alone. -/
theorem perform_agrees (ha : a.Sound) (hb : b.Sound) (h : a.content = b.content) {edit : Edit}
    (hedit : edit.WellFormed) :
    (a.perform edit).1 = (b.perform edit).1 ∧
      (a.perform edit).2.content = (b.perform edit).2.content := by
  cases edit with
  | update pointer value =>
      have hu := (update_mapError ha pointer hedit).trans
        ((congrArg (·.written pointer value) h).trans (update_mapError hb pointer hedit).symm)
      rw [perform, perform]
      cases hua : a.update pointer value <;> cases hub : b.update pointer value <;>
        rw [hua, hub] at hu
      · exact ⟨congrArg Except.error (Except.error.inj hu), h⟩
      · exact absurd hu (by simp [Except.map, Except.mapError])
      · exact absurd hu (by simp [Except.map, Except.mapError])
      · exact ⟨rfl, Except.ok.inj hu⟩
  | delete pointer =>
      have hd := (delete?_map ha pointer).trans
        ((congrArg (·.removed? pointer) h).trans (delete?_map hb pointer).symm)
      rw [perform, perform]
      cases hda : a.delete? pointer <;> cases hdb : b.delete? pointer <;> rw [hda, hdb] at hd
      · exact ⟨rfl, h⟩
      · exact absurd hd (by simp)
      · exact absurd hd (by simp)
      · exact ⟨rfl, Option.some.inj hd⟩

theorem history_agrees (ha : a.Sound) (hb : b.Sound) (h : a.content = b.content)
    {edits : List Edit} (hedits : ∀ edit ∈ edits, edit.WellFormed) :
    List.Forall₂ (fun x y => x.1 = y.1 ∧ Agree x.2 y.2) (a.history edits) (b.history edits) := by
  induction edits generalizing a b with
  | nil => exact .nil
  | cons edit edits ih =>
      obtain ⟨hedit, hedits⟩ := List.forall_mem_cons.mp hedits
      obtain ⟨hanswer, hcontent⟩ := perform_agrees ha hb h hedit
      have ha' := perform_sound ha hedit
      have hb' := perform_sound hb hedit
      exact .cons ⟨hanswer, agree_of_content_eq ha' hb' hcontent⟩ (ih ha' hb' hcontent hedits)

/-- **Whatever is done to a document, the direct and the indexed store answer alike at every
step.** -/
theorem direct_agrees_with_indexed {root : Value} (hroot : root.WellFormed) {edits : List Edit}
    (hedits : ∀ edit ∈ edits, edit.WellFormed) :
    Agree (wrap .direct root) (wrap .indexed root) ∧
      List.Forall₂ (fun x y => x.1 = y.1 ∧ Agree x.2 y.2)
        ((wrap .direct root).history edits) ((wrap .indexed root).history edits) :=
  have hdirect := sound_wrap hroot .direct
  have hindexed := sound_wrap hroot .indexed
  ⟨agree_of_content_eq hdirect hindexed (by simp),
    history_agrees hdirect hindexed (by simp) hedits⟩

/-- A list that grows behind its last element, loses its first and refuses to be the whole
document. -/
theorem list_edits_agree :
    (Value.map [("a", .list [.null])]).WellFormed ∧
      (Agree (wrap .direct (.map [("a", .list [.null])]))
          (wrap .indexed (.map [("a", .list [.null])])) ∧
        List.Forall₂ (fun x y => x.1 = y.1 ∧ Agree x.2 y.2)
          ((wrap .direct (.map [("a", .list [.null])])).history
            [.update (.plain ["a", "-"]) (.map [("b", .bool true)]), .delete (.plain ["a", "0"]),
              .update .root .null])
          ((wrap .indexed (.map [("a", .list [.null])])).history
            [.update (.plain ["a", "-"]) (.map [("b", .bool true)]), .delete (.plain ["a", "0"]),
              .update .root .null])) := by
  have hroot : (Value.map [("a", .list [.null])]).WellFormed := by
    simp [Value.wellFormed_map_iff, Value.wellFormed_list_iff, Entries.Distinct, Entries.keys]
  have hnew : (Value.map [("b", .bool true)]).WellFormed := by
    simp [Value.wellFormed_map_iff, Entries.Distinct, Entries.keys]
  refine ⟨hroot, direct_agrees_with_indexed hroot ?_⟩
  simp [Edit.WellFormed, hnew]

end Store

end Docweave
