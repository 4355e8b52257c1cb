import Docweave.Proofs.Store.Stale

/-!
What an index is good for, whatever has happened to its document.

Two things can be said of an index after any history.  If the document was also changed behind it,
the store is still `Truthful`: what it answers, the document would answer, and what it does, a
store without an index would do.  If every change went through the store, the index is the one
that would be made from the document now, entry for entry.  Both are read off invariants that
every single change keeps, `Index.Spelled` for the first and `Store.Sound` beside it for the
second.
-/

namespace Docweave

/-- What can happen to a document: an edit through the store, a change behind its back, a new
index. -/
inductive Change where
  | edit (edit : Edit)
  | content (new : Value)
  | recalculate

namespace Store

variable {store : Store}

/-- The store after a change.  An edit that is refused leaves it as it is. -/
def change (store : Store) : Change → Store
  | .edit edit => (store.perform edit).2
  | .content new => store.setContent new
  | .recalculate => store.recalculate

/-- The store after changes that are made one after the other. -/
def after (store : Store) (changes : List Change) : Store :=
  changes.foldl change store

/-! ### The index stays spelled -/

/-- The entries of an index, if there is one, spell their paths. -/
def Spelled (store : Store) : Prop :=
  ∀ indexed, store = .indexed indexed → indexed.index.Spelled

theorem spelled_direct (direct : Direct) : Spelled (.direct direct) :=
  fun _ heq => absurd heq (by simp)

theorem spelled_indexed {indexed : Indexed} (h : indexed.index.Spelled) :
    Spelled (.indexed indexed) :=
  fun _ heq => Store.indexed.inj heq ▸ h

theorem spelled_wrap (backend : Backend) (root : Value) : Spelled (wrap backend root) := by
  cases backend with
  | direct => exact spelled_direct _
  | indexed => exact spelled_indexed (Index.spelled_ofValue root)

/-- An update that is done is done to the document. -/
theorem Spelled.update (h : store.Spelled) {pointer : Pointer} {new : Value} {written : Store}
    (hu : store.update pointer new = .ok written) :
    store.content.written pointer new = .ok written.content ∧ written.Spelled := by
  cases store with
  | direct direct =>
      have hcontent := direct.update_mapError pointer new
      rw [Store.update] at hu
      cases hd : direct.update pointer new with
      | error fault => rw [hd] at hu; exact absurd hu (by simp [Except.map])
      | ok rest =>
          rw [hd] at hu hcontent
          obtain rfl := Except.ok.inj hu
          exact ⟨hcontent.symm, spelled_direct rest⟩
  | indexed indexed =>
      rw [Store.update] at hu
      cases hi : indexed.update pointer new with
      | error fault => rw [hi] at hu; exact absurd hu (by simp [Except.map])
      | ok rest =>
          rw [hi] at hu
          obtain rfl := Except.ok.inj hu
          obtain ⟨hcontent, hspelled⟩ := Indexed.written_of_update (h indexed rfl) hi
          exact ⟨hcontent, spelled_indexed hspelled⟩

/-- A removal that is done is done to the document. -/
theorem Spelled.delete? (h : store.Spelled) {pointer : Pointer} {rest : Store}
    (hd : store.delete? pointer = some rest) :
    store.content.removed? pointer = some rest.content ∧ rest.Spelled := by
  cases store with
  | direct direct =>
      obtain ⟨rest, hrest, rfl⟩ := Option.map_eq_some_iff.mp hd
      have hcontent := direct.delete?_map pointer
      rw [hrest] at hcontent
      exact ⟨hcontent.symm, spelled_direct rest⟩
  | indexed indexed =>
      obtain ⟨rest, hrest, rfl⟩ := Option.map_eq_some_iff.mp hd
      obtain ⟨hcontent, hspelled⟩ := Indexed.removed?_of_delete? (h indexed rfl) hrest
      exact ⟨hcontent, spelled_indexed hspelled⟩

theorem Spelled.perform (h : store.Spelled) (edit : Edit) : (store.perform edit).2.Spelled := by
  cases edit with
  | update pointer value =>
      rw [Store.perform]
      split
      · exact (h.update ‹_›).2
      · exact h
  | delete pointer =>
      rw [Store.perform]
      split
      · exact (h.delete? ‹_›).2
      · exact h

theorem Spelled.change (h : store.Spelled) (change : Change) : (store.change change).Spelled := by
  cases change with
  | edit edit => exact h.perform edit
  | content new =>
      cases store with
      | direct direct => exact spelled_direct _
      | indexed indexed => exact spelled_indexed (h indexed rfl)
  | recalculate =>
      cases store with
      | direct direct => exact h
      | indexed indexed => exact spelled_wrap .indexed indexed.content

theorem Spelled.after (h : store.Spelled) (changes : List Change) :
    (store.after changes).Spelled := by
  induction changes generalizing store with
  | nil => exact h
  | cons change changes ih => exact ih (h.change change)

/-! ### A stale store tells the truth -/

/-- What the store answers is so, and what it does is done: a node it finds is the node of the
document, an edit it performs is the one a walk from the root would perform, and an edit it does
not perform leaves the document alone. -/
structure Truthful (store : Store) : Prop where
  get : ∀ pointer v, store.get pointer = .ok v → store.content.lookup pointer = .ok v
  done : ∀ edit, (store.perform edit).1 = .ok true →
    (wrap .direct store.content).perform edit =
      (.ok true, wrap .direct (store.perform edit).2.content)
  refused : ∀ edit, (store.perform edit).1 ≠ .ok true →
    (store.perform edit).2.content = store.content

theorem perform_direct_of_written {root root' new : Value} {pointer : Pointer}
    (h : root.written pointer new = .ok root') :
    (wrap .direct root).perform (.update pointer new) = (.ok true, wrap .direct root') := by
  have hcontent := Direct.update_mapError ⟨root⟩ pointer new
  rw [h] at hcontent
  rw [perform, wrap, update]
  cases hu : Direct.update ⟨root⟩ pointer new with
  | error fault =>
      rw [hu] at hcontent
      exact absurd hcontent (by simp [Except.map, Except.mapError])
  | ok written =>
      rw [hu] at hcontent
      obtain rfl : written.content = root' := Except.ok.inj hcontent
      rfl

theorem perform_direct_of_removed? {root root' : Value} {pointer : Pointer}
    (h : root.removed? pointer = some root') :
    (wrap .direct root).perform (.delete pointer) = (.ok true, wrap .direct root') := by
  have hcontent := Direct.delete?_map ⟨root⟩ pointer
  rw [h] at hcontent
  obtain ⟨rest, hrest, rfl⟩ := Option.map_eq_some_iff.mp hcontent
  rw [perform, wrap, delete?, hrest]
  rfl

theorem Spelled.truthful (h : store.Spelled) : store.Truthful where
  get pointer v hget := by
    cases store with
    | direct direct => exact hget
    | indexed indexed => exact Indexed.lookup_of_get (h indexed rfl) hget
  done edit hdone := by
    cases edit with
    | update pointer value =>
        cases hu : store.update pointer value with
        | ok written =>
            simp only [Store.perform, hu]
            exact perform_direct_of_written (h.update hu).1
        | error fault => simp [Store.perform, hu] at hdone
    | delete pointer =>
        cases hd : store.delete? pointer with
        | some rest =>
            simp only [Store.perform, hd]
            exact perform_direct_of_removed? (h.delete? hd).1
        | none => simp [Store.perform, hd] at hdone
  refused edit hrefused := by
    cases edit with
    | update pointer value =>
        rw [Store.perform] at hrefused ⊢
        split at hrefused
        · exact absurd rfl hrefused
        · rfl
    | delete pointer =>
        rw [Store.perform] at hrefused ⊢
        split at hrefused
        · exact absurd rfl hrefused
        · rfl

/-- **Whatever is done to a document, through the store or behind its back, the store never
lies.** -/
theorem after_truthful (backend : Backend) (root : Value) (changes : List Change) :
    ((wrap backend root).after changes).Truthful :=
  ((spelled_wrap backend root).after changes).truthful

/-! ### An index that is never gone behind -/

theorem backend_perform (store : Store) (edit : Edit) :
    (store.perform edit).2.backend = store.backend := by
  cases edit with
  | update pointer value =>
      rw [perform]
      split
      · next written hu =>
          cases store with
          | direct direct =>
              rw [update] at hu
              cases hd : direct.update pointer value <;> rw [hd] at hu <;> cases hu
              rfl
          | indexed indexed =>
              rw [update] at hu
              cases hi : indexed.update pointer value <;> rw [hi] at hu <;> cases hu
              rfl
      · rfl
  | delete pointer =>
      rw [perform]
      split
      · next rest hd =>
          cases store with
          | direct direct => obtain ⟨_, _, rfl⟩ := Option.map_eq_some_iff.mp hd; rfl
          | indexed indexed => obtain ⟨_, _, rfl⟩ := Option.map_eq_some_iff.mp hd; rfl
      · rfl

/-- Edits leave a sound store with the same backend. -/
theorem Sound.after (h : store.Sound) {edits : List Edit}
    (hedits : ∀ edit ∈ edits, edit.WellFormed) :
    (store.after (edits.map .edit)).Sound ∧
      (store.after (edits.map .edit)).backend = store.backend := by
  induction edits generalizing store with
  | nil => exact ⟨h, rfl⟩
  | cons edit edits ih =>
      obtain ⟨hedit, hedits⟩ := List.forall_mem_cons.mp hedits
      obtain ⟨hsound, hbackend⟩ := ih (perform_sound h hedit) hedits
      exact ⟨hsound, hbackend.trans (backend_perform store edit)⟩

theorem exists_indexed (h : store.backend = .indexed) : ∃ indexed, store = .indexed indexed := by
  cases store with
  | direct direct => exact absurd h (by simp [backend])
  | indexed indexed => exact ⟨indexed, rfl⟩

end Store

namespace Indexed

variable {store : Indexed}

/-- An entry of an index that fits is that of a node below the root. -/
theorem Fits.getElem?_eq_some_iff (h : store.Fits) (hspelled : store.index.Spelled) {path : Path}
    {steps : List Step} :
    store.index[path]? = some steps ↔ path ≠ [] ∧ store.content.steps? path = some steps := by
  cases path with
  | nil =>
      exact ⟨fun hentry => absurd rfl (hspelled [] steps hentry).1, fun h => absurd rfl h.1⟩
  | cons token path => rw [h token path]; simp

/-- An index that fits is the one made from the document. -/
theorem Fits.index_eq (h : store.Fits) (hspelled : store.index.Spelled)
    (hwell : store.content.WellFormed) : store.index = (ofValue store.content).index := by
  refine Std.ExtHashMap.ext_getElem? fun path => Option.ext fun steps => ?_
  rw [h.getElem?_eq_some_iff hspelled,
    (fits_ofValue hwell).getElem?_eq_some_iff (Index.spelled_ofValue _)]
  rfl

end Indexed

namespace Store

/-- **After any edits through the store the index is the one made from the document anew: the
steps to every node below the root, and no other entry.** -/
theorem after_edits_rebuilt {root : Value} (hroot : root.WellFormed) {edits : List Edit}
    (hedits : ∀ edit ∈ edits, edit.WellFormed) :
    ∃ indexed : Indexed, (wrap .indexed root).after (edits.map .edit) = .indexed indexed ∧
      indexed.index = (Indexed.ofValue indexed.content).index ∧
      ∀ path steps, indexed.index[path]? = some steps ↔
        path ≠ [] ∧ indexed.content.steps? path = some steps := by
  obtain ⟨hsound, hbackend⟩ := (sound_wrap hroot .indexed).after hedits
  obtain ⟨indexed, heq⟩ := exists_indexed hbackend
  have hspelled := (spelled_wrap .indexed root).after (edits.map .edit) indexed heq
  have hfits := hsound.fits indexed heq
  have hwell : indexed.content.WellFormed := by
    have := hsound.wellFormed
    rwa [heq] at this
  exact ⟨indexed, heq, hfits.index_eq hspelled hwell,
    fun _ _ => hfits.getElem?_eq_some_iff hspelled⟩

/-- A list whose tail moves up, an element that is written behind it, and an edit that is
refused. -/
theorem shifted_list_rebuilt :
    (Value.map [("a", .list [.null, .list [.bool true], .text "b"])]).WellFormed ∧
      ∃ indexed : Indexed,
        (wrap .indexed (.map [("a", .list [.null, .list [.bool true], .text "b"])])).after
            ([.delete (.plain ["a", "0"]), .update (.plain ["a", "-"]) (.map [("c", .null)]),
              .update (.plain ["a", "7"]) .null].map .edit) = .indexed indexed ∧
          indexed.index = (Indexed.ofValue indexed.content).index ∧
          ∀ path steps, indexed.index[path]? = some steps ↔
            path ≠ [] ∧ indexed.content.steps? path = some steps := by
  have hroot : (Value.map [("a", .list [.null, .list [.bool true], .text "b"])]).WellFormed := by
    simp [Value.wellFormed_map_iff, Value.wellFormed_list_iff, Entries.Distinct, Entries.keys]
  have hnew : (Value.map [("c", .null)]).WellFormed := by
    simp [Value.wellFormed_map_iff, Entries.Distinct, Entries.keys]
  refine ⟨hroot, after_edits_rebuilt hroot ?_⟩
  simp [Edit.WellFormed, hnew]

end Store

end Docweave
