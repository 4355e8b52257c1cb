import Docweave.Proofs.Store.Agreement

/-!
What an edit changes, and that it changes nothing else.

An update puts its value in one place, which its pointer names, or which lies behind the last
element of a list (`Store.landing?`).  A removal takes one place away; under a list what stood
behind it moves up by one.  Both are said of any store that is sound, so of both kinds of stores
and after any edits: `Placed`, `KeyRemoved` and `ElementRemoved` say for every pointer that does
not lie above the place what is found there afterwards, and `edits_lawful` that it is so.

A node above the place holds it, so it is another value afterwards.
-/

namespace Docweave

namespace Value

variable {root parent parent' new : Value} {path q : Path} {token other : String}

/-! ### One child -/

/-- The token of the child that a write under a node leaves behind. -/
def landingToken? (parent : Value) (token : String) : Option String :=
  match parent with
  | .list items => if token = appendToken then token? items.length else some token
  | _ => some token

theorem child?_writeChild_self {seen : Path} (h : writeChild seen token new parent = .ok parent')
    (hlanding : parent.landingToken? token = some other) : parent'.child? other = some new := by
  cases childWritten_of_writeChild h with
  | key fields =>
      obtain rfl := Option.some.inj hlanding
      simp [child?, Entries.find?_insert]
  | appended items htoken =>
      rw [landingToken?, if_pos htoken] at hlanding
      simp [child?, token?_eq_some_iff.mp hlanding]
  | element items hne hi hlt =>
      rw [landingToken?, if_neg hne] at hlanding
      obtain rfl := Option.some.inj hlanding
      simp [child?, hi, hlt]

theorem child?_writeChild_of_ne {seen : Path} {landing : String}
    (h : writeChild seen token new parent = .ok parent')
    (hlanding : parent.landingToken? token = some landing) (hother : landing ≠ other) :
    parent'.child? other = parent.child? other := by
  cases childWritten_of_writeChild h with
  | key fields =>
      obtain rfl := Option.some.inj hlanding
      simp only [child?, Entries.find?_insert, if_neg hother]
  | appended items htoken =>
      rw [landingToken?, if_pos htoken] at hlanding
      have hindex : index? landing = some items.length := token?_eq_some_iff.mp hlanding
      exact child?_append fun hsame => hother (index?_inj hindex hsame)
  | @element items i hne hi hlt =>
      rw [landingToken?, if_neg hne] at hlanding
      obtain rfl := Option.some.inj hlanding
      simp only [child?]
      refine Option.bind_congr fun j hj => ?_
      have hij : i ≠ j := fun hsame => hother (index?_inj hi (hsame ▸ hj))
      rw [List.getElem?_set_ne hij]

theorem child?_eraseIdx_before {items : List Value} {i : Nat}
    (h : ∀ j, index? token = some j → j < i) :
    (Value.list (items.eraseIdx i)).child? token = (Value.list items).child? token := by
  simp only [child?]
  refine Option.bind_congr fun j hj => ?_
  rw [List.getElem?_eraseIdx_of_lt (h j hj)]

theorem child?_eraseIdx_behind {items : List Value} {i j : Nat} (hij : i < j)
    (htoken : index? token = some (j - 1)) (hother : index? other = some j) :
    (Value.list (items.eraseIdx i)).child? token = (Value.list items).child? other := by
  simp only [child?, htoken, hother, Option.bind_some]
  rw [List.getElem?_eraseIdx_of_ge (by omega), Nat.sub_add_cancel (by omega)]

theorem child?_eraseIdx_last {items : List Value} {i : Nat} (hi : i < items.length)
    (htoken : index? token = some (items.length - 1)) :
    (Value.list (items.eraseIdx i)).child? token = none := by
  simp only [child?, htoken, Option.bind_some]
  exact List.getElem?_eq_none (by rw [List.length_eraseIdx_of_lt hi])

/-! ### The node above it put anew -/

theorem node?_put_child_append (hparent : root.node? path = some parent) (below : Path) :
    (root.put path parent').node? (path.child token ++ below) =
      (parent'.child? token).bind fun c => c.node? below := by
  rw [Path.child, List.append_assoc, List.singleton_append,
    node?_put_append (Option.isSome_of_eq_some hparent), node?_cons]

theorem node?_child_append (hparent : root.node? path = some parent) (below : Path) :
    root.node? (path.child token ++ below) = (parent.child? token).bind fun c => c.node? below := by
  rw [Path.child, List.append_assoc, List.singleton_append, node?_append, hparent,
    Option.bind_some, node?_cons]

/-- A node that is put anew with one child changed changes nothing beside that child. -/
theorem node?_put_beside_child (hparent : root.node? path = some parent)
    (hchildren : ∀ other, token ≠ other → parent'.child? other = parent.child? other)
    (habove : ¬ q <+: path.child token) (hbelow : ¬ path.child token <+: q) :
    (root.put path parent').node? q = root.node? q := by
  by_cases hq : path <+: q
  · obtain ⟨below, rfl⟩ := hq
    cases below with
    | nil => exact absurd ((List.append_nil path).symm ▸ List.prefix_append path [token]) habove
    | cons other below =>
        have hne : token ≠ other := by
          rintro rfl
          exact hbelow ⟨below, by simp [Path.child]⟩
        have hother := hchildren other hne
        rw [show path ++ other :: below = path.child other ++ below by simp [Path.child],
          node?_put_child_append hparent, node?_child_append hparent, hother]
  · exact node?_put_beside root hq (fun h => habove (h.trans (List.prefix_append path [token])))
      parent'

end Value

namespace Store

variable {store a b written rest : Store} {p q : Pointer} {pos path : Path}

/-! ### What is said of the stores before and after -/

/-- Where the value of an update is found afterwards: where the pointer says, or behind the last
element for `-` under a list.  Behind as many elements as 64 bits count there is no such place. -/
def landing? (store : Store) (pointer : Pointer) : Option Path :=
  match store.get pointer.parent, pointer.last? with
  | .ok (.list items), some last =>
    if last = appendToken then (token? items.length).map pointer.segments.parent.child
    else pointer.path?
  | _, _ => pointer.path?

/-- Neither of a pointer and a path lies above the other, nor are they the same. -/
def Apart (pointer : Pointer) (pos : Path) : Prop :=
  ∀ path, pointer.path? = some path → ¬ path <+: pos ∧ ¬ pos <+: path

/-- What a store answers at a pointer another one answers at another. -/
structure Matches (a : Store) (p : Pointer) (b : Store) (q : Pointer) : Prop where
  has : a.has p = b.has q
  get : (a.get p).mapError Fault.kind = (b.get q).mapError Fault.kind

/-- There is nothing at a pointer. -/
structure Lacks (store : Store) (p : Pointer) : Prop where
  has : store.has p = false
  get : ∀ v, store.get p ≠ .ok v

/-- A value has been put somewhere, and nothing else has changed. -/
structure Placed (before : Store) (pos : Path) (new : Value) (after : Store) : Prop where
  has : ∀ q, q.path? = some pos → after.has q = true
  get : ∀ q, q.path? = some pos → after.get q = .ok new
  frame : ∀ q, Apart q pos → Matches after q before q

/-- An entry of a map is gone with all there was below it, and nothing else has changed. -/
structure KeyRemoved (before : Store) (pos : Path) (after : Store) : Prop where
  gone : ∀ q path, q.path? = some path → pos <+: path → after.Lacks q
  frame : ∀ q, Apart q pos → Matches after q before q

/-- An element of a list of some length is gone: those before it and whatever is not in the list
are where they were, with all there is below them, those behind it have moved up by one, and where
the last one was there is nothing. -/
structure ElementRemoved (before : Store) (path : Path) (i length : Nat) (after : Store) :
    Prop where
  earlier : ∀ q token below, q.path? = some (path.child token ++ below) →
    (∀ j, index? token = some j → j < i) → Matches after q before q
  later : ∀ q q' token former j below, q.path? = some (path.child token ++ below) →
    q'.path? = some (path.child former ++ below) → i < j → index? former = some j →
    index? token = some (j - 1) → Matches after q before q'
  gone : ∀ q token below, q.path? = some (path.child token ++ below) →
    index? token = some (length - 1) → after.Lacks q
  frame : ∀ q, Apart q path → Matches after q before q

/-! ### The laws -/

theorem matches_of_found (ha : a.Sound) (hb : b.Sound) (h : a.content.found p = b.content.found q) :
    Matches a p b q where
  has := by rw [has_eq ha, has_eq hb, h]
  get := by rw [get_mapError ha, get_mapError hb, h]

theorem matches_of_node? (ha : a.Sound) (hb : b.Sound) {path path' : Path}
    (hp : p.path? = some path) (hq : q.path? = some path')
    (h : a.content.node? path = b.content.node? path') : Matches a p b q :=
  matches_of_found ha hb (by simp only [Value.found, hp, hq, h])

/-- Outside of a place where the documents agree, so do the stores. -/
theorem matches_of_apart (ha : a.Sound) (hb : b.Sound)
    (h : ∀ path, ¬ path <+: pos → ¬ pos <+: path → a.content.node? path = b.content.node? path)
    (hq : Apart q pos) : Matches a q b q := by
  cases hpath : q.path? with
  | none => exact matches_of_found ha hb (by simp only [Value.found, hpath])
  | some path =>
      exact matches_of_node? ha hb hpath hpath (h path (hq path hpath).1 (hq path hpath).2)

theorem lacks_of_node? (h : store.Sound) (hp : p.path? = some path)
    (hn : store.content.node? path = none) : store.Lacks p where
  has := by
    rw [has_eq h, Value.found, hp]
    simp only [hn, Except.isOk, Except.toBool]
  get v hget := by
    obtain ⟨path', hp', hv⟩ := (get_eq_ok_iff h).mp hget
    obtain rfl := Option.some.inj (hp.symm.trans hp')
    exact absurd (hn.symm.trans hv) (by simp)

theorem content_update (h : store.Sound) {new : Value} (hnew : new.WellFormed)
    (hu : store.update p new = .ok written) :
    ∃ path last parent parent', p.path? = some (path.child last) ∧
      store.content.node? path = some parent ∧
      Value.writeChild path last new parent = .ok parent' ∧
      written.content = store.content.put path parent' := by
  have hcontent := update_mapError h p hnew
  rw [hu] at hcontent
  exact Value.exists_of_written hcontent.symm

theorem content_delete? (h : store.Sound) {last : String} (hp : p.path? = some (path.child last))
    (hd : store.delete? p = some rest) :
    ∃ parent parent', store.content.node? path = some parent ∧
      Value.ChildRemoved last parent parent' ∧ rest.content = store.content.put path parent' := by
  have hcontent := delete?_map h p
  rw [hd] at hcontent
  obtain ⟨hroot, -⟩ | ⟨path', last', parent, parent', hp', hparent, hremove, hput⟩ :=
    Value.exists_of_removed? hcontent.symm
  · exact absurd (Option.some.inj (hp.symm.trans hroot)) (path.child_ne_nil last)
  · have hsame : path.child last = path'.child last' := Option.some.inj (hp.symm.trans hp')
    obtain ⟨rfl, hlast⟩ := List.append_inj' hsame rfl
    obtain rfl := List.singleton_inj.mp hlast
    exact ⟨parent, parent', hparent, Value.childRemoved_of_removeChild? hremove, hput⟩

theorem landing?_eq (h : store.Sound) {last : String} {parent : Value}
    (hp : p.path? = some (path.child last)) (hparent : store.content.node? path = some parent) :
    store.landing? p = (parent.landingToken? last).map path.child := by
  have hsegments : p.segments = path.child last := by rw [Pointer.segments, hp, Option.getD_some]
  have hlast : p.last? = some last := by rw [Pointer.last?, hsegments, Path.getLast?_child]
  have hget : store.get p.parent = .ok parent := by
    rw [Pointer.parent, hsegments, Path.parent_child]
    exact (get_plain_eq_ok_iff h).mpr hparent
  rw [landing?, hget, hlast, hsegments, Path.parent_child, hp]
  cases parent with
  | list items => simp only [Value.landingToken?]; split <;> rfl
  | _ => rfl

/-- An update puts its value where it lands. -/
theorem placed_of_update (h : store.Sound) {new : Value} (hnew : new.WellFormed)
    (hu : store.update p new = .ok written) (hlanding : store.landing? p = some pos) :
    Placed store pos new written := by
  have hwritten : written.Sound := h.update hnew hu
  obtain ⟨path, last, parent, parent', hp, hparent, hwrite, hcontent⟩ := content_update h hnew hu
  rw [landing?_eq h hp hparent] at hlanding
  obtain ⟨token, htoken, rfl⟩ := Option.map_eq_some_iff.mp hlanding
  have hnode : written.content.node? (path.child token) = some new := by
    rw [hcontent, Value.node?_concat, Value.node?_put_self (Option.isSome_of_eq_some hparent),
      Option.bind_some, Value.child?_writeChild_self hwrite htoken]
  refine ⟨?_, ?_, ?_⟩
  · intro q hq
    rw [has_eq hwritten, Value.found, hq]
    simp only [hnode, Except.isOk, Except.toBool]
  · intro q hq
    exact (get_eq_ok_iff hwritten).mpr ⟨_, hq, hnode⟩
  · intro q
    refine matches_of_apart hwritten h fun path' habove hbelow => ?_
    rw [hcontent]
    exact Value.node?_put_beside_child hparent
      (fun _ hne => Value.child?_writeChild_of_ne hwrite htoken hne) habove hbelow

/-- A removal from a map takes one entry away. -/
theorem keyRemoved_of_delete? (h : store.Sound) {key : String} {fields : Fields}
    (hp : p.path? = some (path.child key)) (hmap : store.content.node? path = some (.map fields))
    (hd : store.delete? p = some rest) : KeyRemoved store (path.child key) rest := by
  have hrest : rest.Sound := h.delete? hd
  obtain ⟨parent, parent', hparent, hremove, hcontent⟩ := content_delete? h hp hd
  obtain rfl := Option.some.inj (hparent.symm.trans hmap)
  obtain ⟨⟩ := hremove
  have hdistinct : Entries.Distinct fields :=
    (Value.wellFormed_map_iff.mp (h.wellFormed.of_node? hparent)).1
  constructor
  · rintro q _ hq ⟨below, rfl⟩
    refine lacks_of_node? hrest hq ?_
    rw [hcontent, Value.node?_put_child_append hparent, Value.child?, hdistinct.find?_erase,
      Option.bind_none]
  · intro q
    refine matches_of_apart hrest h fun path' habove hbelow => ?_
    rw [hcontent]
    exact Value.node?_put_beside_child hparent
      (fun _ hne => Entries.find?_erase_of_ne fields hne) habove hbelow

/-- A removal from a list takes one element away and lets the later ones move up. -/
theorem elementRemoved_of_delete? (h : store.Sound) {last : String} {i : Nat} {items : List Value}
    (hp : p.path? = some (path.child last)) (hlist : store.content.node? path = some (.list items))
    (hi : index? last = some i) (hd : store.delete? p = some rest) :
    i < items.length ∧ ElementRemoved store path i items.length rest := by
  have hrest : rest.Sound := h.delete? hd
  obtain ⟨parent, parent', hparent, hremove, hcontent⟩ := content_delete? h hp hd
  obtain rfl := Option.some.inj (hparent.symm.trans hlist)
  obtain _ | ⟨_, hi', hlt⟩ := hremove
  obtain rfl := Option.some.inj (hi.symm.trans hi')
  -- What is found below a child of the list depends on that child alone.
  have hmatch : ∀ {q q' : Pointer} {token former : String} {below : Path},
      q.path? = some (path.child token ++ below) → q'.path? = some (path.child former ++ below) →
      (Value.list (items.eraseIdx i)).child? token = (Value.list items).child? former →
      Matches rest q store q' := by
    intro q q' token former below hq hq' hchild
    refine matches_of_node? hrest h hq hq' ?_
    rw [hcontent, Value.node?_put_child_append hparent, Value.node?_child_append hparent, hchild]
  refine ⟨hlt, ?_, ?_, ?_, ?_⟩
  · intro q token below hq hbefore
    exact hmatch hq hq (Value.child?_eraseIdx_before hbefore)
  · intro q q' token former j below hq hq' hij hformer htoken
    exact hmatch hq hq' (Value.child?_eraseIdx_behind hij htoken hformer)
  · intro q token below hq htoken
    refine lacks_of_node? hrest hq ?_
    rw [hcontent, Value.node?_put_child_append hparent, Value.child?_eraseIdx_last hlt htoken,
      Option.bind_none]
  · intro q
    refine matches_of_apart hrest h fun path' habove hbelow => ?_
    rw [hcontent]
    exact Value.node?_put_beside _ hbelow habove _

/-- **An update puts its value in one place, a removal takes one place away, and every pointer that
does not lie above it is answered as before, or as the place was from which its node has moved.** -/
theorem edits_lawful (h : store.Sound) :
    (∀ p new written pos, new.WellFormed → store.update p new = .ok written →
      store.landing? p = some pos → Placed store pos new written) ∧
    (∀ p rest path key fields, p.path? = some (path.child key) →
      store.get (.plain path) = .ok (.map fields) → store.delete? p = some rest →
      KeyRemoved store (path.child key) rest) ∧
    (∀ p rest path last i items, p.path? = some (path.child last) →
      store.get (.plain path) = .ok (.list items) → index? last = some i →
      store.delete? p = some rest →
      i < items.length ∧ ElementRemoved store path i items.length rest) := by
  refine ⟨?_, ?_, ?_⟩
  · intro p new written pos hnew hu hlanding
    exact placed_of_update h hnew hu hlanding
  · intro p rest path key fields hp hmap hd
    exact keyRemoved_of_delete? h hp ((get_plain_eq_ok_iff h).mp hmap) hd
  · intro p rest path last i items hp hlist hi hd
    exact elementRemoved_of_delete? h hp ((get_plain_eq_ok_iff h).mp hlist) hi hd

/-- A document with `-` as a key beside a list. -/
def dashedDocument : Value :=
  .map [("-", .null), ("a", .list [.null, .map [("b", .bool true)]])]

/-- For `-` a value comes to stand behind the list, the first element goes and the next one moves
up, and the key `-` is a key like any other. -/
theorem edits_lawful_dashed :
    (wrap .indexed dashedDocument).Sound ∧
      (∃ written, (wrap .indexed dashedDocument).update (.plain ["a", "-"]) .null = .ok written ∧
        Placed (wrap .indexed dashedDocument) ["a", "2"] .null written) ∧
      (∃ rest, (wrap .indexed dashedDocument).delete? (.plain ["-"]) = some rest ∧
        KeyRemoved (wrap .indexed dashedDocument) ["-"] rest) ∧
      ∃ rest, (wrap .indexed dashedDocument).delete? (.plain ["a", "0"]) = some rest ∧
        0 < 2 ∧ ElementRemoved (wrap .indexed dashedDocument) ["a"] 0 2 rest := by
  have hsound : (wrap .indexed dashedDocument).Sound := by
    refine sound_wrap ?_ .indexed
    simp [dashedDocument, Value.wellFormed_map_iff, Value.wellFormed_list_iff, Entries.Distinct,
      Entries.keys]
  obtain ⟨hupdate, hkey, helement⟩ := edits_lawful hsound
  have hget : ∀ {path v}, dashedDocument.node? path = some v →
      (wrap .indexed dashedDocument).get (.plain path) = .ok v := fun hn =>
    (get_plain_eq_ok_iff hsound).mpr hn
  refine ⟨hsound, ?_, ?_, ?_⟩
  · obtain ⟨written, hwritten, -⟩ :=
      exists_update hsound (p := .plain ["a", "-"]) Value.wellFormed_null rfl
    have hpath : (Pointer.plain ["a", "-"]).path? = some (Path.child ["a"] "-") := rfl
    have hlanding : (wrap .indexed dashedDocument).landing? (.plain ["a", "-"]) = some ["a", "2"] :=
      (landing?_eq hsound hpath rfl).trans (by decide)
    exact ⟨written, hwritten, hupdate _ _ _ _ Value.wellFormed_null hwritten hlanding⟩
  · obtain ⟨rest, hrest, -⟩ := exists_delete? hsound (p := .plain ["-"]) rfl
    exact ⟨rest, hrest, hkey _ _ [] _ _ rfl (hget rfl) hrest⟩
  · obtain ⟨rest, hrest, -⟩ := exists_delete? hsound (p := .plain ["a", "0"]) rfl
    exact ⟨rest, hrest, helement _ _ ["a"] "0" 0 _ rfl (hget rfl) (by decide) hrest⟩

end Store

end Docweave
