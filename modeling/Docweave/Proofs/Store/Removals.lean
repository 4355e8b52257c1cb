import Docweave.Document
import Docweave.Proofs.Handlers
import Docweave.Proofs.Store.Agreement
import Docweave.Proofs.Store.Pruning

/-!
Removing a list of nodes.

A document removes nodes one after the other, and a copy with changes does the same.  What is left
is the document without all of them (`Value.without`), if no removal moves what a later path leads
through.  The document changes under the paths that are left, but not so that they get in each
other's way: whatever a removal has left of a list was in that list before, so where one path moves
what another leads through, it did so at the beginning (`Value.Shifts.of_remove`).  In the other
case the wrong nodes are removed: of the elements 1, 2 and 3, removing the first and the second one
front to back leaves 2.
-/

namespace Docweave

namespace Value

variable {v rest parent : Value} {p q base : Path} {paths : List Path} {last : String}

/-- The document after the node at a path has been removed, if there is one. -/
def remove (v : Value) (path : Path) : Value :=
  (v.removed? (.plain path)).getD v

theorem removed?_of_path? {pointer : Pointer} (h : pointer.path? = some p) :
    v.removed? pointer = v.removed? (.plain p) := by
  rw [removed?, removed?, h]
  rfl

theorem removed?_of_path?_eq_none {pointer : Pointer} (h : pointer.path? = none) :
    v.removed? pointer = none := by
  rw [removed?, h]

theorem removed?_child (v : Value) (base : Path) (last : String) :
    v.removed? (.plain (base.child last)) = (v.node? base).bind fun parent =>
      (removeChild? last parent).map fun rest => v.put base rest := by
  rw [removed?, show (Pointer.plain (base.child last)).path? = some (base.child last) from rfl]
  simp only [Path.getLast?_child, Path.parent_child]

theorem remove_nil (v : Value) : v.remove [] = v.cleared := rfl

theorem child?_eq_none_of_removeChild? {token : String} (h : removeChild? token v = none) :
    v.child? token = none := by
  cases v with
  | map fields =>
      simp only [removeChild?] at h
      split at h
      · exact absurd h (by simp)
      · next hnone => exact Option.not_isSome_iff_eq_none.mp hnone
  | list items =>
      simp only [removeChild?] at h
      rw [child?]
      cases hi : index? token with
      | none => rfl
      | some i =>
          simp only [hi] at h
          split at h
          · exact absurd h (by simp)
          · next hge => exact List.getElem?_eq_none (Nat.le_of_not_lt hge)
  | _ => rfl

/-- A node that is there is taken out of its parent; one that is not there is passed over. -/
theorem remove_child_cases (v : Value) (base : Path) (last : String) :
    (∃ parent rest, v.node? base = some parent ∧ removeChild? last parent = some rest ∧
        v.remove (base.child last) = v.put base rest) ∨
      v.node? (base.child last) = none ∧ v.remove (base.child last) = v := by
  rw [remove, removed?_child, node?_concat]
  cases hparent : v.node? base with
  | none => exact .inr ⟨rfl, rfl⟩
  | some parent =>
      simp only [Option.bind_some]
      cases hrest : removeChild? last parent with
      | none => exact .inr ⟨child?_eq_none_of_removeChild? hrest, rfl⟩
      | some rest => exact .inl ⟨parent, rest, rfl, hrest, rfl⟩

theorem WellFormed.remove (hv : v.WellFormed) (p : Path) : (v.remove p).WellFormed := by
  rw [Value.remove]
  cases hremoved : v.removed? (.plain p) with
  | none => exact hv
  | some rest => exact hv.removed? hremoved

/-! ### What gets in the way of what -/

/-- What is left of a list was in it before, at the same path unless it has been moved. -/
theorem exists_list_of_put {items' : List Value} {a : String} (hv : v.WellFormed)
    (hparent : v.node? base = some parent) (hrest : removeChild? last parent = some rest)
    (hlist : (v.put base rest).node? q = some (.list items'))
    (hfree : ¬ v.Shifts (base.child last) (q.child a)) :
    ∃ items, v.node? q = some (.list items) ∧ items'.length ≤ items.length := by
  by_cases hbelow : base <+: q
  · obtain ⟨below, rfl⟩ := hbelow
    rw [node?_put_append (Option.isSome_of_eq_some hparent)] at hlist
    cases childRemoved_of_removeChild? hrest with
    | key fields =>
        cases below with
        | nil => exact absurd hlist (by simp)
        | cons token below =>
            have hdistinct := (wellFormed_map_iff.mp (hv.of_node? hparent)).1
            rw [node?_cons, child?] at hlist
            have hne : last ≠ token := by
              rintro rfl
              rw [hdistinct.find?_erase] at hlist
              exact absurd hlist (by simp)
            rw [Entries.find?_erase_of_ne fields hne] at hlist
            refine ⟨items', ?_, Nat.le_refl _⟩
            rw [node?_append, hparent, Option.bind_some, node?_cons, child?]
            exact hlist
    | @element items i hi hlt =>
        cases below with
        | nil =>
            obtain rfl := list.inj (Option.some.inj hlist)
            rw [List.append_nil]
            exact ⟨items, hparent, List.length_eraseIdx_le items i⟩
        | cons token below =>
            rw [node?_cons] at hlist
            obtain ⟨c, hc, hlist⟩ := Option.bind_eq_some_iff.mp hlist
            obtain ⟨j, hj, hc⟩ := Option.bind_eq_some_iff.mp hc
            -- An element behind the one that is gone would have been moved.
            have hji : j < i := by
              by_contra hle
              have hlength := List.length_eraseIdx_of_lt hlt
              have hjlt := (List.getElem?_eq_some_iff.mp hc).1
              refine hfree ⟨base, Path.child below a, last, token, items, i, j, rfl, ?_, hparent,
                hi, hj, Nat.le_of_not_lt hle, ?_, ?_⟩
              · simp [Path.child]
              · omega
              · omega
            rw [List.getElem?_eraseIdx_of_lt hji] at hc
            refine ⟨items', ?_, Nat.le_refl _⟩
            rw [node?_append, hparent, Option.bind_some, node?_cons, child?, hj, Option.bind_some,
              hc]
            exact hlist
  · obtain ⟨w, hw, hhead⟩ := head_node?_of_put hbelow hlist
    obtain ⟨items, rfl, hlength, -⟩ := list_of_head_eq hhead.symm
    exact ⟨items, hw, Nat.le_of_eq hlength.symm⟩

/-- Nothing is left below an empty document. -/
theorem child?_cleared (v : Value) (token : String) : v.cleared.child? token = none := by
  cases v with
  | list items => cases hi : index? token <;> simp [cleared, child?, hi]
  | _ => rfl

theorem not_shifts_cleared (v : Value) (p q : Path) : ¬ v.cleared.Shifts p q := by
  rintro ⟨base, -, -, -, items, -, j, -, -, hlist, -, -, -, hlt, -⟩
  cases base with
  | nil =>
      cases v with
      | list items' =>
          obtain rfl := list.inj (Option.some.inj hlist)
          exact absurd hlt (Nat.not_lt_zero j)
      | _ => exact absurd hlist (by simp [cleared])
  | cons token base =>
      rw [node?_cons, child?_cleared] at hlist
      exact absurd hlist (by simp)

/-- **Where one path gets in the way of another after a removal, it did before.** -/
theorem Shifts.of_remove {o : Path} (hv : v.WellFormed) (hfree : ¬ v.Shifts o p)
    (h : (v.remove o).Shifts p q) : v.Shifts p q := by
  rcases o.eq_nil_or_child with rfl | ⟨base, last, rfl⟩
  · exact absurd h (not_shifts_cleared v p q)
  rcases v.remove_child_cases base last with ⟨parent, rest, hparent, hrest, hremove⟩ | ⟨-, hremove⟩
  · rw [hremove] at h
    obtain ⟨base', rest', a, b, items', i, j, rfl, rfl, hlist, ha, hb, hle, hlt, hmore⟩ := h
    obtain ⟨items, hitems, hlength⟩ := exists_list_of_put hv hparent hrest hlist hfree
    exact ⟨base', rest', a, b, items, i, j, rfl, rfl, hitems, ha, hb, hle, by omega, by omega⟩
  · rwa [hremove] at h

/-! ### One after the other -/

theorem cleared_eq_of_head_eq {w : Value} (h : v.head = w.head) : v.cleared = w.cleared := by
  cases w with
  | map fields =>
      obtain ⟨fields', rfl, -⟩ := map_of_head_eq h
      rfl
  | list items =>
      obtain ⟨items', rfl, -⟩ := list_of_head_eq h
      rfl
  | _ => rw [eq_of_head_eq_of_scalar h rfl]

theorem cleared_remove (v : Value) (p : Path) : (v.remove p).cleared = v.cleared := by
  rcases p.eq_nil_or_child with rfl | ⟨base, last, rfl⟩
  · cases v <;> rfl
  rcases v.remove_child_cases base last with ⟨parent, rest, hparent, hrest, hremove⟩ | ⟨-, hremove⟩
  · rw [hremove]
    cases base with
    | nil =>
        obtain rfl := Option.some.inj hparent
        rw [put_nil]
        cases childRemoved_of_removeChild? hrest <;> rfl
    | cons token base => exact cleared_eq_of_head_eq (head_put v (List.cons_ne_nil token base) rest)
  · rw [hremove]

/-- Removing a node and leaving others out leaves them all out, if it gets in the way of none. -/
theorem without_remove {named : Path → Bool} (hv : v.WellFormed)
    (hfree : ∀ q, named q = true → ¬ v.Shifts p q) :
    (v.remove p).without named = v.without (also p named) := by
  rcases p.eq_nil_or_child with rfl | ⟨base, last, rfl⟩
  · have hroot : also [] named [] = true := by simp [also]
    rw [without, without, if_pos hroot, cleared_remove, remove_nil]
    cases v <;> simp [cleared, pruned, prunedItems, prunedFields]
  have hroot : also (base.child last) named [] = named [] := by
    have hne : ([] == base.child last) = false := by
      simpa using (Path.child_ne_nil base last).symm
    rw [also, hne, Bool.false_or]
  rw [without, without, hroot, cleared_remove]
  congr 1
  rcases v.remove_child_cases base last with
    ⟨parent, rest, hparent, hrest, hremove⟩ | ⟨hnone, hremove⟩
  · rw [hremove]
    exact pruned_put_parent hv hparent hrest hfree
  · rw [hremove]
    refine (pruned_congr hv fun q _ hq => ?_).symm
    have hne : (q == base.child last) = false := by
      refine beq_false_of_ne ?_
      rintro rfl
      rw [hnone] at hq
      exact absurd hq (by simp)
    rw [also, hne, Bool.false_or]

theorem remove_cleared (v : Value) (p : Path) : v.cleared.remove p = v.cleared := by
  rcases p.eq_nil_or_child with rfl | ⟨base, last, rfl⟩
  · cases v <;> rfl
  rcases v.cleared.remove_child_cases base last with
    ⟨parent, rest, hparent, hrest, -⟩ | ⟨-, hremove⟩
  · cases base with
    | nil =>
        obtain rfl := Option.some.inj hparent
        rw [removeChild?_of_child?_eq_none (child?_cleared v last)] at hrest
        exact absurd hrest (by simp)
    | cons token base =>
        rw [node?_cons, child?_cleared] at hparent
        exact absurd hparent (by simp)
  · exact hremove

/-- With the root among them, whatever else is removed before or after, nothing is left. -/
theorem foldl_remove_of_mem_root (h : [] ∈ paths) : paths.foldl remove v = v.cleared := by
  induction paths generalizing v with
  | nil => exact absurd h List.not_mem_nil
  | cons p paths ih =>
      rw [List.foldl_cons]
      by_cases hmem : [] ∈ paths
      · rw [ih hmem, cleared_remove]
      · obtain rfl : [] = p := (List.mem_cons.mp h).resolve_right hmem
        clear ih h hmem
        rw [remove_nil]
        induction paths with
        | nil => rfl
        | cons q paths ih => rw [List.foldl_cons, remove_cleared, ih]

/-- No removal gets in the way of a later one, or the root is removed with all the rest. -/
def Undisturbed (v : Value) (paths : List Path) : Prop :=
  [] ∈ paths ∨ paths.Pairwise fun p q => ¬ v.Shifts p q

instance (v : Value) (paths : List Path) : Decidable (v.Undisturbed paths) :=
  inferInstanceAs (Decidable (_ ∨ _))

/-- **Nodes that are removed one after the other are removed all, and nothing else is, if none gets
in the way of a later one.** -/
theorem foldl_remove (hv : v.WellFormed) (hfree : v.Undisturbed paths) :
    paths.foldl remove v = v.without paths.contains := by
  rcases hfree with hroot | hfree
  · rw [foldl_remove_of_mem_root hroot, without, if_pos (List.contains_iff_mem.mpr hroot)]
  induction paths generalizing v with
  | nil =>
      rw [without, if_neg (by simp)]
      exact (pruned_nothing v).symm
  | cons p paths ih =>
      obtain ⟨hfirst, hrest⟩ := List.pairwise_cons.mp hfree
      have hlater : paths.Pairwise fun q r => ¬ (v.remove p).Shifts q r :=
        hrest.imp_of_mem fun hq _ hnot h => hnot (h.of_remove hv (hfirst _ hq))
      rw [List.foldl_cons, ih (hv.remove p) hlater,
        without_remove hv fun q hq => hfirst q (List.contains_iff_mem.mp hq)]
      rfl

end Value

namespace Directive

/-- A copy is trimmed node by node. -/
theorem content_trimmed (pointers : List Pointer) (copy : Direct) :
    (trimmed pointers copy).content =
      (pointers.filterMap Pointer.path?).foldl Value.remove copy.content := by
  rw [trimmed]
  induction pointers generalizing copy with
  | nil => rfl
  | cons pointer pointers ih =>
      have hcontent := Direct.delete?_map copy pointer
      have hfirst : ((copy.delete? pointer).getD copy).content =
          (copy.content.removed? pointer).getD copy.content := by
        rw [← hcontent]
        cases copy.delete? pointer <;> rfl
      rw [List.foldl_cons, ih, hfirst]
      cases hpath : pointer.path? with
      | none => rw [Value.removed?_of_path?_eq_none hpath, List.filterMap_cons_none hpath]; rfl
      | some path =>
          rw [Value.removed?_of_path? hpath, List.filterMap_cons_some hpath]
          rfl

/-- The copy that a reference with changes stands for is without what it names. -/
theorem Overlay.apply_eq {overlay : Overlay} {fields : Fields} {copy : Direct}
    (hfields : (Value.map fields).WellFormed) (hextend : ∀ e ∈ overlay.extend, e.2.WellFormed)
    (hcopy : extended overlay.extend ⟨.map fields⟩ = .ok copy)
    (hfree : copy.content.Undisturbed (overlay.delete.filterMap Pointer.path?)) :
    overlay.apply (.map fields) =
      .ok (copy.content.without (overlay.delete.filterMap Pointer.path?).contains) := by
  rw [← Value.foldl_remove (wellFormed_of_extended hfields hextend hcopy) hfree,
    ← content_trimmed, Overlay.apply]
  split
  · next hempty =>
      obtain ⟨hnoextend, hnodelete⟩ := Bool.and_eq_true_iff.mp hempty
      rw [List.isEmpty_iff.mp hnoextend] at hcopy
      obtain rfl := Except.ok.inj hcopy
      rw [List.isEmpty_iff.mp hnodelete]
      rfl
  · rw [hcopy]
    rfl

theorem Overlay.delete_of_read {directive : Fields} {overlay : Overlay}
    (h : Overlay.read directive = .ok overlay) :
    optionPointers directive "delete" = .ok overlay.delete := by
  obtain ⟨path, -, h⟩ := Except.bind_eq_ok_iff.mp h
  obtain ⟨present, -, h⟩ := Except.bind_eq_ok_iff.mp h
  obtain ⟨missing, -, h⟩ := Except.bind_eq_ok_iff.mp h
  obtain ⟨extend, -, h⟩ := Except.bind_eq_ok_iff.mp h
  obtain ⟨delete, hdelete, h⟩ := Except.bind_eq_ok_iff.mp h
  obtain rfl := Except.ok.inj h
  exact hdelete

theorem optionPointer_of_mapM {option : String} {items : List Value} {pointers : List Pointer}
    (h : items.mapM (optionPointer option) = .ok pointers) {v : Value} (hv : v ∈ items) :
    ∃ pointer, optionPointer option v = .ok pointer := by
  induction items generalizing pointers with
  | nil => exact absurd hv List.not_mem_nil
  | cons item items ih =>
      rw [List.mapM_cons] at h
      obtain ⟨pointer, hpointer, h⟩ := Except.bind_eq_ok_iff.mp h
      obtain ⟨rest, hrest, -⟩ := Except.bind_eq_ok_iff.mp h
      rcases List.mem_cons.mp hv with rfl | hv
      · exact ⟨pointer, hpointer⟩
      · exact ih hrest hv

/-- With a malformed pointer in its list a reference with changes fails, and nothing is removed. -/
theorem composeOverlay_of_malformed {directive : Fields} {items : List Value} {v : Value}
    {fault : Fault} (hoption : option? directive "delete" = some (.list items)) (hv : v ∈ items)
    (hmalformed : optionPointer "delete" v = .error fault) (context : Context) :
    ∃ fault, composeOverlay directive context = .error fault := by
  cases hcompose : composeOverlay directive context with
  | error fault => exact ⟨fault, rfl⟩
  | ok outcome =>
      obtain ⟨overlay, hread, -⟩ := Except.bind_eq_ok_iff.mp hcompose
      have hdelete := Overlay.delete_of_read hread
      rw [optionPointers, hoption] at hdelete
      obtain ⟨pointer, hpointer⟩ := optionPointer_of_mapM hdelete hv
      exact absurd (hmalformed.symm.trans hpointer) (by simp)

/-- The copy that is made of a map, in terms of what is written to it. -/
theorem composeOverlay_eq_success {directive : Fields} {context : Context} {overlay : Overlay}
    {fields : Fields} {copy : Direct} (hdirective : (Value.map directive).WellFormed)
    (hsound : context.document.Sound) (hread : Overlay.read directive = .ok overlay)
    (hfound : follow context overlay.path = .ok (.found (.map fields)))
    (hdue : overlay.isDue (.map fields) = true)
    (hcopy : extended overlay.extend ⟨.map fields⟩ = .ok copy)
    (hfree : copy.content.Undisturbed (overlay.delete.filterMap Pointer.path?)) :
    composeOverlay directive context =
      .ok (.success (copy.content.without (overlay.delete.filterMap Pointer.path?).contains)) := by
  have happly := Overlay.apply_eq (wellFormed_of_followFrom hsound hfound)
    (Overlay.wellFormed_of_read hdirective hread) hcopy hfree
  rw [composeOverlay, hread]
  show (follow context overlay.path >>= _) = _
  rw [hfound]
  show (if overlay.isDue (.map fields) then _ else _) = _
  rw [if_pos hdue, happly]
  rfl

end Directive

namespace Document

variable {d : Document}

/-- The path of the node that a text addresses.  What is no pointer addresses none, and neither does
a pointer to a file. -/
def addressed? (raw : String) : Option Path :=
  match Pointer.ofText raw with
  | .ok pointer => pointer.path?
  | .error _ => none

theorem deleteOne_sound (h : d.store.Sound) (raw : String) : (d.deleteOne raw).store.Sound := by
  rw [deleteOne]
  split
  · exact h
  · rename_i pointer _
    cases hdelete : d.store.delete? pointer with
    | none => exact h
    | some rest => exact h.delete? hdelete

theorem content_deleteOne (h : d.store.Sound) (raw : String) :
    (d.deleteOne raw).content =
      match addressed? raw with
      | some path => d.content.remove path
      | none => d.content := by
  rw [deleteOne, addressed?]
  cases Pointer.ofText raw with
  | error fault => rfl
  | ok pointer =>
      have hcontent : ((d.store.delete? pointer).getD d.store).content =
          (d.content.removed? pointer).getD d.content := by
        rw [content, ← Store.delete?_map h pointer]
        cases d.store.delete? pointer <;> rfl
      dsimp only
      cases hpath : pointer.path? with
      | none =>
          rw [Value.removed?_of_path?_eq_none hpath] at hcontent
          exact hcontent
      | some path =>
          rw [Value.removed?_of_path? hpath] at hcontent
          exact hcontent

/-- A document is deleted from node by node. -/
theorem content_delete (h : d.store.Sound) (raws : List String) :
    (d.delete raws).content = (raws.filterMap addressed?).foldl Value.remove d.content := by
  rw [delete]
  induction raws generalizing d with
  | nil => rfl
  | cons raw raws ih =>
      rw [List.foldl_cons, ih (deleteOne_sound h raw), content_deleteOne h]
      cases haddressed : addressed? raw with
      | none => rw [List.filterMap_cons_none haddressed]
      | some path => rw [List.filterMap_cons_some haddressed]; rfl

/-- **A list of pointers removes what they address at the beginning, if none gets in the way of a
later one.**  Of a document it removes the nodes whatever the store; texts that address nothing are
passed over, and the root leaves nothing.  Of the copy that a reference with changes stands for it
removes the nodes there are after the values have been written; a malformed pointer is not passed
over there, but makes the reference fail. -/
theorem delete_exactly :
    (∀ (d : Document) (raws : List String), d.store.Sound →
      d.content.Undisturbed (raws.filterMap addressed?) →
      (d.delete raws).content = d.content.without (raws.filterMap addressed?).contains) ∧
    (∀ directive context overlay fields copy, (Value.map directive).WellFormed →
      context.document.Sound → Directive.Overlay.read directive = .ok overlay →
      Directive.follow context overlay.path = .ok (.found (.map fields)) →
      overlay.isDue (.map fields) = true →
      Directive.extended overlay.extend ⟨.map fields⟩ = .ok copy →
      copy.content.Undisturbed (overlay.delete.filterMap Pointer.path?) →
      Directive.composeOverlay directive context = .ok
        (.success (copy.content.without (overlay.delete.filterMap Pointer.path?).contains))) ∧
    ∀ directive items v fault context,
      Directive.option? directive "delete" = some (.list items) → v ∈ items →
      Directive.optionPointer "delete" v = .error fault →
      ∃ fault, Directive.composeOverlay directive context = .error fault := by
  refine ⟨fun d raws hsound hfree => ?_, ?_, ?_⟩
  · rw [content_delete hsound]
    exact Value.foldl_remove hsound.wellFormed hfree
  · intro directive context overlay fields copy hdirective hsound hread hfound hdue hcopy hfree
    exact Directive.composeOverlay_eq_success hdirective hsound hread hfound hdue hcopy hfree
  · intro directive items v fault context hoption hv hmalformed
    exact Directive.composeOverlay_of_malformed hoption hv hmalformed context

/-- A map with a list in it. -/
def listed : Fields :=
  [("l", .list [.int 1, .int 2, .int 3]), ("m", .map [("a", .null)])]

/-- The last element first, then one before it, an entry, what is below it, and what is nowhere. -/
def backwards : List String :=
  ["/l/2", "/l/0", "/m", "/m/a", "no pointer", "/x"]

/-- A reference to the map without the same elements of its list. -/
def trimming : Fields :=
  [("!xref", .text "/t"), ("$delete", .list [.text "/l/2", .text "/l/0", .text "/x"])]

/-- The map beside the reference to it. -/
def besideMap : Context where
  document := .wrap .direct (.map [("t", .map listed), ("c", .map trimming)])
  path := ["c"]
  markers := ["!xref"]
  setting := ⟨.none, ⟨0, 0, 0⟩⟩

/-- The element in the middle is left, and in the copy the other entry. -/
theorem delete_exactly_backwards :
    let d : Document := ⟨.wrap .direct (.map listed), none⟩
    d.store.Sound ∧
      d.content.Undisturbed (backwards.filterMap addressed?) ∧
      (d.delete backwards).content = .map [("l", .list [.int 2])] ∧
      besideMap.document.Sound ∧
      Directive.composeOverlay trimming besideMap =
        .ok (.success (.map [("l", .list [.int 2]), ("m", .map [("a", .null)])])) ∧
      ∃ fault, Directive.composeOverlay [("!xref", .text "/t"), ("$delete", .list [.text "l"])]
        besideMap = .error fault := by
  intro d
  have hsound : d.store.Sound := by
    refine Store.sound_wrap ?_ .direct
    simp [listed, Value.wellFormed_map_iff, Value.wellFormed_list_iff, Entries.Distinct,
      Entries.keys, Value.int]
  have hfree : d.content.Undisturbed (backwards.filterMap addressed?) := by decide +kernel
  have hpaths : backwards.filterMap addressed? =
      [["l", "2"], ["l", "0"], ["m"], ["m", "a"], ["x"]] := by cbv
  have hbeside : besideMap.document.Sound := by
    refine Store.sound_wrap ?_ .direct
    simp [listed, trimming, Value.wellFormed_map_iff, Value.wellFormed_list_iff, Entries.Distinct,
      Entries.keys, Value.int]
  have htrimming : (Value.map trimming).WellFormed := by
    simp [trimming, Value.wellFormed_map_iff, Value.wellFormed_list_iff, Entries.Distinct,
      Entries.keys]
  let overlay : Directive.Overlay :=
    ⟨["t"], [], [], [], [.plain ["l", "2"], .plain ["l", "0"], .plain ["x"]]⟩
  have hread : Directive.Overlay.read trimming = .ok overlay := by
    show _ = Except.ok (⟨["t"], [], [], [], _⟩ : Directive.Overlay)
    cbv
  have hfound : Directive.follow besideMap overlay.path = .ok (.found (.map listed)) := by
    show Directive.follow besideMap ["t"] = _
    cbv
  obtain ⟨hdocument, hcopy, hmalformed⟩ := delete_exactly
  refine ⟨hsound, hfree, (hdocument d backwards hsound hfree).trans ?_, hbeside,
    (hcopy trimming besideMap overlay listed ⟨.map listed⟩ htrimming hbeside hread hfound rfl rfl
      ?_).trans ?_, hmalformed _ _ _ _ _ rfl List.mem_cons_self rfl⟩
  · rw [hpaths]
    show (Value.map listed).without _ = _
    cbv
  · show (Value.map listed).Undisturbed [["l", "2"], ["l", "0"], ["x"]]
    decide +kernel
  · show Except.ok (Outcome.success ((Value.map listed).without
      ([["l", "2"], ["l", "0"], ["x"]] : List Path).contains)) = _
    cbv

/-- Front to back the wrong elements are removed, since the second pointer addresses what has moved
there by then.  A malformed pointer is not passed over in a reference with changes. -/
theorem delete_inexactly :
    let d : Document := ⟨.wrap .direct (.list [.int 1, .int 2, .int 3]), none⟩
    d.store.Sound ∧ (d.delete ["/0", "/1"]).content = .list [.int 2] ∧
      d.content.without (["/0", "/1"].filterMap addressed?).contains = .list [.int 3] ∧
      (d.delete ["/0", "/1"]).content ≠
        d.content.without (["/0", "/1"].filterMap addressed?).contains ∧
      Directive.composeOverlay
        [("!xref", .text "/t"), ("$delete", .list [.text "/m", .text "l"])] besideMap =
          .error (.malformed "l" .notAPointer) := by
  intro d
  have hsound : d.store.Sound := by
    refine Store.sound_wrap ?_ .direct
    simp [Value.wellFormed_list_iff, Value.int]
  have hleft : (d.delete ["/0", "/1"]).content = .list [.int 2] := by
    show (delete ⟨.wrap .direct (.list [.int 1, .int 2, .int 3]), none⟩ ["/0", "/1"]).content = _
    cbv
  have hpaths : ["/0", "/1"].filterMap addressed? = [["0"], ["1"]] := by cbv
  have hnamed : d.content.without (["/0", "/1"].filterMap addressed?).contains =
      .list [.int 3] := by
    rw [hpaths]
    show (Value.list [.int 1, .int 2, .int 3]).without _ = _
    cbv
  refine ⟨hsound, hleft, hnamed, ?_, by cbv⟩
  rw [hleft, hnamed]
  simp [Value.int]

end Document

end Docweave
