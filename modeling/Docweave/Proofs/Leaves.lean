import Docweave.Proofs.Addresses
import Docweave.Proofs.Store.Agreement
import Mathlib.Data.List.Nodup
import Mathlib.Data.List.Range

/-!
A walk over the leaves of a document comes by every scalar once, from left to right.

`Value.scalars` says what the leaves are without any walk: by recursion on the document, the scalars
of the first child, then those of the second, and so on, each with its position.  The walk holds a
stack instead.  What ties the two together is one equation at every moment of the walk: the leaves
that are still to come are those of the nodes on the stack, one node after the other
(`Leaves.upcoming`).  Exchanging a container for its children does not change them
(`upcoming_children`), and a scalar on top of the stack is the first of them.  So each step takes
off one leaf, and the walk ends with the last.
-/

namespace Docweave

namespace Value

/-- A leaf below a child, seen from the node above it. -/
def inside (step : Step) (leaf : List Step × Value) : List Step × Value :=
  (step :: leaf.1, leaf.2)

mutual

/-- The scalars of a document from left to right, each with its position. -/
def scalars : Value → List (List Step × Value)
  | .list items => scalarsOfItems 0 items
  | .map fields => scalarsOfFields fields
  | v => [([], v)]

/-- The scalars in the elements of a list from a position on. -/
def scalarsOfItems (i : Nat) : List Value → List (List Step × Value)
  | [] => []
  | v :: vs => (scalars v).map (inside (.index i)) ++ scalarsOfItems (i + 1) vs

/-- The scalars in the entries of a map. -/
def scalarsOfFields : List (String × Value) → List (List Step × Value)
  | [] => []
  | (key, v) :: es => (scalars v).map (inside (.key key)) ++ scalarsOfFields es

end

/-- The path to a leaf. -/
def pathOf (leaf : List Step × Value) : Path :=
  leaf.1.map Step.text

/-- The leaves of a document from left to right, each with its path. -/
def leaves (root : Value) : List (Path × Value) :=
  root.scalars.map fun leaf => (pathOf leaf, leaf.2)

/-! ### Node by node -/

/-- The children of a node in their order, each with the step to it. -/
def parts : Value → List (Step × Value)
  | .list items => items.zipIdx.map fun e => (.index e.2, e.1)
  | .map fields => fields.map fun e => (.key e.1, e.2)
  | _ => []

/-- Induction over documents by the children of a node. -/
theorem parts_induction {motive : Value → Prop}
    (node : ∀ v, (∀ part ∈ v.parts, motive part.2) → motive v) (v : Value) : motive v := by
  induction v using Value.induction with
  | list items ih =>
      refine node _ fun part hpart => ?_
      obtain ⟨⟨c, i⟩, hmem, rfl⟩ := List.mem_map.mp hpart
      exact ih c (List.mem_of_getElem? (List.mem_zipIdx_iff_getElem?.mp hmem))
  | map fields ih =>
      refine node _ fun part hpart => ?_
      obtain ⟨e, hmem, rfl⟩ := List.mem_map.mp hpart
      exact ih e hmem
  | _ => exact node _ fun part hpart => absurd hpart List.not_mem_nil

theorem scalarsOfItems_eq (i : Nat) (items : List Value) :
    scalarsOfItems i items =
      (items.zipIdx i).flatMap fun e => e.1.scalars.map (inside (.index e.2)) := by
  induction items generalizing i with
  | nil => rfl
  | cons v vs ih => rw [scalarsOfItems, ih, List.zipIdx_cons, List.flatMap_cons]

theorem scalarsOfFields_eq (fields : Fields) :
    scalarsOfFields fields = fields.flatMap fun e => e.2.scalars.map (inside (.key e.1)) := by
  induction fields with
  | nil => rfl
  | cons e es ih => rw [scalarsOfFields, ih, List.flatMap_cons]

theorem scalars_of_isContainer {v : Value} (h : v.isContainer = true) :
    v.scalars = v.parts.flatMap fun part => part.2.scalars.map (inside part.1) := by
  cases v with
  | list items => rw [scalars, scalarsOfItems_eq, parts, List.flatMap_map]
  | map fields => rw [scalars, scalarsOfFields_eq, parts, List.flatMap_map]
  | _ => exact absurd h (by simp [isContainer])

theorem scalars_of_not_isContainer {v : Value} (h : ¬ v.isContainer = true) :
    v.scalars = [([], v)] := by
  cases v with
  | list items => exact absurd rfl h
  | map fields => exact absurd rfl h
  | _ => rfl

/-! ### The scalars are what stands there -/

theorem at_nil_iff {root v : Value} : root.At [] v ↔ v = root := by
  constructor
  · intro h
    cases h
    rfl
  · rintro rfl
    exact .here v

theorem at_cons_iff {root v : Value} {step : Step} {steps : List Step} :
    root.At (step :: steps) v ↔ ∃ c, (step, c) ∈ root.parts ∧ c.At steps v := by
  constructor
  · intro h
    cases h with
    | key hmem h => exact ⟨_, List.mem_map.mpr ⟨_, hmem, rfl⟩, h⟩
    | index hc h =>
        exact ⟨_, List.mem_map.mpr ⟨(_, _), List.mem_zipIdx_iff_getElem?.mpr hc, rfl⟩, h⟩
  · rintro ⟨c, hmem, h⟩
    cases root with
    | list items =>
        obtain ⟨⟨c, i⟩, hitem, heq⟩ := List.mem_map.mp hmem
        obtain ⟨rfl, rfl⟩ := Prod.mk.inj heq
        exact .index (List.mem_zipIdx_iff_getElem?.mp hitem) h
    | map fields =>
        obtain ⟨e, hentry, heq⟩ := List.mem_map.mp hmem
        obtain ⟨rfl, rfl⟩ := Prod.mk.inj heq
        exact .key hentry h
    | _ => exact absurd hmem List.not_mem_nil

/-- **The scalars of a document are what stands in it without being a container.** -/
theorem mem_scalars_iff {root v : Value} {steps : List Step} :
    (steps, v) ∈ root.scalars ↔ root.At steps v ∧ v.isContainer = false := by
  induction root using parts_induction generalizing steps with
  | node root ih =>
      by_cases hroot : root.isContainer = true
      · rw [scalars_of_isContainer hroot, List.mem_flatMap]
        cases steps with
        | nil =>
            refine iff_of_false ?_ ?_
            · rintro ⟨part, -, hmem⟩
              obtain ⟨inner, -, heq⟩ := List.mem_map.mp hmem
              exact absurd (Prod.mk.inj heq).1 (List.cons_ne_nil _ _)
            · rintro ⟨hat, hv⟩
              rw [at_nil_iff.mp hat, hroot] at hv
              exact absurd hv (by simp)
        | cons step steps =>
            rw [at_cons_iff]
            constructor
            · rintro ⟨⟨step, c⟩, hpart, hmem⟩
              obtain ⟨⟨steps, v⟩, hinner, heq⟩ := List.mem_map.mp hmem
              obtain ⟨hsteps, rfl⟩ := Prod.mk.inj heq
              obtain ⟨rfl, rfl⟩ := List.cons.inj hsteps
              obtain ⟨hat, hv⟩ := (ih _ hpart).mp hinner
              exact ⟨⟨c, hpart, hat⟩, hv⟩
            · rintro ⟨⟨c, hpart, hat⟩, hv⟩
              exact ⟨(step, c), hpart,
                List.mem_map.mpr ⟨(steps, v), (ih _ hpart).mpr ⟨hat, hv⟩, rfl⟩⟩
      · rw [scalars_of_not_isContainer hroot, List.mem_singleton, Prod.mk.injEq]
        constructor
        · rintro ⟨rfl, rfl⟩
          exact ⟨.here v, Bool.eq_false_iff.mpr hroot⟩
        · rintro ⟨hat, -⟩
          cases hat with
          | here => exact ⟨rfl, rfl⟩
          | key => exact absurd rfl hroot
          | index => exact absurd rfl hroot

/-! ### Document order -/

/-- One position comes before another in a document: where the two part, it goes to the earlier
element of a list or to the earlier key of a map. -/
inductive Precedes : Value → List Step → List Step → Prop
  | index {items : List Value} {i j : Nat} (h : i < j) (steps steps' : List Step) :
      Precedes (.list items) (.index i :: steps) (.index j :: steps')
  | key {fields : Fields} {a b : String} (h : [a, b].Sublist (Entries.keys fields))
      (steps steps' : List Step) : Precedes (.map fields) (.key a :: steps) (.key b :: steps')
  | within {v c : Value} {step : Step} {steps steps' : List Step} (hc : (step, c) ∈ v.parts)
      (h : Precedes c steps steps') : Precedes v (step :: steps) (step :: steps')

theorem pairwise_parts (v : Value) :
    v.parts.Pairwise fun part part' =>
      ∀ steps steps', v.Precedes (part.1 :: steps) (part'.1 :: steps') := by
  cases v with
  | list items =>
      have hindices : (items.zipIdx.map Prod.snd).Pairwise (· < ·) := by
        rw [List.zipIdx_map_snd]
        exact List.pairwise_lt_range'
      exact List.pairwise_map.mpr ((List.pairwise_map.mp hindices).imp fun h => .index h)
  | map fields =>
      refine List.pairwise_map.mpr (List.pairwise_iff_forall_sublist.mpr fun h => ?_)
      exact .key (h.map Prod.fst)
  | _ => exact List.Pairwise.nil

/-- **The scalars stand in document order.** -/
theorem pairwise_scalars (root : Value) :
    root.scalars.Pairwise fun leaf leaf' => root.Precedes leaf.1 leaf'.1 := by
  induction root using parts_induction with
  | node root ih =>
      by_cases hroot : root.isContainer = true
      · rw [scalars_of_isContainer hroot, List.pairwise_flatMap]
        refine ⟨fun part hpart => ?_, (pairwise_parts root).imp fun h leaf hleaf leaf' hleaf' => ?_⟩
        · exact List.pairwise_map.mpr ((ih part hpart).imp fun h => .within hpart h)
        · obtain ⟨inner, -, rfl⟩ := List.mem_map.mp hleaf
          obtain ⟨inner', -, rfl⟩ := List.mem_map.mp hleaf'
          exact h inner.1 inner'.1
      · rw [scalars_of_not_isContainer hroot]
        exact List.pairwise_singleton _ _

/-! ### Paths of leaves -/

/-- The children of a node are written as different tokens. -/
theorem nodup_texts_parts {v : Value} (h : v.WellFormed) :
    (v.parts.map fun part => part.1.text).Nodup := by
  cases v with
  | list items =>
      have htexts : (parts (.list items)).map (fun part => part.1.text) =
          (items.zipIdx.map Prod.snd).map toString := by
        rw [parts, List.map_map, List.map_map]
        rfl
      rw [htexts, List.zipIdx_map_snd]
      exact List.Nodup.map (fun _ _ heq => toString_inj heq) List.nodup_range'
  | map fields =>
      rw [parts, List.map_map]
      exact (wellFormed_map_iff.mp h).1
  | _ => exact List.nodup_nil

theorem WellFormed.of_mem_parts {v : Value} (h : v.WellFormed) {part : Step × Value}
    (hpart : part ∈ v.parts) : part.2.WellFormed := by
  cases v with
  | list items =>
      obtain ⟨⟨c, i⟩, hmem, rfl⟩ := List.mem_map.mp hpart
      exact wellFormed_list_iff.mp h c (List.mem_of_getElem? (List.mem_zipIdx_iff_getElem?.mp hmem))
  | map fields =>
      obtain ⟨e, hmem, rfl⟩ := List.mem_map.mp hpart
      exact (wellFormed_map_iff.mp h).2 e hmem
  | _ => exact absurd hpart List.not_mem_nil

/-- **No two leaves of a document have one path.** -/
theorem nodup_paths {root : Value} (h : root.WellFormed) : (root.scalars.map pathOf).Nodup := by
  induction root using parts_induction with
  | node root ih =>
      by_cases hroot : root.isContainer = true
      · have hinside : ∀ part : Step × Value, (part.2.scalars.map (inside part.1)).map pathOf =
            (part.2.scalars.map pathOf).map (part.1.text :: ·) := by
          intro part
          rw [List.map_map, List.map_map]
          rfl
        rw [scalars_of_isContainer hroot, List.map_flatMap, List.nodup_flatMap]
        refine ⟨fun part hpart => ?_, ?_⟩
        · rw [hinside]
          exact (ih part hpart (h.of_mem_parts hpart)).map List.cons_injective
        · -- Below different children the paths differ in their first token.
          refine (List.pairwise_map.mp (nodup_texts_parts h)).imp fun hne path hpath hpath' => ?_
          simp only [hinside] at hpath hpath'
          obtain ⟨q, -, rfl⟩ := List.mem_map.mp hpath
          obtain ⟨q', -, heq⟩ := List.mem_map.mp hpath'
          exact hne (List.cons.inj heq).1.symm
      · rw [scalars_of_not_isContainer hroot]
        exact List.nodup_singleton _

end Value

namespace Leaves

open Value

/-- What a walk gives, one leaf after the other, until it is at its end. -/
inductive Yields : Leaves → List (Path × Value) → Prop
  | done {walk : Leaves} (h : walk.next? = none) : Yields walk []
  | next {walk rest : Leaves} {leaf : Path × Value} {leaves : List (Path × Value)}
      (h : walk.next? = some (leaf, rest)) (hrest : Yields rest leaves) :
      Yields walk (leaf :: leaves)

/-- The leaf as it is shown from a node with this path. -/
def shown (path : Path) (leaf : List Step × Value) : Path × Value :=
  (path ++ pathOf leaf, leaf.2)

/-- The leaves of the nodes that are still to be visited. -/
def upcoming (walk : Leaves) : List (Path × Value) :=
  walk.pending.flatMap fun node => node.2.scalars.map (shown node.1)

theorem upcoming_start (root : Value) : (start root).upcoming = root.leaves :=
  List.flatMap_singleton _ _

/-! ### One step -/

theorem children_eq (path : Path) (v : Value) :
    children path v = v.parts.map fun part => (path.child part.1.text, part.2) := by
  cases v with
  | list items => rw [children, parts, List.map_map]; rfl
  | map fields => rw [children, parts, List.map_map]; rfl
  | _ => rfl

/-- The leaves of a container are those of its children. -/
theorem upcoming_children {v : Value} (hv : v.isContainer = true) (path : Path) :
    upcoming ⟨children path v⟩ = v.scalars.map (shown path) := by
  have hinside : ∀ part : Step × Value, (part.2.scalars.map (inside part.1)).map (shown path) =
      part.2.scalars.map (shown (path.child part.1.text)) := by
    intro part
    rw [List.map_map]
    refine List.map_congr_left fun leaf _ => ?_
    simp [shown, inside, pathOf, Path.child]
  rw [scalars_of_isContainer hv, List.map_flatMap]
  simp only [upcoming, children_eq, List.flatMap_map, hinside]

/-- **The next step takes off the first of the leaves that are still to come.** -/
theorem next?_eq (walk : Leaves) :
    (walk.next? = none ∧ walk.upcoming = []) ∨
      ∃ leaf rest, walk.next? = some (leaf, rest) ∧ walk.upcoming = leaf :: rest.upcoming := by
  fun_induction next? walk with
  | case1 => exact .inl ⟨rfl, rfl⟩
  | case2 path v rest hcontainer ih =>
      have hsame : upcoming ⟨children path v ++ rest⟩ = upcoming ⟨(path, v) :: rest⟩ := by
        have hchildren := upcoming_children hcontainer path
        simp only [upcoming] at hchildren ⊢
        rw [List.flatMap_append, hchildren, List.flatMap_cons]
      rwa [hsame] at ih
  | case3 path v rest hscalar =>
      refine .inr ⟨(path, v), ⟨rest⟩, rfl, ?_⟩
      simp [upcoming, scalars_of_not_isContainer hscalar, shown, pathOf]

/-! ### The whole walk -/

/-- **A walk gives the leaves that are still to come, and then it is at its end.** -/
theorem yields_iff {walk : Leaves} {leaves : List (Path × Value)} :
    Yields walk leaves ↔ leaves = walk.upcoming := by
  constructor
  · intro h
    induction h with
    | @done walk h =>
        rcases walk.next?_eq with ⟨-, hnil⟩ | ⟨leaf, rest, hnext, -⟩
        · exact hnil.symm
        · exact absurd (h.symm.trans hnext) (by simp)
    | @next walk rest leaf leaves h _ ih =>
        rcases walk.next?_eq with ⟨hnone, -⟩ | ⟨leaf', rest', hnext, hcons⟩
        · exact absurd (h.symm.trans hnone) (by simp)
        · obtain ⟨rfl, rfl⟩ := Prod.mk.inj (Option.some.inj (h.symm.trans hnext))
          rw [hcons, ih]
  · rintro rfl
    generalize hupcoming : walk.upcoming = leaves
    induction leaves generalizing walk with
    | nil =>
        rcases walk.next?_eq with ⟨hnone, -⟩ | ⟨leaf, rest, -, hcons⟩
        · exact .done hnone
        · exact absurd (hupcoming.symm.trans hcons) (by simp)
    | cons leaf leaves ih =>
        rcases walk.next?_eq with ⟨-, hnil⟩ | ⟨leaf', rest, hnext, hcons⟩
        · exact absurd (hupcoming.symm.trans hnil) (by simp)
        · obtain ⟨rfl, rfl⟩ := List.cons.inj (hupcoming.symm.trans hcons)
          exact .next hnext (ih rfl)

/-- Collecting cuts the leaves off where the fuel ends. -/
theorem collect_eq_take (fuel : Nat) (walk : Leaves) :
    collect fuel walk = walk.upcoming.take fuel := by
  induction fuel generalizing walk with
  | zero => rw [collect, List.take_zero]
  | succ fuel ih =>
      rw [collect]
      rcases walk.next?_eq with ⟨hnone, hnil⟩ | ⟨leaf, rest, hnext, hcons⟩
      · rw [hnone, hnil, List.take_nil]
      · rw [hnext, hcons, List.take_succ_cons]
        exact congrArg (leaf :: ·) (ih rest)

theorem length_upcoming_le {pending : List (Path × Value)}
    (h : ∀ node ∈ pending, node.2.scalars.length ≤ node.2.size) :
    (upcoming ⟨pending⟩).length ≤ weight pending := by
  induction pending with
  | nil => exact Nat.le_refl 0
  | cons node rest ih =>
      obtain ⟨hnode, hrest⟩ := List.forall_mem_cons.mp h
      have hlength := ih hrest
      simp only [upcoming] at hlength ⊢
      rw [List.flatMap_cons, List.length_append, List.length_map, weight]
      omega

/-- A document has no more leaves than nodes. -/
theorem length_scalars_le (root : Value) : root.scalars.length ≤ root.size := by
  induction root using parts_induction with
  | node root ih =>
      by_cases hroot : root.isContainer = true
      · have hchildren : ∀ node ∈ children [] root, node.2.scalars.length ≤ node.2.size := by
          intro node hnode
          rw [children_eq] at hnode
          obtain ⟨part, hpart, rfl⟩ := List.mem_map.mp hnode
          exact ih part hpart
        have hlength := length_upcoming_le hchildren
        have hweight := weight_children_lt [] root
        rw [upcoming_children hroot, List.length_map] at hlength
        omega
      · rw [scalars_of_not_isContainer hroot]
        cases root <;> simp [size]

/-- Collecting the leaves of a document collects all of them. -/
theorem ofValue_eq (root : Value) : ofValue root = root.leaves := by
  rw [ofValue, collect_eq_take, upcoming_start, Value.leaves]
  refine List.take_of_length_le ?_
  rw [List.length_map]
  exact length_scalars_le root

end Leaves

namespace Store

open Value

/-- **The leaves of a document are its scalars, from left to right.**  Going over a document behind
a store comes to an end, and what it gives is the list that the recursion over the document says and
no other.  In it are exactly the scalars that stand in the document, in document order, each with
the path that its position spells; no path is there twice, and the store finds each leaf by its
path. -/
theorem leaves_left_to_right {store : Store} (h : store.Sound) :
    (∀ leaves, Leaves.Yields (Leaves.start store.content) leaves ↔ leaves = store.leaves) ∧
    store.leaves = store.content.scalars.map (fun leaf => (leaf.1.map Step.text, leaf.2)) ∧
    (∀ steps v, (steps, v) ∈ store.content.scalars ↔
      store.content.At steps v ∧ v.isContainer = false) ∧
    (store.content.scalars.Pairwise fun leaf leaf' => store.content.Precedes leaf.1 leaf'.1) ∧
    (store.leaves.map Prod.fst).Nodup ∧
    ∀ steps v, (steps, v) ∈ store.content.scalars → FitsWords steps →
      store.get (.plain (steps.map Step.text)) = .ok v := by
  have hleaves : store.leaves = store.content.leaves := Leaves.ofValue_eq store.content
  refine ⟨fun leaves => ?_, hleaves, fun steps v => mem_scalars_iff,
    pairwise_scalars store.content, ?_, fun steps v hmem hfits => ?_⟩
  · rw [Leaves.yields_iff, Leaves.upcoming_start, hleaves]
  · rw [hleaves, Value.leaves, List.map_map]
    exact nodup_paths h.wellFormed
  · have hleads := (mem_scalars_iff.mp hmem).1.leads h.wellFormed hfits
    exact (get_plain_eq_ok_iff h).mpr (node?_eq_some_iff_leads.mpr ⟨steps, hleads⟩)

/-- Empty containers are no leaves, and an empty key shows as an empty token. -/
theorem leaves_left_to_right_nested :
    let root : Value :=
      .map [("list", .list [.int 1, .list [], .map [("", .text "x")]]), ("a/b", .null)]
    root.WellFormed ∧
      (wrap .indexed root).leaves =
        [(["list", "0"], .int 1), (["list", "2", ""], .text "x"), (["a/b"], .null)] ∧
      (wrap .indexed root).get (.plain ["list", "2", ""]) = .ok (.text "x") := by
  intro root
  have hroot : root.WellFormed := by
    simp [root, Value.int, WellFormed, WellFormedFields, WellFormedItems, Entries.Distinct,
      Entries.keys]
  obtain ⟨-, hleaves, -, -, -, hget⟩ := leaves_left_to_right (sound_wrap hroot .indexed)
  rw [content_wrap] at hleaves hget
  have hfits : FitsWords [.key "list", .index 2, .key ""] := by
    intro i hi
    simp at hi
    omega
  refine ⟨hroot, hleaves.trans rfl, hget [.key "list", .index 2, .key ""] _ ?_ hfits⟩
  simp [root, scalars, scalarsOfFields, scalarsOfItems, inside]

end Store

end Docweave
