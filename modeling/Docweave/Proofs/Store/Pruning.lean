import Docweave.Proofs.Children
import Docweave.Proofs.Store.Direct

/-!
A document without several of its nodes.

`Value.without` leaves the named nodes out all at once: which node a path stands for is settled by
the document there is at the beginning.  Removing one node after the other comes to the same as long
as no removal moves what another path leads through.  Only an element that is taken out of a list
does that, to the elements behind it, and then only if there are any (`Value.Shifts`).  So taking a
node out is the same as naming it as well, if it shifts nothing that is named
(`Value.pruned_put_parent`).
-/

namespace Docweave

namespace Value

mutual

/-- The value without the nodes below it that are named. -/
def pruned (named : Path → Bool) : Value → Value
  | .list items => .list (prunedItems named 0 items)
  | .map fields => .map (prunedFields named fields)
  | .null => .null
  | .bool b => .bool b
  | .number n => .number n
  | .text s => .text s

/-- The elements of a list from a position on without the nodes that are named.  An element beyond
what 64 bits count has no path, so it is not named. -/
def prunedItems (named : Path → Bool) : Nat → List Value → List Value
  | _, [] => []
  | i, v :: vs =>
    match token? i with
    | none => v :: vs
    | some token =>
      if named [token] then prunedItems named (i + 1) vs
      else pruned (fun path => named (token :: path)) v :: prunedItems named (i + 1) vs

/-- The entries of a map without the nodes that are named. -/
def prunedFields (named : Path → Bool) : List (String × Value) → List (String × Value)
  | [] => []
  | (key, v) :: es =>
    if named [key] then prunedFields named es
    else (key, pruned (fun path => named (key :: path)) v) :: prunedFields named es

end

/-- The document without the nodes that are named; without the root it is empty. -/
def without (named : Path → Bool) (v : Value) : Value :=
  if named [] then v.cleared else pruned named v

/-- One more path is named. -/
def also (path : Path) (named : Path → Bool) : Path → Bool :=
  fun other => other == path || named other

/-- Taking out the node at the first path moves what the second one leads through: the first one is
the path of an element of a list, though not of the last one, and the second one leads through that
element or one behind it. -/
def Shifts (v : Value) (p q : Path) : Prop :=
  ∃ (base rest : Path) (a b : String) (items : List Value) (i j : Nat),
    p = base.child a ∧ q = base ++ b :: rest ∧ v.node? base = some (.list items) ∧
      index? a = some i ∧ index? b = some j ∧ i ≤ j ∧ j < items.length ∧ i + 1 < items.length

variable {v v' rest : Value} {named named' : Path → Bool} {p q base : Path} {token last : String}

theorem items?_eq_some_iff {items : List Value} : v.items? = some items ↔ v = .list items := by
  cases v <;> simp [items?]

/-- Whether one path is in the way of another can be told by going to the parent of the first. -/
theorem shifts_iff :
    v.Shifts p q ↔ p.parent <+: q ∧ ∃ items ∈ (v.node? p.parent).bind items?,
      ∃ i ∈ p.getLast?.bind index?, ∃ j ∈ (q.drop p.parent.length).head?.bind index?,
        i ≤ j ∧ j < items.length ∧ i + 1 < items.length := by
  constructor
  · rintro ⟨base, rest, a, b, items, i, j, rfl, rfl, hlist, ha, hb, hbounds⟩
    rw [Path.parent_child, Path.getLast?_child, List.drop_left, hlist]
    exact ⟨List.prefix_append base _, items, rfl, i, ha, j, hb, hbounds⟩
  · rintro ⟨⟨below, rfl⟩, items, hlist, i, ha, j, hb, hbounds⟩
    rw [List.drop_left] at hb
    obtain ⟨w, hw, hitems⟩ := Option.bind_eq_some_iff.mp hlist
    obtain rfl := items?_eq_some_iff.mp hitems
    obtain ⟨a, hlast, ha⟩ := Option.bind_eq_some_iff.mp ha
    obtain ⟨b, hhead, hb⟩ := Option.bind_eq_some_iff.mp hb
    obtain ⟨rest, rfl⟩ := List.head?_eq_some_iff.mp hhead
    refine ⟨p.parent, rest, a, b, items, i, j, ?_, rfl, hw, ha, hb, hbounds⟩
    exact (List.dropLast_append_getLast? a hlast).symm

instance (v : Value) (p q : Path) : Decidable (v.Shifts p q) :=
  decidable_of_iff _ shifts_iff.symm

example : (list [.null, .null]).Shifts ["0"] ["1", "a"] := by decide

example : ¬ (list [.null, .null]).Shifts ["1"] ["1"] := by decide

/-! ### What is named -/

theorem also_cons_self (token : String) (p : Path) (named : Path → Bool) :
    (fun path => also (token :: p) named (token :: path)) =
      also p fun path => named (token :: path) := by
  funext path
  simp [also]

theorem also_cons_of_ne {token other : String} (hne : other ≠ token) (p q : Path)
    (named : Path → Bool) : also (token :: p) named (other :: q) = named (other :: q) := by
  simp [also, hne]

/-- Two children under one token are taken out both, or the same is left of them. -/
structure LeftAlike (named named' : Path → Bool) (token : String) (c c' : Value) : Prop where
  out : named' [token] = named [token]
  left : pruned (fun path => named' (token :: path)) c' =
    pruned (fun path => named (token :: path)) c

theorem LeftAlike.refl {c : Value} (h : ∀ path, named' (token :: path) = named (token :: path)) :
    LeftAlike named named' token c c :=
  ⟨h [], by rw [show (fun path => named' (token :: path)) = _ from funext h]⟩

theorem prunedFields_eq {fields fields' : Fields}
    (hkeys : Entries.keys fields' = Entries.keys fields)
    (h : ∀ key c c', (key, c) ∈ fields → (key, c') ∈ fields' → LeftAlike named named' key c c') :
    prunedFields named' fields' = prunedFields named fields := by
  induction fields generalizing fields' with
  | nil =>
      obtain rfl := List.map_eq_nil_iff.mp hkeys
      rfl
  | cons e es ih =>
      cases fields' with
      | nil => exact absurd hkeys (by simp [Entries.keys])
      | cons e' es' =>
          obtain ⟨key, c⟩ := e
          obtain ⟨key', c'⟩ := e'
          rw [Entries.keys, Entries.keys, List.map_cons, List.map_cons, List.cons.injEq] at hkeys
          obtain ⟨rfl, hkeys⟩ := hkeys
          have halike := h _ c c' List.mem_cons_self List.mem_cons_self
          rw [prunedFields, prunedFields, halike.out, halike.left, ih hkeys fun key c c' hc hc' =>
            h key c c' (List.mem_cons_of_mem _ hc) (List.mem_cons_of_mem _ hc')]

theorem prunedItems_eq {items items' : List Value} {i : Nat}
    (hlength : items'.length = items.length)
    (hfar : ∀ j, token? (i + j) = none → items'[j]? = items[j]?)
    (h : ∀ j token c c', token? (i + j) = some token → items[j]? = some c → items'[j]? = some c' →
      LeftAlike named named' token c c') :
    prunedItems named' i items' = prunedItems named i items := by
  induction items generalizing items' i with
  | nil =>
      obtain rfl := List.length_eq_zero_iff.mp hlength
      rfl
  | cons c cs ih =>
      cases items' with
      | nil => exact absurd hlength (by simp)
      | cons c' cs' =>
          rw [prunedItems, prunedItems]
          cases htoken : token? i with
          | none =>
              refine List.ext_getElem? fun j => hfar j ?_
              rw [token?_eq_none_iff] at htoken ⊢
              omega
          | some token =>
              have halike := h 0 token c c' htoken rfl rfl
              have hcs : prunedItems named' (i + 1) cs' = prunedItems named (i + 1) cs := by
                refine ih (Nat.succ.inj hlength) (fun j hj => ?_) fun j token c c' hj hc hc' => ?_
                · exact hfar (j + 1) (by rwa [Nat.add_comm j 1, ← Nat.add_assoc])
                · exact h (j + 1) token c c' (by rwa [Nat.add_comm j 1, ← Nat.add_assoc]) hc hc'
              dsimp only
              rw [halike.out, halike.left, hcs]

/-- Of nodes with one head the same is left, if it is of their children. -/
theorem pruned_eq_of_head_eq (hv : v.WellFormed) (hv' : v'.WellFormed) (hhead : v'.head = v.head)
    (h : ∀ token c c', v.child? token = some c → v'.child? token = some c' →
      LeftAlike named named' token c c') : pruned named' v' = pruned named v := by
  cases v with
  | map fields =>
      obtain ⟨fields', rfl, hkeys⟩ := map_of_head_eq hhead
      rw [pruned, pruned, prunedFields_eq hkeys fun key c c' hc hc' =>
        h key c c' (child?_of_mem_entries hv hc) (child?_of_mem_entries hv' hc')]
  | list items =>
      obtain ⟨items', rfl, hlength, hdrop⟩ := list_of_head_eq hhead
      rw [pruned, pruned, prunedItems_eq hlength]
      · intro j hj
        rw [Nat.zero_add, token?_eq_none_iff] at hj
        obtain ⟨k, rfl⟩ := Nat.exists_eq_add_of_le hj
        rw [← List.getElem?_drop, ← List.getElem?_drop, hdrop]
      · intro j token c c' hj hc hc'
        rw [Nat.zero_add, token?_eq_some_iff] at hj
        exact h token c c' (by rw [child?, hj]; exact hc) (by rw [child?, hj]; exact hc')
  | _ =>
      rw [eq_of_head_eq_of_scalar hhead rfl]
      rfl

/-- Only what is named among the nodes there are makes a difference. -/
theorem pruned_congr (hv : v.WellFormed)
    (h : ∀ q, q ≠ [] → (v.node? q).isSome = true → named' q = named q) :
    pruned named' v = pruned named v := by
  induction v using entries_induction generalizing named named' with
  | node v ih =>
      refine pruned_eq_of_head_eq hv hv rfl fun token c c' hc hc' => ?_
      obtain rfl := Option.some.inj (hc.symm.trans hc')
      refine ⟨h [token] (List.cons_ne_nil _ _) (by simp [node?_cons, hc]), ?_⟩
      refine ih (token, c) (mem_entries_of_child? hc) (hv.of_child? hc) fun q _ hq => ?_
      exact h (token :: q) (List.cons_ne_nil _ _) (by rw [node?_cons, hc]; exact hq)

theorem pruned_nothing (v : Value) : pruned (fun _ => false) v = v := by
  have hitems : ∀ items : List Value, (∀ v ∈ items, pruned (fun _ => false) v = v) → ∀ i,
      prunedItems (fun _ => false) i items = items := by
    intro items
    induction items with
    | nil => exact fun _ _ => rfl
    | cons v vs ih =>
        intro h i
        obtain ⟨hv, hvs⟩ := List.forall_mem_cons.mp h
        rw [prunedItems, hv, ih hvs]
        cases token? i <;> rfl
  have hfields : ∀ fields : Fields, (∀ e ∈ fields, pruned (fun _ => false) e.2 = e.2) →
      prunedFields (fun _ => false) fields = fields := by
    intro fields
    induction fields with
    | nil => exact fun _ => rfl
    | cons e es ih =>
        intro h
        obtain ⟨he, hes⟩ := List.forall_mem_cons.mp h
        rw [prunedFields, he, ih hes]
        rfl
  induction v using Value.induction with
  | list items ih => rw [pruned, hitems items ih]
  | map fields ih => rw [pruned, hfields fields ih]
  | _ => rfl

/-! ### Taking one node out -/

/-- Where nothing is named nothing is taken out. -/
theorem prunedItems_eq_self {items : List Value} {i : Nat}
    (h : ∀ j token, j < items.length → token? (i + j) = some token →
      ∀ path, named (token :: path) = false) : prunedItems named i items = items := by
  induction items generalizing i with
  | nil => rfl
  | cons c cs ih =>
      rw [prunedItems]
      cases htoken : token? i with
      | none => rfl
      | some token =>
          have hnone := h 0 token (by simp) htoken
          have hpruned : pruned (fun path => named (token :: path)) c = c := by
            rw [show (fun path => named (token :: path)) = fun _ => false from funext hnone,
              pruned_nothing]
          have hcs := ih (i := i + 1) fun j token hj htoken =>
            h (j + 1) token (by simpa using hj) (by rwa [Nat.add_comm j 1, ← Nat.add_assoc])
          dsimp only
          rw [hnone [], hpruned, hcs]
          rfl

/-- Taking an element out of a list is naming it as well, if no element from there on is named, or
if there is none behind it. -/
theorem prunedItems_eraseIdx {items : List Value} {i k : Nat} (hlt : k < items.length)
    (htoken : token? (i + k) = some token)
    (hfree : k + 1 < items.length → ∀ j other, k ≤ j → j < items.length →
      token? (i + j) = some other → ∀ path, named (other :: path) = false) :
    prunedItems named i (items.eraseIdx k) = prunedItems (also [token] named) i items := by
  induction items generalizing i k with
  | nil => exact absurd hlt (Nat.not_lt_zero k)
  | cons c cs ih =>
      cases k with
      | zero =>
          -- What comes behind stays as it is on both sides, though in another place.
          have hbefore : prunedItems named i cs = cs := prunedItems_eq_self fun j other hj hother =>
            hfree (by simp; omega) j other (Nat.zero_le j) (by simp; omega) hother
          have hbehind : prunedItems (also [token] named) (i + 1) cs = cs := by
            refine prunedItems_eq_self fun j other hj hother path => ?_
            have hne : other ≠ token := by
              rintro rfl
              have := token?_inj hother htoken
              omega
            rw [also_cons_of_ne hne]
            exact hfree (by simp; omega) (j + 1) other (Nat.zero_le _) (by simpa using hj)
              (by rwa [Nat.add_comm j 1, ← Nat.add_assoc]) path
          have hout : also [token] named [token] = true := by simp [also]
          rw [Nat.add_zero] at htoken
          simp only [List.eraseIdx_cons_zero, prunedItems, htoken, hout, if_true, hbefore, hbehind]
      | succ k =>
          rw [List.eraseIdx_cons_succ, prunedItems, prunedItems]
          cases hfirst : token? i with
          | none =>
              rw [token?_eq_none_iff] at hfirst
              have := (index?_eq_some_iff.mp (token?_eq_some_iff.mp htoken)).2
              omega
          | some first =>
              have hne : first ≠ token := by
                rintro rfl
                have := token?_inj hfirst htoken
                omega
              have hrest := ih (i := i + 1) (Nat.lt_of_succ_lt_succ hlt)
                (by rwa [Nat.add_assoc, Nat.add_comm 1 k]) fun hmore j other hj hj' hother =>
                  hfree (Nat.succ_lt_succ hmore) (j + 1) other (Nat.succ_le_succ hj)
                    (Nat.succ_lt_succ hj') (by rwa [Nat.add_comm j 1, ← Nat.add_assoc])
              simp only [also_cons_of_ne hne, hrest]

theorem prunedFields_erase {fields : Fields} (hdistinct : Entries.Distinct fields)
    (hkey : token ∈ Entries.keys fields) :
    prunedFields named (Entries.erase fields token) =
      prunedFields (also [token] named) fields := by
  induction fields with
  | nil => exact absurd hkey List.not_mem_nil
  | cons e es ih =>
      obtain ⟨key, c⟩ := e
      rw [Entries.erase, prunedFields]
      by_cases heq : key = token
      · subst heq
        have hout : also [key] named [key] = true := by simp [also]
        rw [if_pos rfl, if_pos hout]
        refine prunedFields_eq rfl fun key' c c' hc hc' => ?_
        have hfind := hdistinct.of_cons.find?_of_mem hc
        obtain rfl := Option.some.inj (hfind.symm.trans (hdistinct.of_cons.find?_of_mem hc'))
        have hne : key' ≠ key := by
          rintro rfl
          exact absurd (hdistinct.find?_eq_none_of_cons.symm.trans hfind) (by simp)
        exact .refl fun path => (also_cons_of_ne hne [] path named).symm
      · have hrest := ih hdistinct.of_cons ((List.mem_cons.mp hkey).resolve_left (Ne.symm heq))
        simp only [if_neg heq, prunedFields, also_cons_of_ne heq, hrest]

/-- Taking a child out is naming it as well. -/
theorem pruned_removeChild? (hv : v.WellFormed) (h : removeChild? token v = some rest)
    (hfree : ∀ q, named q = true → ¬ v.Shifts [token] q) :
    pruned named rest = pruned (also [token] named) v := by
  cases v with
  | map fields =>
      obtain ⟨hcontains, hrest⟩ := Option.ite_none_right_eq_some.mp h
      obtain rfl := Option.some.inj hrest
      rw [pruned, pruned, prunedFields_erase (wellFormed_map_iff.mp hv).1]
      exact (Entries.find?_isSome_iff fields token).mp hcontains
  | list items =>
      simp only [removeChild?] at h
      split at h
      · rename_i i hi
        obtain ⟨hlt, hrest⟩ := Option.ite_none_right_eq_some.mp h
        obtain rfl := Option.some.inj hrest
        have htoken : token? (0 + i) = some token := by
          rw [Nat.zero_add]
          exact token?_eq_some_iff.mpr hi
        rw [pruned, pruned, prunedItems_eraseIdx hlt htoken]
        intro hmore j other hj hj' hother path
        rw [Nat.zero_add, token?_eq_some_iff] at hother
        refine Bool.eq_false_iff.mpr fun hnamed => hfree _ hnamed ?_
        exact ⟨[], path, token, other, items, i, j, rfl, rfl, rfl, hi, hother, hj, hj', hmore⟩
      · exact absurd h (by simp)
  | _ => exact absurd h (by simp [removeChild?])

theorem Shifts.cons {c : Value} (hc : v.child? token = some c) (h : c.Shifts p q) :
    v.Shifts (token :: p) (token :: q) := by
  obtain ⟨base, rest, a, b, items, i, j, rfl, rfl, hitems, hrest⟩ := h
  refine ⟨token :: base, rest, a, b, items, i, j, rfl, rfl, ?_, hrest⟩
  rw [node?_cons, hc]
  exact hitems

/-- **Taking a node out is naming it as well, if it shifts nothing that is named.** -/
theorem pruned_put_parent {parent : Value} (hv : v.WellFormed)
    (hparent : v.node? base = some parent) (hrest : removeChild? last parent = some rest)
    (hfree : ∀ q, named q = true → ¬ v.Shifts (base.child last) q) :
    pruned named (v.put base rest) = pruned (also (base.child last) named) v := by
  induction base generalizing v named with
  | nil =>
      rw [node?_nil] at hparent
      obtain rfl := Option.some.inj hparent
      rw [put_nil]
      exact pruned_removeChild? hv hrest hfree
  | cons token base ih =>
      have hwell : rest.WellFormed := (hv.of_node? hparent).removeChild? hrest
      rw [node?_cons] at hparent
      obtain ⟨c, hc, hparent⟩ := Option.bind_eq_some_iff.mp hparent
      have hbelow : pruned (fun path => named (token :: path)) (c.put base rest) =
          pruned (also (Path.child base last) fun path => named (token :: path)) c :=
        ih (hv.of_child? hc) hparent fun q hq hshifts => hfree (token :: q) hq (hshifts.cons hc)
      refine pruned_eq_of_head_eq hv (hv.put hwell _)
        (head_put v (List.cons_ne_nil token base) rest) fun other d d' hd hd' => ?_
      rw [put_cons_of_child? hc] at hd'
      by_cases hother : other = token
      · subst hother
        obtain rfl := Option.some.inj (hc.symm.trans hd)
        rw [child?_setChild_self hc] at hd'
        obtain rfl := Option.some.inj hd'
        refine ⟨?_, ?_⟩
        · simp [also, Path.child]
        · rw [hbelow]
          exact congrArg (pruned · _) (also_cons_self other (Path.child base last) named).symm
      · rw [child?_setChild_of_ne v (Ne.symm hother)] at hd'
        obtain rfl := Option.some.inj (hd.symm.trans hd')
        exact .refl fun path => (also_cons_of_ne hother (Path.child base last) path named).symm

end Value

end Docweave
