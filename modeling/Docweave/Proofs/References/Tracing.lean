import Docweave.Proofs.References.Composing

/-!
What following a chain of references comes to, and how soon.

A chain goes from one reference to the next (`Hops`) until it comes to a target that ends it, and
following it comes to what is there: a cycle, a fault of the reference itself, or what the last
target is (`Ends`).  The references that a chain comes by are different nodes of the document, none
of them the one that holds the directive, so there are at most as many as the document has
(`Hops.length_le`), and one round more is enough to follow the chain.

The two directions are the same induction read from both sides: a run that is not given up has come
by such a chain (`exists_hops`), and such a chain is what a run with enough rounds comes by
(`followFrom_of_hops`).
-/

namespace Docweave

namespace Directive

variable {context : Context} {fuel : Nat} {visited passed : List Path} {links : List Link}
  {node path next last : Path} {result : Except Fault Target}

/-- A chain from a target by references that it has not come by, up to another target. -/
inductive Hops (context : Context) : List Path → Path → List Path → Path → Prop
  | here {visited : List Path} {path : Path} : Hops context visited path [] path
  | hop {visited passed : List Path} {path next last : Path}
      (hnew : ¬ ComesBack context visited path)
      (hlink : context.document.content.Links path next)
      (hrest : Hops context (visited ++ [path]) next passed last) :
      Hops context visited path (path :: passed) last

/-- The links from each node of a chain to the next. -/
def linksAlong : List Path → List Link
  | node :: path :: rest =>
    ⟨Pointer.textOfPath node, Pointer.textOfPath path⟩ :: linksAlong (path :: rest)
  | _ => []

/-- What a chain comes to at a target that ends it. -/
inductive Ends (context : Context) (visited : List Path) (links : List Link) (last : Path) :
    Except Fault Target → Prop
  | cycle (hback : ComesBack context visited last) :
      Ends context visited links last
        (.error (.cycle .reference (Pointer.textOfPath last) links))
  /-- A reference that names no target. -/
  | broken {fields : Fields} {fault : Fault} (hnew : ¬ ComesBack context visited last)
      (hn : context.document.content.node? last = some (.map fields))
      (hcontains : Entries.contains fields referenceMarker = true)
      (htarget : target fields referenceMarker = .error fault) :
      Ends context visited links last (.error fault)
  | missing (hnew : ¬ ComesBack context visited last)
      (hnone : context.document.content.node? last = none) :
      Ends context visited links last (.ok .missing)
  /-- A directive of another kind. -/
  | pending {fields : Fields} (hnew : ¬ ComesBack context visited last)
      (hn : context.document.content.node? last = some (.map fields))
      (hdirective : isDirective context.markers (.map fields) = true)
      (hother : Entries.contains fields referenceMarker = false) :
      Ends context visited links last (.ok .pending)
  | found {v : Value} (hnew : ¬ ComesBack context visited last)
      (hn : context.document.content.node? last = some v)
      (hplain : isDirective context.markers v = false)
      (hother : isDirective [referenceMarker] v = false) :
      Ends context visited links last (.ok (.found v))

/-! ### The links of a chain -/

theorem head?_linksAlong (node path : Path) (rest : List Path) :
    (linksAlong (node :: path :: rest)).head?.map Link.node = some (Pointer.textOfPath node) :=
  rfl

theorem getLast?_linksAlong (node : Path) (passed : List Path) (last : Path) :
    (linksAlong (node :: (passed ++ [last]))).getLast?.map Link.target =
      some (Pointer.textOfPath last) := by
  induction passed generalizing node with
  | nil => rfl
  | cons path passed ih =>
      have hne : linksAlong (path :: (passed ++ [last])) ≠ [] := by
        cases passed <;> exact List.cons_ne_nil _ _
      rw [List.cons_append, linksAlong, List.getLast?_cons_of_ne_nil hne]
      exact ih path

/-- Every link begins where the one before it ends. -/
theorem isChain_linksAlong (nodes : List Path) :
    (linksAlong nodes).IsChain fun link after => after.node = link.target := by
  induction nodes with
  | nil => exact .nil
  | cons node nodes ih =>
      cases nodes with
      | nil => exact .nil
      | cons path rest =>
          cases rest with
          | nil => exact .singleton _
          | cons next rest => exact .cons_cons rfl ih

/-! ### How many references there are on the way -/

/-- The references on the way are different nodes that hold references, and new to the chain. -/
theorem Hops.passed_new (h : Hops context visited path passed last) :
    passed.Nodup ∧ visited.Disjoint passed ∧ ∀ p ∈ passed, ∃ fields,
      context.document.content.node? p = some (.map fields) ∧
        Entries.contains fields referenceMarker = true := by
  induction h with
  | here =>
      exact ⟨List.nodup_nil, List.disjoint_nil_right _, fun p hp => absurd hp List.not_mem_nil⟩
  | @hop visited passed path next last hnew hlink hrest ih =>
      obtain ⟨hnodup, hdisjoint, hreferences⟩ := ih
      obtain ⟨hvisited, hpath⟩ := List.disjoint_append_left.mp hdisjoint
      have hfresh : path ∉ passed := List.singleton_disjoint.mp hpath
      have hunseen : path ∉ visited := fun hmem => hnew (.inl hmem)
      refine ⟨List.nodup_cons.mpr ⟨hfresh, hnodup⟩,
        List.disjoint_cons_right.mpr ⟨hunseen, hvisited⟩,
        List.forall_mem_cons.mpr ⟨?_, hreferences⟩⟩
      obtain ⟨fields, hn, htarget⟩ := hlink
      exact ⟨fields, hn, contains_of_target htarget⟩

/-- **A chain comes by no more references than the document has.** -/
theorem Hops.length_le (h : Hops context visited path passed last) :
    passed.length ≤ context.document.content.count (isDirective [referenceMarker]) := by
  obtain ⟨hnodup, -, hreferences⟩ := h.passed_new
  obtain ⟨paths, hlength, hpaths⟩ :=
    context.document.content.exists_nodes_of_kind (isDirective [referenceMarker])
  have hsub : passed ⊆ paths := fun p hp => by
    obtain ⟨fields, hn, hcontains⟩ := hreferences p hp
    exact hpaths p _ hn (isDirective_map_iff.mpr ⟨_, List.mem_singleton_self _, hcontains⟩)
  exact (hnodup.subperm hsub).length_le.trans hlength

/-! ### Following and chains -/

/-- **A run that is not given up has come by a chain to a target that ends it.** -/
theorem exists_hops (hsound : context.document.Sound)
    (h : followFrom context fuel visited links node path = result)
    (hresult : result ≠ .error .exhausted) :
    ∃ passed last, Hops context visited path passed last ∧
      Ends context (visited ++ passed) (links ++ linksAlong (node :: (passed ++ [last]))) last
        result := by
  induction fuel generalizing visited links node path with
  | zero => exact absurd h.symm hresult
  | succ fuel ih =>
      have hhere : ∀ {result}, Ends context visited
          (links ++ [⟨Pointer.textOfPath node, Pointer.textOfPath path⟩]) path result →
          ∃ passed last, Hops context visited path passed last ∧
            Ends context (visited ++ passed) (links ++ linksAlong (node :: (passed ++ [last])))
              last result :=
        fun hends => ⟨[], path, .here, by rwa [List.append_nil]⟩
      cases Followed.of_followFrom hsound h with
      | cycle hback => exact hhere (.cycle hback)
      | missing hnew hnone => exact hhere (.missing hnew hnone)
      | broken hnew hn hcontains htarget => exact hhere (.broken hnew hn hcontains htarget)
      | pending hnew hn hdirective hother => exact hhere (.pending hnew hn hdirective hother)
      | found hnew hn hplain hother => exact hhere (.found hnew hn hplain hother)
      | @link fields next _ hnew hn hcontains htarget hrest =>
          obtain ⟨passed, last, hhops, hends⟩ := ih hrest
          rw [List.append_assoc, List.append_assoc] at hends
          exact ⟨path :: passed, last, .hop hnew ⟨fields, hn, htarget⟩ hhops, hends⟩

/-- What one round comes to at a target that the chain has not come by. -/
theorem followFrom_of_new (hsound : context.document.Sound)
    (hnew : ¬ ComesBack context visited path) :
    followFrom context (fuel + 1) visited links node path =
      match context.document.content.node? path with
      | none => .ok .missing
      | some (.map fields) =>
        if Entries.contains fields referenceMarker then
          match target fields referenceMarker with
          | .error fault => .error fault
          | .ok next => followFrom context fuel (visited ++ [path])
              (links ++ [⟨Pointer.textOfPath node, Pointer.textOfPath path⟩]) path next
        else if isDirective context.markers (.map fields) then .ok .pending
        else .ok (.found (.map fields))
      | some v => .ok (.found v) := by
  have hcycle : ¬ (visited.contains path || context.path.isBelow path) = true := by
    rwa [Bool.or_eq_true, List.contains_iff_mem]
  rw [followFrom, if_neg hcycle]
  cases hn : context.document.content.node? path with
  | none =>
      cases hget : context.document.get (.plain path) with
      | error fault => rfl
      | ok v =>
          have hv := (Store.get_plain_eq_ok_iff hsound).mp hget
          exact absurd (hn.symm.trans hv) (by simp)
  | some v =>
      rw [(Store.get_plain_eq_ok_iff hsound).mpr hn]
      cases v <;> rfl

/-- A target that ends a chain ends it in one round. -/
theorem followFrom_of_ends (hsound : context.document.Sound)
    (h : Ends context visited
      (links ++ [⟨Pointer.textOfPath node, Pointer.textOfPath path⟩]) path result) :
    followFrom context (fuel + 1) visited links node path = result := by
  cases h with
  | cycle hback =>
      have hcycle : (visited.contains path || context.path.isBelow path) = true := by
        rwa [Bool.or_eq_true, List.contains_iff_mem]
      rw [followFrom, if_pos hcycle]
  | missing hnew hnone => rw [followFrom_of_new hsound hnew, hnone]
  | broken hnew hn hcontains htarget =>
      simp only [followFrom_of_new hsound hnew, hn, if_pos hcontains, htarget]
  | pending hnew hn hdirective hother =>
      simp only [followFrom_of_new hsound hnew, hn, hother, Bool.false_eq_true, if_false,
        if_pos hdirective]
  | @found v hnew hn hplain hother =>
      rw [followFrom_of_new hsound hnew, hn]
      cases v with
      | map fields =>
          have hcontains : Entries.contains fields referenceMarker = false := by
            rwa [isDirective, List.any_cons, List.any_nil, Bool.or_false] at hother
          simp only [hcontains, hplain, Bool.false_eq_true, if_false]
      | _ => rfl

/-- **Enough rounds come by a chain to what its last target is.** -/
theorem followFrom_of_hops (hsound : context.document.Sound)
    (hhops : Hops context visited path passed last)
    (hends : Ends context (visited ++ passed) (links ++ linksAlong (node :: (passed ++ [last])))
      last result)
    (hfuel : passed.length < fuel) :
    followFrom context fuel visited links node path = result := by
  induction hhops generalizing fuel links node with
  | here =>
      obtain ⟨fuel, rfl⟩ := Nat.exists_eq_add_one.mpr (Nat.zero_lt_of_lt hfuel)
      rw [List.append_nil] at hends
      exact followFrom_of_ends hsound hends
  | @hop visited passed path next last hnew hlink hrest ih =>
      obtain ⟨fuel, rfl⟩ := Nat.exists_eq_add_one.mpr (Nat.zero_lt_of_lt hfuel)
      obtain ⟨fields, hn, htarget⟩ := hlink
      simp only [followFrom_of_new hsound hnew, hn, if_pos (contains_of_target htarget), htarget]
      refine ih ?_ (Nat.lt_of_succ_lt_succ hfuel)
      rw [List.append_assoc, List.append_assoc]
      exact hends

/-- What is wrong with a reference is never a cycle. -/
theorem target_ne_cycle (directive : Fields) (marker : String) (kind : TargetKind) (text : String)
    (links : List Link) : target directive marker ≠ .error (.cycle kind text links) := by
  unfold target payload Pointer.plainOfText
  split
  · rename_i fault hpayload
    split at hpayload <;> cases hpayload <;> simp
  · split
    · rename_i fault hparse
      split at hparse <;> cases hparse
      simp
    · split <;> simp

/-- **Following a chain ends, by one round more than there are references in the document at most,
and comes to exactly what is at the target that ends the chain.** -/
theorem follow_classified (hsound : context.document.Sound) (start : Path) :
    ∃ passed last, Hops context [context.path] start passed last ∧
      passed.length ≤ context.document.content.count (isDirective [referenceMarker]) ∧
      followFrom context (passed.length + 1) [context.path] [] context.path start =
        follow context start ∧
      (∀ result, follow context start = result ↔
        Ends context (context.path :: passed)
          (linksAlong (context.path :: (passed ++ [last]))) last result) ∧
      ∀ kind text links, follow context start = .error (.cycle kind text links) →
        links.head?.map Link.node = some (Pointer.textOfPath context.path) ∧
        links.IsChain (fun link after => after.node = link.target) ∧
        links.getLast?.map Link.target = some text := by
  obtain ⟨passed, last, hhops, hends⟩ := exists_hops hsound (rfl : follow context start = _)
    (follow_ne_exhausted hsound start)
  have hfollowed : ∀ {fuel result}, Ends context ([context.path] ++ passed)
      ([] ++ linksAlong (context.path :: (passed ++ [last]))) last result → passed.length < fuel →
      followFrom context fuel [context.path] [] context.path start = result :=
    fun hends hfuel => followFrom_of_hops hsound hhops hends hfuel
  have hlength := hhops.length_le
  refine ⟨passed, last, hhops, hlength, hfollowed hends (Nat.lt_succ_self _),
    fun result => ⟨fun h => h ▸ hends, fun h => ?_⟩, fun kind text links h => ?_⟩
  · exact (hfollowed hends (Nat.lt_succ_self _)).symm.trans (hfollowed h (Nat.lt_succ_self _))
  · rw [h] at hends
    cases hends with
    | cycle hback =>
        refine ⟨?_, isChain_linksAlong _, getLast?_linksAlong _ _ _⟩
        cases passed <;> exact head?_linksAlong _ _ _
    | broken hnew hn hcontains htarget => exact absurd htarget (target_ne_cycle _ _ _ _ _)

/-- A reference that leads to two that lead to each other. -/
def circling : Value :=
  .map [("a", .reference "/b"), ("b", .reference "/c"), ("c", .reference "/b")]

/-- What the handler of the first of them sees. -/
def circlingContext : Context :=
  ⟨.wrap .indexed circling, ["a"], Composer.standardMarkers, Composer.bareSetting⟩

/-- The chain comes back to the second reference, and its links begin at the first. -/
theorem follow_circling :
    circlingContext.document.Sound ∧
      ∃ passed last, Hops circlingContext [["a"]] ["b"] passed last ∧ passed.length ≤ 3 ∧
        followFrom circlingContext (passed.length + 1) [["a"]] [] ["a"] ["b"] =
          .error (.cycle .reference "/b" [⟨"/a", "/b"⟩, ⟨"/b", "/c"⟩, ⟨"/c", "/b"⟩]) ∧
        Ends circlingContext (["a"] :: passed) (linksAlong (["a"] :: (passed ++ [last]))) last
          (.error (.cycle .reference "/b" [⟨"/a", "/b"⟩, ⟨"/b", "/c"⟩, ⟨"/c", "/b"⟩])) := by
  have hsound : circlingContext.document.Sound := by
    refine Store.sound_wrap ?_ .indexed
    simp [circling, Value.reference, Value.wellFormed_map_iff, Entries.Distinct, Entries.keys]
  have hfollow : follow circlingContext ["b"] =
      .error (.cycle .reference "/b" [⟨"/a", "/b"⟩, ⟨"/b", "/c"⟩, ⟨"/c", "/b"⟩]) := by
    cbv
  have hcount : circlingContext.document.content.count (isDirective [referenceMarker]) = 3 := rfl
  obtain ⟨passed, last, hhops, hlength, hrounds, hends, -⟩ := follow_classified hsound ["b"]
  exact ⟨hsound, passed, last, hhops, hcount ▸ hlength, hrounds.trans hfollow,
    (hends _).mp hfollow⟩

end Directive

end Docweave
