import Docweave.Proofs.WellFormed

/-!
Every node has exactly one address.

A position is the list of steps from the root to a node, each of them an entry of a map or an
element of a list; `Value.At` says what stands there without any token.  A pointer is a list of
tokens, and `Value.Leads` says by which steps a walk takes them: in a map a token is the key, in a
list the index that it writes.

What makes addresses unique is that a step determines its token (`Value.Leads.path_eq`).  For a key
that is plain, for an index it is the law that nothing but the decimal text of a number is read as
the number.  So a walk can be told from where it ends, whatever the document looks like, and a map
whose keys look like indices is no exception, because the document says at every node which of the
two a token is.
-/

namespace Docweave

/-- The token that a step is written as: the key, or the index in decimal. -/
def Step.text : Step → String
  | .key name => name
  | .index i => toString i

/-- The steps stay within what a machine word counts, as the places of elements in memory do. -/
def FitsWords (steps : List Step) : Prop :=
  ∀ i, Step.index i ∈ steps → i < 0x10000000000000000

theorem FitsWords.of_cons {step : Step} {steps : List Step} (h : FitsWords (step :: steps)) :
    FitsWords steps :=
  fun i hi => h i (List.mem_cons_of_mem step hi)

namespace Value

/-- What stands at a position of a document. -/
inductive At : Value → List Step → Value → Prop
  | here (v : Value) : At v [] v
  | key {fields : Fields} {key : String} {c v : Value} {steps : List Step}
      (hmem : (key, c) ∈ fields) (h : At c steps v) : At (.map fields) (.key key :: steps) v
  | index {items : List Value} {i : Nat} {c v : Value} {steps : List Step}
      (hc : items[i]? = some c) (h : At c steps v) : At (.list items) (.index i :: steps) v

/-- By which steps a path leads from the root of a document to a node. -/
inductive Leads : Value → Path → List Step → Value → Prop
  | here (v : Value) : Leads v [] [] v
  | key {fields : Fields} {key : String} {c v : Value} {path : Path} {steps : List Step}
      (hc : Entries.find? fields key = some c) (h : Leads c path steps v) :
      Leads (.map fields) (key :: path) (.key key :: steps) v
  | index {items : List Value} {token : String} {i : Nat} {c v : Value} {path : Path}
      {steps : List Step} (hi : index? token = some i) (hc : items[i]? = some c)
      (h : Leads c path steps v) : Leads (.list items) (token :: path) (.index i :: steps) v

namespace Leads

variable {root v w : Value} {path path' : Path} {steps steps' : List Step}

/-- A path leads to a node of the document. -/
theorem stands (h : root.Leads path steps v) : root.At steps v := by
  induction h with
  | here v => exact .here v
  | key hc _ ih => exact .key (Entries.mem_of_find? hc) ih
  | index _ hc _ ih => exact .index hc ih

/-- **The steps that were taken determine the path.** -/
theorem path_eq (h : root.Leads path steps v) : path = steps.map Step.text := by
  induction h with
  | here => rfl
  | key _ _ ih => rw [List.map_cons, ← ih, Step.text]
  | index hi _ _ ih => rw [List.map_cons, ← ih, Step.text, (index?_eq_some_iff.mp hi).1]

/-- A path leads to one position only. -/
theorem unique (h : root.Leads path steps v) (h' : root.Leads path steps' w) : steps = steps' := by
  induction h generalizing steps' with
  | here => cases h'; rfl
  | key hc _ ih =>
      cases h' with
      | key hc' h' =>
          obtain rfl := Option.some.inj (hc.symm.trans hc')
          rw [ih h']
  | index hi hc _ ih =>
      cases h' with
      | index hi' hc' h' =>
          obtain rfl := Option.some.inj (hi.symm.trans hi')
          obtain rfl := Option.some.inj (hc.symm.trans hc')
          rw [ih h']

end Leads

/-- Looking a path up is being led along it. -/
theorem node?_eq_some_iff_leads {root v : Value} {path : Path} :
    root.node? path = some v ↔ ∃ steps, root.Leads path steps v := by
  constructor
  · intro h
    induction path generalizing root with
    | nil =>
        obtain rfl := Option.some.inj h
        exact ⟨[], .here root⟩
    | cons token path ih =>
        rw [node?_cons] at h
        obtain ⟨c, hc, h⟩ := Option.bind_eq_some_iff.mp h
        obtain ⟨steps, hsteps⟩ := ih h
        cases root with
        | map fields => exact ⟨_, .key hc hsteps⟩
        | list items =>
            obtain ⟨i, hi, hc⟩ := Option.bind_eq_some_iff.mp hc
            exact ⟨_, .index hi hc hsteps⟩
        | _ => exact absurd hc (by simp [child?])
  · rintro ⟨steps, h⟩
    induction h with
    | here v => exact node?_nil v
    | key hc _ ih => rw [node?_cons, child?, hc, Option.bind_some, ih]
    | index hi hc _ ih =>
        rw [node?_cons, child?, hi, Option.bind_some, hc, Option.bind_some, ih]

/-- The path that a position spells leads there. -/
theorem At.leads {root v : Value} {steps : List Step} (h : root.At steps v)
    (hroot : root.WellFormed) (hfits : FitsWords steps) :
    root.Leads (steps.map Step.text) steps v := by
  induction h with
  | here v => exact .here v
  | key hmem _ ih =>
      obtain ⟨hdistinct, hfields⟩ := wellFormed_map_iff.mp hroot
      exact .key (hdistinct.find?_of_mem hmem) (ih (hfields _ hmem) hfits.of_cons)
  | @index items i c v steps hc _ ih =>
      have hi : index? (toString i) = some i :=
        index?_eq_some_iff.mpr ⟨rfl, hfits i List.mem_cons_self⟩
      have hwell := wellFormed_list_iff.mp hroot c (List.mem_of_getElem? hc)
      exact .index hi hc (ih hwell hfits.of_cons)

end Value

/-- A pointer leads to a position if its path does; a file directive has none. -/
def Pointer.LeadsTo (root : Value) (p : Pointer) (steps : List Step) (v : Value) : Prop :=
  ∃ path, p.path? = some path ∧ root.Leads path steps v

/-- Pointers that address nodes are the same exactly if they have the same path. -/
theorem Pointer.same_iff_of_path? {p q : Pointer} {path path' : Path} (hp : p.path? = some path)
    (hq : q.path? = some path') : p.same q = true ↔ path = path' := by
  cases p <;> cases q <;> simp_all [Pointer.same, Pointer.asPlain, Pointer.path?]

/-! ### What is no index -/

/-- Only digits are read as an index: no sign, no blank, no digit of another script. -/
theorem index?_eq_none_of_mem {token : String} {c : Char} (hmem : c ∈ token.toList)
    (hc : ¬ ('0' ≤ c ∧ c ≤ '9')) : index? token = none := by
  refine Option.eq_none_iff_forall_ne_some.mpr fun i hi => ?_
  obtain ⟨rfl, -⟩ := index?_eq_some_iff.mp hi
  rw [Nat.toString_eq_repr, Nat.toList_repr] at hmem
  exact hc ((canonical_toDigits i).digits c hmem)

/-- A zero in front of other characters is no index. -/
theorem index?_eq_none_of_leading_zero {cs : List Char} (hcs : cs ≠ []) :
    index? (String.ofList ('0' :: cs)) = none := by
  refine Option.eq_none_iff_forall_ne_some.mpr fun i hi => ?_
  have htext := congrArg String.toList (index?_eq_some_iff.mp hi).1
  rw [String.toList_ofList, Nat.toString_eq_repr, Nat.toList_repr] at htext
  have hcanonical := canonical_toDigits i
  rw [← htext] at hcanonical
  rcases hcanonical.head with hzero | ⟨-, hhead⟩
  · exact hcs (List.cons.inj hzero).2
  · exact hhead rfl

/-- The decimal text of a number beyond a machine word is no index. -/
theorem index?_toString_eq_none {i : Nat} (hi : 0x10000000000000000 ≤ i) :
    index? (toString i) = none := by
  refine Option.eq_none_iff_forall_ne_some.mpr fun j hj => ?_
  obtain ⟨htext, hlt⟩ := index?_eq_some_iff.mp hj
  have := toString_inj htext
  omega

namespace Value

/-- **Every node of a document has exactly one address.**

A pointer finds what stands at the position that it leads to, and two pointers that find something
are the same exactly if they lead to one position.  The other way round, the keys and the decimal
indices on the way to any node make a pointer that leads to it.  In a list the tokens are the
decimal texts of the numbers in a machine word and nothing else: nothing with a sign or any other
character, nothing with a zero in front, nothing too large. -/
theorem addresses_unique {root : Value} (hroot : root.WellFormed) :
    (∀ (p : Pointer) v, root.lookup p = .ok v ↔
      ∃ steps, p.LeadsTo root steps v ∧ root.At steps v) ∧
    (∀ (p q : Pointer) steps steps' v w, p.LeadsTo root steps v → q.LeadsTo root steps' w →
      (p.same q = true ↔ steps = steps')) ∧
    (∀ steps v, root.At steps v → FitsWords steps →
      Pointer.LeadsTo root (.plain (steps.map Step.text)) steps v ∧
        root.lookup (.plain (steps.map Step.text)) = .ok v) ∧
    (∀ token i, index? token = some i ↔ token = toString i ∧ i < 0x10000000000000000) ∧
    (∀ token, (∃ c ∈ token.toList, ¬ ('0' ≤ c ∧ c ≤ '9')) → index? token = none) ∧
    (∀ cs, cs ≠ [] → index? (String.ofList ('0' :: cs)) = none) ∧
    (∀ i, 0x10000000000000000 ≤ i → index? (toString i) = none) := by
  have hlookup : ∀ p v, root.lookup p = .ok v ↔ ∃ steps, p.LeadsTo root steps v := by
    intro p v
    simp only [lookup_eq_ok_iff, node?_eq_some_iff_leads, Pointer.LeadsTo]
    exact ⟨fun ⟨path, hp, steps, h⟩ => ⟨steps, path, hp, h⟩,
      fun ⟨steps, path, hp, h⟩ => ⟨path, hp, steps, h⟩⟩
  refine ⟨fun p v => ?_, ?_, fun steps v hat hfits => ?_, fun token i => index?_eq_some_iff,
    fun token ⟨c, hmem, hc⟩ => index?_eq_none_of_mem hmem hc,
    fun cs hcs => index?_eq_none_of_leading_zero hcs, fun i hi => index?_toString_eq_none hi⟩
  · rw [hlookup]
    exact exists_congr fun steps => (and_iff_left_of_imp fun ⟨_, _, h⟩ => h.stands).symm
  · rintro p q steps steps' v w ⟨path, hp, h⟩ ⟨path', hq, h'⟩
    rw [Pointer.same_iff_of_path? hp hq]
    constructor
    · rintro rfl
      exact h.unique h'
    · rintro rfl
      rw [h.path_eq, h'.path_eq]
  · have hleads : Pointer.LeadsTo root (.plain (steps.map Step.text)) steps v :=
      ⟨_, rfl, hat.leads hroot hfits⟩
    exact ⟨hleads, (hlookup _ v).mpr ⟨steps, hleads⟩⟩

/-- A map with keys that look like indices stands in a list: the first token is an index and the
second a key, and both nodes are found where they are. -/
theorem addresses_unique_numeric_keys :
    let root : Value := .list [.map [("0", .int 1), ("00", .int 2)]]
    root.WellFormed ∧ root.lookup (.reference "0" ["00"]) = .ok (.int 2) ∧
      Pointer.same (.reference "0" ["00"]) (.plain ["0", "00"]) = true ∧
      Pointer.same (.plain ["0", "0"]) (.plain ["0", "00"]) = false := by
  intro root
  have hroot : root.WellFormed := by
    simp [root, Value.int, wellFormed_map_iff, Entries.Distinct, Entries.keys]
  obtain ⟨hfound, hsame, hspelled, -⟩ := addresses_unique hroot
  have hzeros : root.At [.index 0, .key "00"] (.int 2) :=
    .index rfl (.key (by simp) (.here _))
  have hzero : root.At [.index 0, .key "0"] (.int 1) :=
    .index rfl (.key (by simp) (.here _))
  have hfits : ∀ key, FitsWords [.index 0, .key key] := by
    intro key i hi
    simp at hi
    omega
  obtain ⟨hleads, -⟩ := hspelled _ _ hzeros (hfits _)
  obtain ⟨hleads', -⟩ := hspelled _ _ hzero (hfits _)
  have hreference : Pointer.LeadsTo root (.reference "0" ["00"]) [.index 0, .key "00"] (.int 2) :=
    ⟨_, rfl, hzeros.leads hroot (hfits _)⟩
  refine ⟨hroot, (hfound _ _).mpr ⟨_, hreference, hzeros⟩,
    (hsame _ _ _ _ _ _ hreference hleads).mpr rfl, ?_⟩
  exact Bool.eq_false_iff.mpr fun h => absurd ((hsame _ _ _ _ _ _ hleads' hleads).mp h) (by decide)

end Value

end Docweave
