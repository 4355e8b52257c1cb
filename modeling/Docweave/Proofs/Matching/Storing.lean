import Docweave.Directive.Made
import Docweave.Proofs.Matching.Building
import Mathlib

/-!
What a stored matcher is rebuilt as.

A directive for a matcher stands in the document as its descriptor.  That is one map for two kinds
of arguments: the arguments by position go under a key of their own, which is left out if there are
none, and the keywords stand beside it.  Reading takes them apart again by their keys, so the
descriptor comes back as long as none of its keywords has a key that descriptors use themselves
(`Descriptor.ofValue?_toValue`).  A matcher that is always there takes no such keyword, because
binding turns away everything but the names of its parameters.

What a descriptor is built to does not depend on the moment, except that the limits of a range of
dates have to be in order when it is built (`construct_lasts`).
-/

namespace Docweave

/-- All checks go well exactly if each does. -/
theorem Except.forM_eq_ok_iff {ε α : Type} {check : α → Except ε Unit} {xs : List α} :
    xs.forM check = .ok () ↔ ∀ x ∈ xs, check x = .ok () := by
  induction xs with
  | nil => exact ⟨fun _ x hx => absurd hx List.not_mem_nil, fun _ => rfl⟩
  | cons x xs ih =>
      rw [List.forM_eq_forM] at ih ⊢
      rw [List.forM_cons, List.forall_mem_cons, Except.bind_eq_ok_iff, ← ih]
      exact ⟨fun ⟨_, hx, hxs⟩ => ⟨hx, hxs⟩, fun ⟨hx, hxs⟩ => ⟨(), hx, hxs⟩⟩

/-! ### Writing a descriptor and reading it -/

namespace Entries

variable {α : Type}

theorem insert_of_not_mem {es : Entries α} {key : String} (value : α) (h : key ∉ keys es) :
    insert es key value = es ++ [(key, value)] := by
  induction es with
  | nil => rfl
  | cons e es ih =>
      obtain ⟨hne, hrest⟩ := List.ne_and_not_mem_of_not_mem_cons h
      rw [insert, if_neg (Ne.symm hne), ih hrest, List.cons_append]

/-- Entries with distinct keys are the map that they are written to. -/
theorem ofPairs_of_distinct {pairs : List (String × α)} (h : Distinct pairs) :
    ofPairs pairs = pairs := by
  induction pairs using List.reverseRecOn with
  | nil => rfl
  | append_singleton front e ih =>
      unfold Distinct keys at h
      rw [List.map_append, List.nodup_append] at h
      obtain ⟨hfront, -, hne⟩ := h
      have hnew : e.1 ∉ keys front := fun hmem =>
        hne e.1 hmem e.1 (List.mem_map_of_mem List.mem_cons_self) rfl
      have hlast : ofPairs (front ++ [e]) = insert (ofPairs front) e.1 e.2 := by
        unfold ofPairs
        rw [List.foldl_append, List.foldl_cons, List.foldl_nil]
      rw [hlast, ih hfront, insert_of_not_mem e.2 hnew]

end Entries

namespace Descriptor

variable {d : Descriptor}

/-- The entry of the arguments by position, left out if there are none. -/
def positionalEntry (d : Descriptor) : Fields :=
  if d.args.positional.isEmpty then [] else [(argsKey, .list d.args.positional)]

/-- The entries that a descriptor is written to. -/
def entries (d : Descriptor) : Fields :=
  ((nameKey, .text d.name) :: d.positionalEntry) ++ d.args.keywords

theorem distinct_entries (hdistinct : Entries.Distinct d.args.keywords)
    (hname : nameKey ∉ Entries.keys d.args.keywords)
    (hargs : argsKey ∉ Entries.keys d.args.keywords) : Entries.Distinct d.entries := by
  have hother : nameKey ≠ argsKey := by decide
  unfold entries positionalEntry
  split
  · exact List.nodup_cons.mpr ⟨hname, hdistinct⟩
  · refine List.nodup_cons.mpr ⟨?_, List.nodup_cons.mpr ⟨hargs, hdistinct⟩⟩
    exact fun hmem => (List.mem_cons.mp hmem).elim hother hname

theorem isKeyword_of_mem {key : String} (hkey : key ∉ Entries.keys d.args.keywords)
    {e : String × Value} (he : e ∈ d.args.keywords) : e.1 ≠ key :=
  fun h => hkey (h ▸ List.mem_map_of_mem he)

theorem forM_checkEntry_entries (hname : nameKey ∉ Entries.keys d.args.keywords)
    (hargs : argsKey ∉ Entries.keys d.args.keywords) : d.entries.forM checkEntry = .ok () := by
  refine Except.forM_eq_ok_iff.mpr fun e he => ?_
  rcases List.mem_append.mp he with he | he
  · rcases List.mem_cons.mp he with rfl | he
    · rfl
    · unfold positionalEntry at he
      split at he
      · exact absurd he List.not_mem_nil
      · rw [List.mem_singleton.mp he]
        rfl
  · rw [checkEntry, if_neg (isKeyword_of_mem hname he), if_neg (isKeyword_of_mem hargs he)]

theorem positionalOf_entries (hargs : argsKey ∉ Entries.keys d.args.keywords) :
    positionalOf d.entries = d.args.positional := by
  have hother : nameKey ≠ argsKey := by decide
  unfold positionalOf entries positionalEntry
  rw [List.cons_append, Entries.find?_cons, if_neg hother]
  cases d.args.positional with
  | nil =>
      show ((Entries.find? d.args.keywords argsKey).bind Value.items?).getD [] = []
      rw [(Entries.find?_eq_none_iff _ _).mpr hargs]
      rfl
  | cons v vs => rfl

theorem filter_isKeyword_entries (hname : nameKey ∉ Entries.keys d.args.keywords)
    (hargs : argsKey ∉ Entries.keys d.args.keywords) :
    d.entries.filter isKeyword = d.args.keywords := by
  have hown : ((nameKey, .text d.name) :: d.positionalEntry).filter isKeyword = [] := by
    unfold positionalEntry
    split <;> rfl
  have hkeywords : d.args.keywords.filter isKeyword = d.args.keywords := by
    refine List.filter_eq_self.mpr fun e he => ?_
    simp [isKeyword, isKeyword_of_mem hname he, isKeyword_of_mem hargs he]
  rw [entries, List.filter_append, hown, hkeywords, List.nil_append]

/-- A descriptor that is written and read is the same descriptor, whatever its name and its
arguments by position, if no keyword has a key that descriptors use themselves. -/
theorem ofValue?_toValue (hdistinct : Entries.Distinct d.args.keywords)
    (hname : nameKey ∉ Entries.keys d.args.keywords)
    (hargs : argsKey ∉ Entries.keys d.args.keywords) : ofValue? d.toValue = .ok (some d) := by
  have hwritten : d.toValue = .map d.entries :=
    congrArg Value.map (Entries.ofPairs_of_distinct (distinct_entries hdistinct hname hargs))
  have hfind : Entries.find? d.entries nameKey = some (.text d.name) := by
    rw [entries, List.cons_append, Entries.find?_cons, if_pos rfl]
  rw [hwritten, ofValue?, hfind]
  simp only [forM_checkEntry_entries hname hargs, positionalOf_entries hargs,
    filter_isKeyword_entries hname hargs]
  rfl

end Descriptor

/-! ### Keywords that are taken -/

/-- A keyword that fits is the name of a parameter. -/
theorem Params.mem_names_of_bind {names : List String} {args : Arguments} {p : Params}
    (h : bind names args = .ok p) {key : String} (hkey : key ∈ Entries.keys args.keywords) :
    key ∈ names := by
  unfold bind at h
  dsimp only at h
  split at h
  · exact absurd h (by simp)
  split at h
  · exact absurd h (by simp)
  · rename_i hchecked
    have hcheck := Except.forM_eq_ok_iff.mp hchecked key hkey
    unfold checkKeyword at hcheck
    split at hcheck
    · exact absurd hcheck (by simp)
    · rename_i i hi
      exact List.isSome_idxOf?.mp (by rw [hi]; rfl)

theorem Matcher.Builtin.own_keys_not_mem_params (b : Builtin) :
    Descriptor.nameKey ∉ b.params ∧ Descriptor.argsKey ∉ b.params := by
  cases b <;> simp [params, Descriptor.nameKey, Descriptor.argsKey]

/-- A matcher that is always there is built only from keywords that descriptors do not use
themselves. -/
theorem Matchers.own_keys_not_mem_keywords {matchers : Matchers} {now : Moment} {name : String}
    {b : Matcher.Builtin} {args : Arguments} {m : Matcher}
    (hname : matchers.find? name = some (.builtin b))
    (h : matchers.construct now name args = .ok m) :
    Descriptor.nameKey ∉ Entries.keys args.keywords ∧
      Descriptor.argsKey ∉ Entries.keys args.keywords := by
  obtain ⟨draft, hdraft⟩ : ∃ draft, Matcher.Draft.ofArguments now args b = .ok draft := by
    cases constructed_of_construct hname h with
    | ready hdraft => exact ⟨_, hdraft⟩
    | each hdraft => exact ⟨_, hdraft⟩
  obtain ⟨p, hp, -⟩ := Matcher.Draft.ofArguments_eq_ok_iff.mp hdraft
  obtain ⟨hnameKey, hargsKey⟩ := b.own_keys_not_mem_params
  exact ⟨fun hkey => hnameKey (Params.mem_names_of_bind hp hkey),
    fun hkey => hargsKey (Params.mem_names_of_bind hp hkey)⟩

/-! ### Building at another moment -/

/-- Building fails because the limits of a range of dates are in disorder at the moment. -/
def Disordered {α : Type} (x : Except Fault α) : Prop :=
  ∃ first last, x = .error (.call .matcher Matcher.Builtin.dateWithin.name (.dateLimits first last))

/-- What is built by the first is built by the second too, unless dates are in disorder there. -/
def Lasts {α : Type} (x y : Except Fault α) : Prop :=
  ∀ a, x = .ok a → y = .ok a ∨ Disordered y

namespace Lasts

variable {α β : Type} {x y : Except Fault α}

theorem refl (x : Except Fault α) : Lasts x x :=
  fun _ h => .inl h

theorem bind {f g : α → Except Fault β} (h : Lasts x y) (hfg : ∀ a, Lasts (f a) (g a)) :
    Lasts (x >>= f) (y >>= g) := by
  intro b hb
  obtain ⟨a, ha, hb⟩ := Except.bind_eq_ok_iff.mp hb
  rcases h a ha with hy | ⟨first, last, hy⟩
  · rw [hy]
    exact hfg a b hb
  · exact .inr ⟨first, last, by rw [hy]; rfl⟩

theorem map (h : Lasts x y) (f : α → β) : Lasts (x.map f) (y.map f) := by
  intro b hb
  obtain ⟨a, ha, rfl⟩ := Except.map_eq_ok_iff.mp hb
  rcases h a ha with hy | ⟨first, last, hy⟩
  · exact .inl (by rw [hy]; rfl)
  · exact .inr ⟨first, last, by rw [hy]; rfl⟩

end Lasts

namespace Matchers

variable {matchers : Matchers} {now later : Moment}

/-- Only a range of dates looks at the moment when it is drafted. -/
theorem ofArguments_lasts (later : Moment) {args : Arguments} {b : Matcher.Builtin}
    {draft : Matcher.Draft} (h : Matcher.Draft.ofArguments now args b = .ok draft) :
    Matcher.Draft.ofArguments later args b = .ok draft ∨
      b = .dateWithin ∧ ∃ first last,
        Matcher.Draft.ofArguments later args b = .error (.dateLimits first last) := by
  obtain ⟨p, hp, h⟩ := Matcher.Draft.ofArguments_eq_ok_iff.mp h
  have hlater : Matcher.Draft.ofArguments later args b = Matcher.Draft.ofParams later p b := by
    rw [Matcher.Draft.ofArguments, hp]
  rw [hlater]
  cases b with
  | dateWithin =>
      obtain ⟨m, hm, rfl⟩ := Except.map_eq_ok_iff.mp h
      obtain ⟨first, last, -, -, -, -, -, hagain⟩ := Matcher.Draft.dateWithin_eq_ok hm
      unfold Matcher.Draft.ofParams
      rcases hagain later with hsame | hdisorder
      · rw [hsame]
        exact .inl rfl
      · rw [hdisorder]
        exact .inr ⟨rfl, first, last, rfl⟩
  | _ => exact .inl h

theorem finish_lasts {args : Arguments} {b : Matcher.Builtin}
    (helement : ∀ v : Value, v.size ≤ args.size →
      Lasts (matchers.expect now v) (matchers.expect later v)) :
    Lasts (matchers.finish now b (Matcher.Draft.ofArguments now args b))
      (matchers.finish later b (Matcher.Draft.ofArguments later args b)) := by
  cases hdraft : Matcher.Draft.ofArguments now args b with
  | error cause => exact fun m h => absurd h (by simp [finish])
  | ok draft =>
      rcases ofArguments_lasts later hdraft with hsame | ⟨rfl, first, last, hdisorder⟩
      · rw [hsame]
        cases draft with
        | ready m => exact Lasts.refl _
        | each rule element size =>
            have hsize := Matcher.Draft.size_le_of_ofArguments hdraft
            exact (helement element hsize).bind fun w => Lasts.refl _
      · rw [hdisorder]
        exact fun _ _ => .inr ⟨first, last, rfl⟩

theorem expectFields_lasts {fields : Fields}
    (h : ∀ e ∈ fields, Lasts (matchers.expect now e.2) (matchers.expect later e.2)) :
    Lasts (matchers.expectFields now fields) (matchers.expectFields later fields) := by
  induction fields with
  | nil =>
      rw [expectFields, expectFields]
      exact Lasts.refl _
  | cons e es ih =>
      obtain ⟨hv, hes⟩ := List.forall_mem_cons.mp h
      rw [expectFields, expectFields]
      exact hv.bind fun w => (ih hes).bind fun ws => Lasts.refl _

theorem expectItems_lasts {items : List Value}
    (h : ∀ v ∈ items, Lasts (matchers.expect now v) (matchers.expect later v)) :
    Lasts (matchers.expectItems now items) (matchers.expectItems later items) := by
  induction items with
  | nil =>
      rw [expectItems, expectItems]
      exact Lasts.refl _
  | cons v vs ih =>
      obtain ⟨hv, hvs⟩ := List.forall_mem_cons.mp h
      rw [expectItems, expectItems]
      exact hv.bind fun w => (ih hvs).bind fun ws => Lasts.refl _

/-- What is built at a moment is built at any other, and to the same matcher, unless the limits of a
range of dates are in disorder by then. -/
theorem construct_lasts (matchers : Matchers) (now later : Moment) (args : Arguments)
    (name : String) :
    Lasts (matchers.construct now name args) (matchers.construct later name args) := by
  revert name
  refine (building_induction (P := fun args => ∀ name,
    Lasts (matchers.construct now name args) (matchers.construct later name args))
    (Q := fun v => Lasts (matchers.expect now v) (matchers.expect later v))
    ?call ?descriptor ?map ?list ?scalar).1 args
  case call =>
    intro args hvalues name
    cases hname : matchers.find? name with
    | none =>
        rw [construct, hname]
        exact fun m h => absurd h (by simp)
    | some recipe =>
        cases recipe with
        | custom build =>
            rw [construct, construct, hname]
            exact Lasts.refl _
        | builtin b =>
            rw [construct_builtin hname, construct_builtin hname]
            exact finish_lasts hvalues
  case descriptor =>
    intro v hat hcall w hw
    obtain ⟨m, hm, rfl⟩ := (expect_of_isAt hat).mp hw
    obtain ⟨d, hd, hm⟩ := ofDescriptor?_eq_ok_iff.mp hm
    rw [expect_descriptor hd]
    exact (hcall d hd d.name).map Expected.matcher _ (by rw [hm]; rfl)
  case map =>
    intro fields hplain hfields
    rw [expect_plain hplain, expect_plain hplain]
    exact (expectFields_lasts hfields).map _
  case list =>
    intro items hitems
    rw [expect_plain rfl, expect_plain rfl]
    exact (expectItems_lasts hitems).map _
  case scalar =>
    intro v hscalar
    rw [expect_scalar hscalar, expect_scalar hscalar]
    exact Lasts.refl _

/-- A matcher that is always there is built again from its descriptor, at any moment at which its
dates are in order. -/
theorem ofDescriptor?_toValue {name : String} {args : Arguments} {m : Matcher}
    (hdistinct : Entries.Distinct args.keywords)
    (h : standard.construct now name args = .ok m) :
    standard.ofDescriptor? now (Descriptor.toValue ⟨name, args⟩) = .ok (some m) ∧
      ∀ later, Lasts (standard.ofDescriptor? now (Descriptor.toValue ⟨name, args⟩))
        (standard.ofDescriptor? later (Descriptor.toValue ⟨name, args⟩)) := by
  obtain ⟨b, -, hname⟩ := exists_builtin_of_construct h
  obtain ⟨hnameKey, hargsKey⟩ := own_keys_not_mem_keywords hname h
  have hread : Descriptor.ofValue? (Descriptor.toValue ⟨name, args⟩) = .ok (some ⟨name, args⟩) :=
    Descriptor.ofValue?_toValue hdistinct hnameKey hargsKey
  have hrebuilt : ∀ t, standard.ofDescriptor? t (Descriptor.toValue ⟨name, args⟩) =
      (standard.construct t name args).map some := fun t => by rw [ofDescriptor?, hread]
  refine ⟨by rw [hrebuilt, h]; rfl, fun later => ?_⟩
  rw [hrebuilt, hrebuilt]
  exact (construct_lasts standard now later args name).map some

/-- **A stored matcher is rebuilt as the matcher of its directive.**

Take any directive for a matcher that is answered, with the matchers that are always there, and
with its arguments given in any way.  What is stored is a descriptor, and the matcher that is built
from it is the one that the directive calls, with what it accepts and how it describes itself; at
any other moment it is still that one, unless the limits of a range of dates are in disorder by
then.  And any descriptor whose keywords have none of the keys of descriptors is read as it was
written. -/
theorem stored_matcher_rebuilt :
    (∀ (μ : Type) (directive : Fields) (context : Context) (memory memory' : μ)
        (outcome : Outcome), Entries.Distinct directive →
      (Handler.matcher standard).compose directive context memory = (.ok outcome, memory') →
      ∃ call m stored,
        Directive.Call.read directive Directive.matcherMarker ["args"] = .ok call ∧
        standard.construct context.setting.now call.name call.args = .ok m ∧
        outcome = .success stored ∧
        standard.ofDescriptor? context.setting.now stored = .ok (some m) ∧
        ∀ later, standard.ofDescriptor? later stored = .ok (some m) ∨
          Disordered (standard.ofDescriptor? later stored)) ∧
    ∀ d : Descriptor, Entries.Distinct d.args.keywords →
      Descriptor.nameKey ∉ Entries.keys d.args.keywords →
      Descriptor.argsKey ∉ Entries.keys d.args.keywords →
      Descriptor.ofValue? d.toValue = .ok (some d) := by
  refine ⟨fun μ directive context memory memory' outcome hdirective h => ?_, fun d => ?_⟩
  · have hanswer : Directive.composeMatcher standard directive context = .ok outcome :=
      (Prod.mk.inj h).1
    obtain ⟨call, hcall, hanswer⟩ := Except.bind_eq_ok_iff.mp hanswer
    obtain ⟨m, hm, hanswer⟩ := Except.bind_eq_ok_iff.mp hanswer
    have hkeywords : Entries.Distinct call.args.keywords := by
      obtain ⟨name, -, hread⟩ := Except.bind_eq_ok_iff.mp hcall
      obtain ⟨positional, -, hread⟩ := Except.bind_eq_ok_iff.mp hread
      rw [← Except.ok.inj hread]
      exact hdirective.filter _
    obtain ⟨hrebuilt, hlasts⟩ := ofDescriptor?_toValue hkeywords hm
    exact ⟨call, m, _, hcall, hm, (Except.ok.inj hanswer).symm, hrebuilt,
      fun later => hlasts later _ hrebuilt⟩
  · exact Descriptor.ofValue?_toValue

/-- Lists of more than one number above ten: the number is given by a descriptor, with the other
spelling of the option, and the size by keyword. -/
theorem stored_matcher_rebuilt_nested :
    let above : Descriptor := ⟨"AnyNumberGreaterThan", ⟨[.int 10], []⟩⟩
    let directive : Fields := [("!match", .text "AnyListOfMatchersLongerThan"),
      ("!args", .list [above.toValue]), ("size", .int 1)]
    let context : Context := ⟨.wrap .direct (.map directive), [], ["!match"], ⟨.none, ⟨0, 0, 0⟩⟩⟩
    Entries.Distinct directive ∧
      (∃ stored m,
        (Handler.matcher standard).compose directive context () = (.ok (.success stored), ()) ∧
        standard.construct ⟨0, 0, 0⟩ "AnyListOfMatchersLongerThan"
          ⟨[above.toValue], [("size", .int 1)]⟩ = .ok m ∧
        standard.ofDescriptor? ⟨0, 0, 0⟩ stored = .ok (some m)) ∧
      Descriptor.ofValue? above.toValue = .ok (some above) := by
  intro above directive context
  have hdistinct : Entries.Distinct directive := by
    simp [directive, Entries.Distinct, Entries.keys]
  refine ⟨hdistinct, ?_, ?_⟩
  · obtain ⟨outcome, hcompose⟩ : ∃ outcome,
        (Handler.matcher standard).compose directive context () = (.ok outcome, ()) :=
      ⟨.success (.map [("$matcher", .text "AnyListOfMatchersLongerThan"),
        ("$args", .list [.map [("$matcher", .text "AnyNumberGreaterThan"),
          ("$args", .list [.int 10])]]),
        ("size", .int 1)]), by cbv⟩
    obtain ⟨call, m, stored, hcall, hm, rfl, hrebuilt, -⟩ :=
      stored_matcher_rebuilt.1 Unit directive context () () outcome hdistinct hcompose
    obtain rfl : call = ⟨"AnyListOfMatchersLongerThan", ⟨[above.toValue], [("size", .int 1)]⟩⟩ :=
      Except.ok.inj (hcall.symm.trans rfl)
    exact ⟨stored, m, hcompose, hm, hrebuilt⟩
  · exact stored_matcher_rebuilt.2 above (by simp [above, Entries.Distinct, Entries.keys])
      (by simp [above, Entries.keys]) (by simp [above, Entries.keys])

end Matchers

end Docweave
