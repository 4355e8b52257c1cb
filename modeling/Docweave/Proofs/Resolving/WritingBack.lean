import Docweave.Proofs.Resolving.Caching

/-!
Writing children back resolved makes no difference.

A child that has been replaced by what it becomes holds no directive text any more, and everything
inside of it is what the node that was there becomes.  So a target in it becomes what it became
before, whichever targets are in progress by then (`Sources.Settles`), and values are resolved to
what they were resolved to (`WrittenBack.settles`).

The resolver itself relies on that when it resolves a document child by child: each child is
resolved against a document in which the ones before it have been written back.  By induction on the
children that are left, what it leaves at each child is what the child becomes in the document there
was at the beginning (`exists_resolveChildren`).  The faults are not carried over: a value that
cannot be resolved stays so, but a fault may name other nodes on the way.
-/

namespace Docweave

namespace Resolver

variable {s : Sources} {store store' : Store} {files : Files} {base? : Option String} {r : Resolver}
  {v w : Value} {context : String}

/-- Between calls a resolver comes to a value exactly if this is what it becomes. -/
theorem resolve_eq_ok_iff (hsound : store.Sound) (hdocument : store.content = s.document)
    (hr : Keeps s [] r) : (resolve s.files store v context r).1 = .ok w ↔ s.Resolves v w := by
  have hreply := (named_value_answers hsound hdocument v context r hr).reply
  generalize (resolve s.files store v context r).1 = result at hreply
  cases hreply with
  | ok hw' => exact ⟨fun h => Except.ok.inj h ▸ hw', fun hw => congrArg Except.ok (hw'.unique hw)⟩
  | fault hnot => exact ⟨fun h => absurd h (by simp), fun hw => absurd hw.resolvable hnot⟩

/-- What a fresh resolver without caching is about to look at. -/
abbrev sources (files : Files) (base? : Option String) (store : Store) : Sources :=
  ⟨store.content, files, ⟨base?⟩⟩

theorem resolve_new_eq_ok_iff (hsound : store.Sound) :
    (resolve files store v context (new false base?)).1 = .ok w ↔
      (sources files base? store).Resolves v w :=
  resolve_eq_ok_iff (s := sources files base? store) hsound rfl (keeps_new _ false base? rfl)

/-- The document after some of its children have been replaced, each by what it is resolved to in
the document before. -/
structure WrittenBack (files : Files) (base? : Option String) (store store' : Store) : Prop where
  head : store'.content.head = store.content.head
  child : ∀ token old, store.content.child? token = some old →
    store'.content.child? token = some old ∨
      ∃ context resolved, (resolve files store old context (new false base?)).1 = .ok resolved ∧
        store'.content.child? token = some resolved

theorem WrittenBack.settles (h : WrittenBack files base? store store') (hsound : store.Sound) :
    (sources files base? store).Settles (sources files base? store') where
  files := rfl
  reader := rfl
  child token old hold := by
    rcases h.child token old hold with hkept | ⟨context, resolved, hresolve, hchild⟩
    · exact ⟨old, hkept, .inl rfl⟩
    · exact ⟨resolved, hchild, .inr ((resolve_new_eq_ok_iff hsound).mp hresolve)⟩

/-- A child that becomes something is resolved and written back before the next. -/
theorem exists_written {first : String} {old new : Value} (hsound : store.Sound)
    (hdocument : store.content = s.document) (hr : Keeps s [] r)
    (hold : s.document.child? first = some old) (hnew : s.Resolves old new) :
    ∃ written r', written.Sound ∧ written.content = (s.after first new).document ∧
      Keeps (s.after first new) [] r' ∧ ∀ paths,
        resolveChildren s.files ([first] :: paths) store r =
          resolveChildren s.files paths written r' := by
  have hn : s.document.node? [first] = some old := by simpa [Value.node?_cons] using hold
  have hwell : s.document.WellFormed := hdocument ▸ hsound.wellFormed
  have hnewWell : new.WellFormed := hnew.wellFormed hwell (hwell.of_node? hn)
  have hget : store.get (.plain [first]) = .ok old :=
    (Store.get_plain_eq_ok_iff hsound).mpr (hdocument ▸ hn)
  have hresult : (resolve s.files store old first r).1 = .ok new :=
    (resolve_eq_ok_iff hsound hdocument hr).mpr hnew
  have hkeeps := (named_value_answers hsound hdocument old first r hr).keeps
  obtain ⟨written, hupdate, hwritten⟩ := Store.exists_update_plain hsound
    (List.cons_ne_nil first []) (hdocument ▸ hn) hnewWell
  rcases hresolve : resolve s.files store old first r with ⟨result, r'⟩
  rw [hresolve] at hresult hkeeps
  obtain rfl : result = .ok new := hresult
  refine ⟨written, r', hsound.update hnewWell hupdate,
    hwritten.trans (congrArg (·.put [first] new) hdocument), hkeeps.after hn hnew, fun paths => ?_⟩
  have hlast : [first].getLast?.getD "" = first := rfl
  rw [resolveChildren]
  simp only [hget, hlast, hresolve, hupdate]

/-- Children that become something are resolved and written back to the last, and then hold what
they became at the beginning.  What is resolved already counts as written back. -/
theorem exists_resolveChildren (tokens : List String) (hsound : store.Sound)
    (hdocument : store.content = s.document) (hr : Keeps s [] r)
    (h : ∀ token ∈ tokens, ∃ old w, s.document.child? token = some old ∧ s.Resolves old w) :
    ∃ store' r', resolveChildren s.files (tokens.map fun token => [token]) store r =
        (.ok (), store', r') ∧
      store'.content.head = s.document.head ∧
      ∀ token old w, s.document.child? token = some old → s.Resolves old w →
        token ∈ tokens ∨ old = w → store'.content.child? token = some w := by
  induction tokens generalizing s store r with
  | nil =>
      refine ⟨store, r, rfl, congrArg Value.head hdocument, fun token old w hold _ hdone => ?_⟩
      obtain rfl := hdone.resolve_left List.not_mem_nil
      rw [hdocument]
      exact hold
  | cons first tokens ih =>
      obtain ⟨⟨old, new, hold, hnew⟩, hrest⟩ := List.forall_mem_cons.mp h
      obtain ⟨written, r'', hsound', hwritten, hkeeps, hfirst⟩ :=
        exists_written hsound hdocument hr hold hnew
      -- the child is resolved now, and the other ones still become what they did
      have hsettles := Sources.settles_after hold hnew
      have hself : (s.after first new).document.child? first = some new :=
        Sources.child?_after_self hold
      have hsettled : (s.after first new).Resolves new new :=
        Sources.resolves_self hnew.directiveTexts_eq_nil
      obtain ⟨store', r', hrun, hhead, hdone⟩ := ih (s := s.after first new) hsound' hwritten hkeeps
        fun token hmem => by
          by_cases heq : token = first
          · exact ⟨new, new, heq ▸ hself, hsettled⟩
          · obtain ⟨old', w, hold', hw⟩ := hrest token hmem
            exact ⟨old', w, (Sources.child?_after_of_ne hold heq).trans hold', hsettles.resolves hw⟩
      refine ⟨store', r', (hfirst _).trans hrun, hhead.trans (Sources.head_after hold), ?_⟩
      intro token old' w hold' hw hmem
      by_cases heq : token = first
      · subst heq
        obtain rfl := Option.some.inj (hold.symm.trans hold')
        obtain rfl := hnew.unique hw
        exact hdone token new new hself hsettled (.inr rfl)
      · refine hdone token old' w ((Sources.child?_after_of_ne hold heq).trans hold')
          (hsettles.resolves hw) ?_
        exact hmem.imp_left fun hmem => (List.mem_cons.mp hmem).resolve_left heq

/-- **Writing back resolved children makes no difference.**  Values that are resolved against a
document are resolved to the same against the document with some of its children written back.  If
every child of a document can be resolved, then the document can, and each child is left as what it
is resolved to against the document there was at the beginning. -/
theorem writtenBack_transparent (hsound : store.Sound) (files : Files) (base? : Option String) :
    (∀ store', store'.Sound → WrittenBack files base? store store' → ∀ v w context context',
      (resolve files store v context (new false base?)).1 = .ok w →
      (resolve files store' v context' (new false base?)).1 = .ok w) ∧
    ((∀ token, [token] ∈ childPaths store.content → ∃ old w,
        store.content.child? token = some old ∧
          (resolve files store old token (new false base?)).1 = .ok w) →
      ∃ store' r', resolveAll files store (new false base?) = (.ok (), store', r') ∧
        store'.content.head = store.content.head ∧
        ∀ token old w context, store.content.child? token = some old →
          (resolve files store old context (new false base?)).1 = .ok w →
          store'.content.child? token = some w) := by
  constructor
  · intro store' hsound' hback v w context context' hv
    rw [resolve_new_eq_ok_iff hsound] at hv
    exact (resolve_new_eq_ok_iff hsound').mpr ((hback.settles hsound).resolves hv)
  · intro hchildren
    let s := sources files base? store
    obtain ⟨tokens, htokens⟩ := childPaths_eq store.content
    have hmem : ∀ token, token ∈ tokens ↔ [token] ∈ childPaths store.content := by
      intro token
      rw [htokens]
      simp
    obtain ⟨store', r', hrun, hhead, hdone⟩ := exists_resolveChildren (s := s) tokens hsound rfl
      (keeps_new s false base? rfl) fun token htoken => by
        obtain ⟨old, w, hold, hw⟩ := hchildren token ((hmem token).mp htoken)
        exact ⟨old, w, hold, (resolve_new_eq_ok_iff hsound).mp hw⟩
    rw [← htokens] at hrun
    refine ⟨store', r', hrun, hhead, fun token old w context hold hw => ?_⟩
    exact hdone token old w hold ((resolve_new_eq_ok_iff hsound).mp hw)
      (.inl ((hmem token).mpr (mem_childPaths hold)))

/-- A document in which one child refers to the middle of another, which refers to a third. -/
def middle : Value :=
  .map [("a", .text "!ref /b/y"), ("b", .map [("y", .text "!ref /c/0")]), ("c", .list [.null])]

/-- The same with the child in the middle written back. -/
def middleBack : Value :=
  .map [("a", .text "!ref /b/y"), ("b", .map [("y", .null)]), ("c", .list [.null])]

/-- The reference into it comes to the same, and so does the document. -/
theorem writtenBack_middle :
    (Store.wrap .direct middle).Sound ∧ (Store.wrap .direct middleBack).Sound ∧
      WrittenBack .none none (.wrap .direct middle) (.wrap .direct middleBack) ∧
      (resolve .none (.wrap .direct middleBack) (.text "!ref /b") "" (new false none)).1 =
        .ok (.map [("y", .null)]) ∧
      ∃ store' r', resolveAll .none (.wrap .direct middle) (new false none) = (.ok (), store', r') ∧
        store'.content.head = middle.head ∧ store'.content.child? "a" = some .null := by
  have hsound : (Store.wrap .direct middle).Sound := by
    refine Store.sound_wrap ?_ .direct
    simp [middle, Value.wellFormed_map_iff, Value.wellFormed_list_iff, Entries.Distinct,
      Entries.keys]
  have hsound' : (Store.wrap .direct middleBack).Sound := by
    refine Store.sound_wrap ?_ .direct
    simp [middleBack, Value.wellFormed_map_iff, Value.wellFormed_list_iff, Entries.Distinct,
      Entries.keys]
  obtain ⟨hvalues, hdocument⟩ := writtenBack_transparent hsound .none none
  have ha : (resolve .none (.wrap .direct middle) (.text "!ref /b/y") "a" (new false none)).1 =
      .ok .null := by cbv
  have hb : (resolve .none (.wrap .direct middle) (.map [("y", .text "!ref /c/0")]) "b"
      (new false none)).1 = .ok (.map [("y", .null)]) := by cbv
  have hc : (resolve .none (.wrap .direct middle) (.list [.null]) "c" (new false none)).1 =
      .ok (.list [.null]) := by cbv
  have hback : WrittenBack .none none (.wrap .direct middle) (.wrap .direct middleBack) := by
    refine ⟨rfl, fun token old hold => ?_⟩
    have hmem := Entries.mem_of_find? (show Entries.find? _ token = some old from hold)
    simp only [List.mem_cons, Prod.mk.injEq, List.not_mem_nil, or_false] at hmem
    rcases hmem with ⟨rfl, rfl⟩ | ⟨rfl, rfl⟩ | ⟨rfl, rfl⟩
    · exact .inl rfl
    · exact .inr ⟨"b", _, hb, rfl⟩
    · exact .inl rfl
  have hchildren : ∀ token, [token] ∈ childPaths (Store.wrap .direct middle).content →
      ∃ old w, (Store.wrap .direct middle).content.child? token = some old ∧
        (resolve .none (.wrap .direct middle) old token (new false none)).1 = .ok w := by
    intro token htoken
    obtain ⟨e, he, heq⟩ := List.mem_map.mp htoken
    obtain rfl := List.singleton_inj.mp heq
    simp only [List.mem_cons, List.not_mem_nil, or_false] at he
    rcases he with rfl | rfl | rfl
    · exact ⟨_, _, rfl, ha⟩
    · exact ⟨_, _, rfl, hb⟩
    · exact ⟨_, _, rfl, hc⟩
  have hbefore : (resolve .none (.wrap .direct middle) (.text "!ref /b") "" (new false none)).1 =
      .ok (.map [("y", .null)]) := by cbv
  obtain ⟨store', r', hrun, hhead, hdone⟩ := hdocument hchildren
  exact ⟨hsound, hsound', hback, hvalues _ hsound' hback _ _ "" "" hbefore,
    store', r', hrun, hhead, hdone "a" _ _ "a" rfl ha⟩

end Resolver

end Docweave
