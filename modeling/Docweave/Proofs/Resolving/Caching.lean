import Docweave.Proofs.Handlers
import Docweave.Proofs.Resolving.Answers

/-!
What is remembered of targets cannot be told from the results.

A resolver that remembers what targets become is run beside one that does not.  They stay twins: the
same targets in progress, under the same names.  Where the first one remembers a target, the other
one resolves it anew, and since the target does become something, this neither fails nor comes to
another value, whatever is in progress by then.

While a document is resolved its children are replaced by what they become, one after the other.
That changes what targets hold, but not what they become: a target in such a child held a value
before and holds what it became now (`Sources.Settles.resolves`).  So what was remembered before a
child was replaced is right afterwards.
-/

namespace Docweave

open Value (directiveTexts)

/-! ### Replacing a child by what it becomes -/

namespace Sources

variable {s : Sources} {v w c : Value} {t : Target} {token : String} {q : Path}

theorem Resolves.child? (h : s.Resolves v w) (hc : v.child? token = some c) :
    ∃ c', w.child? token = some c' ∧ s.Resolves c c' := by
  cases h with
  | null | bool | number | text | directive => exact absurd hc (by simp [Value.child?])
  | list h => exact Value.child?_of_forall₂_items (resolvesItems_iff.mp h) hc
  | map h => exact Value.child?_of_forall₂_fields (resolvesFields_iff.mp h) hc

theorem Resolves.node? (h : s.Resolves v w) (hc : v.node? q = some c) :
    ∃ c', w.node? q = some c' ∧ s.Resolves c c' := by
  induction q generalizing v w with
  | nil =>
      rw [Value.node?_nil] at hc ⊢
      exact ⟨w, rfl, Option.some.inj hc ▸ h⟩
  | cons token q ih =>
      rw [Value.node?_cons] at hc ⊢
      obtain ⟨d, hd, hc⟩ := Option.bind_eq_some_iff.mp hc
      obtain ⟨d', hd', hresolves⟩ := h.child? hd
      rw [hd', Option.bind_some]
      exact ih hresolves hc

/-- The sources after some children of the document have been replaced by what they become. -/
structure Settles (s s' : Sources) : Prop where
  files : s'.files = s.files
  reader : s'.reader = s.reader
  child : ∀ token old, s.document.child? token = some old →
    ∃ new, s'.document.child? token = some new ∧ (new = old ∨ s.Resolves old new)

/-- The sources after a child of the document has been replaced. -/
def after (s : Sources) (token : String) (new : Value) : Sources :=
  { s with document := s.document.put [token] new }

section after

variable {old new : Value} (hold : s.document.child? token = some old)
include hold

theorem document_after : (s.after token new).document = Value.setChild token new s.document := by
  rw [after, Value.put_cons_of_child? hold, Value.put_nil]

theorem child?_after_self : (s.after token new).document.child? token = some new := by
  rw [document_after hold, Value.child?_setChild_self hold]

theorem child?_after_of_ne {other : String} (hne : other ≠ token) :
    (s.after token new).document.child? other = s.document.child? other := by
  rw [document_after hold, Value.child?_setChild_of_ne _ (Ne.symm hne)]

theorem head_after : (s.after token new).document.head = s.document.head := by
  rw [document_after hold, Value.head_setChild hold]

theorem settles_after (hnew : s.Resolves old new) : s.Settles (s.after token new) := by
  refine ⟨rfl, rfl, fun other c hc => ?_⟩
  by_cases hother : other = token
  · subst hother
    obtain rfl := Option.some.inj (hold.symm.trans hc)
    exact ⟨new, child?_after_self hold, .inr hnew⟩
  · exact ⟨c, (child?_after_of_ne hold hother).trans hc, .inl rfl⟩

end after

namespace Settles

variable {s' : Sources}

/-- A target holds what it held before, or what that becomes. -/
theorem exists_content? (h : s.Settles s') (hv : s.content? t = some v) :
    ∃ v', s'.content? t = some v' ∧ (v' = v ∨ s.Resolves v v') := by
  cases t with
  | file location =>
      refine ⟨v, ?_, .inl rfl⟩
      rw [content?] at hv ⊢
      rwa [h.files]
  | node first rest =>
      rw [content?, Value.node?_cons] at hv ⊢
      obtain ⟨old, hold, hv⟩ := Option.bind_eq_some_iff.mp hv
      obtain ⟨new, hnew, rfl | hbecame⟩ := h.child first old hold
      · exact ⟨v, by rw [hnew]; exact hv, .inl rfl⟩
      · obtain ⟨v', hv', hresolves⟩ := hbecame.node? hv
        exact ⟨v', by rw [hnew]; exact hv', .inr hresolves⟩

theorem target?_eq (h : s.Settles s') (raw : String) : s'.target? raw = s.target? raw := by
  rw [target?, target?, h.reader]

/-- Replacing children by what they become does not change what anything becomes. -/
theorem resolves (h : s.Settles s') (hw : s.Resolves v w) : s'.Resolves v w := by
  induction hw using Resolves.induction with
  | null => exact .null
  | bool b => exact .bool b
  | number n => exact .number n
  | text raw hplain => exact .text hplain
  | directive raw t v w hraw ht hv hw ih =>
      rw [← h.target?_eq] at ht
      obtain ⟨v', hv', rfl | hbecame⟩ := h.exists_content? hv
      · exact .directive hraw ht hv' ih
      · obtain rfl := hw.unique hbecame
        exact .directive hraw ht hv' (resolves_self hw.directiveTexts_eq_nil)
  | list vs ws _ hitems =>
      refine .list (resolvesItems_iff.mpr (hitems.imp fun v w h => ?_))
      exact h.2
  | map es fs _ hfields =>
      refine .map (resolvesFields_iff.mpr (hfields.imp fun e f h => ?_))
      exact ⟨h.1, h.2.2⟩

theorem becomes (h : s.Settles s') (hw : s.Becomes t w) : s'.Becomes t w := by
  obtain ⟨v, hv, hw⟩ := hw
  obtain ⟨v', hv', rfl | hbecame⟩ := h.exists_content? hv
  · exact ⟨v', hv', h.resolves hw⟩
  · obtain rfl := hw.unique hbecame
    exact ⟨w, hv', resolves_self hw.directiveTexts_eq_nil⟩

end Settles

theorem keys_eq_of_forall₂ {es fs : Entries Value} (h : List.Forall₂ (fun e f => e.1 = f.1) es fs) :
    Entries.keys es = Entries.keys fs := by
  induction h with
  | nil => rfl
  | cons hkey _ ih => rw [Entries.keys, List.map_cons, hkey, ← Entries.keys, ih]; rfl

theorem Becomes.unique {w' : Value} (h : s.Becomes t w) (h' : s.Becomes t w') : w = w' := by
  obtain ⟨v, hv, hw⟩ := h
  obtain ⟨v', hv', hw'⟩ := h'
  obtain rfl := Option.some.inj (hv.symm.trans hv')
  exact hw.unique hw'

/-- What well-formed values become is well-formed. -/
theorem Resolves.wellFormed (h : s.Resolves v w) (hdocument : s.document.WellFormed)
    (hv : v.WellFormed) : w.WellFormed := by
  induction h using Resolves.induction with
  | null | bool | number | text => exact hv
  | directive raw t v w hraw ht hcontent hw ih =>
      refine ih ?_
      cases t with
      | node first rest => exact hdocument.of_node? hcontent
      | file location =>
          rw [content?] at hcontent
          cases hload : Reader.load s.files location with
          | ok u =>
              rw [hload] at hcontent
              exact Option.some.inj hcontent ▸ Reader.wellFormed_of_readAt hload
          | error fault => rw [hload] at hcontent; exact absurd hcontent (by simp [Except.toOption])
  | list vs ws _ hitems =>
      rw [Value.wellFormed_list_iff] at hv ⊢
      intro w hw
      obtain ⟨v, hmem, _, hwell⟩ := exists_of_mem_right hitems hw
      exact hwell (hv v hmem)
  | map es fs _ hfields =>
      rw [Value.wellFormed_map_iff] at hv ⊢
      have hkeys := keys_eq_of_forall₂ (hfields.imp fun e f h => h.1)
      refine ⟨?_, fun f hf => ?_⟩
      · rw [Entries.Distinct, ← hkeys]
        exact hv.1
      · obtain ⟨e, hmem, _, _, hwell⟩ := exists_of_mem_right hfields hf
        exact hwell (hv.2 e hmem)

end Sources

/-! ### Twins -/

namespace Resolver

variable {s : Sources} {targets : List Target} {t : Target} {raw : String} {store : Store}
  {r plain : Resolver} {α β : Type} {x : Resolving α}

/-- A resolver beside one that remembers nothing. -/
structure Twins (s : Sources) (targets : List Target) (r plain : Resolver) : Prop where
  keeps : Keeps s targets r
  plain_keeps : Keeps s targets plain
  off : plain.caching = false
  names : plain.names = r.names
  stack : plain.stack = r.stack

/-- Twins come to the same result, and stay twins. -/
def Agrees (s : Sources) (targets : List Target) (x : Resolving α) : Prop :=
  ∀ r plain, Twins s targets r plain → (x r).1 = (x plain).1 ∧ Twins s targets (x r).2 (x plain).2

theorem Twins.names_eq (h : Twins s targets r plain) {names names' : List String}
    (hnames : names' = names) :
    Twins s targets { r with names } { plain with names := names' } :=
  ⟨h.keeps.names names, h.plain_keeps.names names', h.off, hnames, h.stack⟩

theorem Twins.stack_eq (h : Twins s targets r plain) {targets' : List Target}
    {stack stack' : List Link} (hstack : stack' = stack)
    (htargets : stack.map Link.target = targets'.map Target.text) :
    Twins s targets' { r with stack } { plain with stack := stack' } :=
  ⟨h.keeps.stack_eq htargets, h.plain_keeps.stack_eq (hstack ▸ htargets), h.off, h.names, hstack⟩

theorem Twins.nodePath_eq (h : Twins s targets r plain) : plain.nodePath = r.nodePath := by
  rw [nodePath, nodePath, h.names]

namespace Agrees

theorem of_reply {reply : Except Fault α} (hx : ∀ r, x r = (reply, r)) : Agrees s targets x := by
  intro r plain htwins
  rw [hx, hx]
  exact ⟨rfl, htwins⟩

theorem bind {f : α → Resolving β} (hx : Agrees s targets x) (hf : ∀ a, Agrees s targets (f a)) :
    Agrees s targets (x >>= f) := by
  intro r plain htwins
  obtain ⟨hresult, hafter⟩ := hx r plain htwins
  rcases hr : x r with ⟨result, r'⟩
  rcases hplain : x plain with ⟨result', plain'⟩
  rw [hr, hplain] at hresult hafter
  obtain rfl : result = result' := hresult
  cases result with
  | error fault =>
      rw [bind_of_error hr, bind_of_error hplain]
      exact ⟨rfl, hafter⟩
  | ok a =>
      rw [bind_of_ok hr, bind_of_ok hplain]
      exact hf a r' plain' hafter

theorem named (name : String) (hx : Agrees s targets x) :
    Agrees s targets (Resolver.named name x) := by
  intro r plain htwins
  obtain ⟨hresult, hafter⟩ := hx _ _ (htwins.names_eq (congrArg (· ++ [name]) htwins.names))
  exact ⟨hresult, hafter.names_eq (congrArg List.dropLast hafter.names)⟩

theorem entered (kind : TargetKind) (hx : t ∉ targets → Agrees s (targets ++ [t]) x) :
    Agrees s targets (Resolver.entered kind t.text x) := by
  intro r plain htwins
  by_cases hmem : (r.stack.any fun frame => frame.target == t.text) = true
  · rw [Resolver.entered, Resolver.entered, htwins.stack, if_pos hmem, if_pos hmem,
      htwins.nodePath_eq]
    exact ⟨rfl, htwins⟩
  · rw [Resolver.entered, Resolver.entered, htwins.stack, if_neg hmem, if_neg hmem,
      htwins.nodePath_eq]
    have hnew : t ∉ targets := fun h => hmem (htwins.keeps.any_iff.mpr h)
    obtain ⟨hresult, hafter⟩ := hx hnew
      { r with stack := r.stack ++ [⟨r.nodePath, t.text⟩] }
      { plain with stack := r.stack ++ [⟨r.nodePath, t.text⟩] } <| htwins.stack_eq rfl <| by
        rw [List.map_append, List.map_append, htwins.keeps.stack]
        rfl
    refine ⟨hresult, hafter.stack_eq (congrArg List.dropLast hafter.stack) ?_⟩
    rw [List.map_dropLast, hafter.keeps.stack, List.map_append, List.map_singleton,
      List.dropLast_concat]

theorem located {found : Except Fault Value} {inner : Value → Resolving Value}
    (hinner : ∀ v, found = .ok v → Agrees s targets (inner v)) :
    Agrees s targets (Resolver.located raw found >>= inner) := by
  intro r plain htwins
  cases found with
  | ok v => exact hinner v rfl r plain htwins
  | error source =>
      have hrun : ∀ r : Resolver, (Resolver.located raw (.error source) >>= inner) r =
          (.error (.resolution raw r.nodePath source), r) := fun _ => bind_of_error rfl
      rw [hrun, hrun, htwins.nodePath_eq]
      exact ⟨rfl, htwins⟩

/-- What is remembered for a target is what it comes to anew. -/
theorem cached {act : Resolving Value} {bad : Prop} (hact : Agrees s targets act)
    (hanswers : Answers s targets act (s.Becomes t) bad) (hbad : ∀ w, s.Becomes t w → ¬ bad) :
    Agrees s targets (Resolver.cached t.entries t.remember t.key act) := by
  intro r plain htwins
  have hplain : Resolver.cached t.entries t.remember t.key act plain = act plain := by
    have hcaching := (hanswers plain htwins.plain_keeps).caching
    rw [Resolver.cached, htwins.off]
    rcases hrun : act plain with ⟨fault | w, plain'⟩
    · rfl
    · rw [hrun, htwins.off] at hcaching
      have hoff : plain'.caching = false := hcaching
      dsimp only
      rw [hoff]
      rfl
  rw [hplain, Resolver.cached]
  cases hlookup : if r.caching then Entries.find? (t.entries r) t.key else none with
  | some w =>
      have hw := htwins.keeps.remembered t w (Option.ite_none_right_eq_some.mp hlookup).2
      obtain ⟨hreply, hkeeps, hnames, hstack, hcaching⟩ := hanswers plain htwins.plain_keeps
      have hafter : Twins s targets r (act plain).2 :=
        ⟨htwins.keeps, hkeeps, hcaching.trans htwins.off, hnames.trans htwins.names,
          hstack.trans htwins.stack⟩
      refine ⟨?_, hafter⟩
      generalize (act plain).1 = result at hreply
      cases hreply with
      | ok hw' => rw [hw.unique hw']
      | fault h => exact absurd h (hbad w hw)
  | none =>
      obtain ⟨hresult, hafter⟩ := hact r plain htwins
      have hanswer := hanswers r htwins.keeps
      rcases hrun : act r with ⟨fault | w, r'⟩ <;> rw [hrun] at hresult hafter hanswer
      · exact ⟨hresult, hafter⟩
      · refine ⟨hresult, ?_⟩
        obtain ⟨hreply, -, -, -, -⟩ := hanswer
        cases hreply with
        | ok hw =>
            dsimp only
            split
            · refine ⟨hafter.keeps.remember hw, hafter.plain_keeps, hafter.off, ?_, ?_⟩
              · cases t <;> exact hafter.names
              · cases t <;> exact hafter.stack
            · exact hafter

theorem composes (s : Sources) (targets : List Target) :
    Composes fun x => Agrees s targets x where
  pure _ := of_reply fun _ => rfl
  bind := bind
  named := named

end Agrees

theorem follow_agrees (hsound : store.Sound) (hdocument : store.content = s.document) {depth : Nat}
    (hraw : isDirectiveText raw = true) (habove : s.Above targets (.text raw))
    (hdepth : s.depth ≤ depth + targets.length) :
    Agrees s targets (follow s.files store depth raw) := by
  induction depth generalizing targets raw with
  | zero =>
      have := habove.length_lt
      omega
  | succ depth ih =>
      cases ht : s.target? raw with
      | none =>
          obtain ⟨flaw, hfollow⟩ := follow_eq_malformed hraw ht s.files depth
          exact .of_reply hfollow
      | some t =>
          have hdeeper : s.depth ≤ depth + (targets ++ [t]).length := by
            rw [List.length_append, List.length_singleton]
            omega
          have hanswers := target_answers hsound hdocument hraw ht habove fun raw' hraw' habove' =>
            follow_answers hsound hdocument hraw' habove' hdeeper
          have hagrees : Agrees s targets
              (entered t.kind t.text (located raw (t.fetch s.files store) >>= fun v =>
                named t.name (value (follow s.files store depth) v))) := by
            refine .entered t.kind fun hnew => .located fun v hfetch => ?_
            have hv := (fetch_eq_ok_iff hsound hdocument v).mp hfetch
            refine .named t.name ((Agrees.composes s _).value fun raw' hraw' => ?_)
            exact ih (List.mem_filter.mp hraw').2 (habove.enter_text hraw ht hnew hv hraw') hdeeper
          intro r plain htwins
          rw [follow_eq_of_target hraw ht htwins.keeps.reader,
            follow_eq_of_target hraw ht htwins.plain_keeps.reader]
          refine Agrees.cached hagrees hanswers (fun w hw hnot => hnot ?_) r plain htwins
          obtain ⟨v, hv, hw⟩ := hw
          exact (Sources.Resolves.directive hraw ht hv hw).resolvable

/-! ### Documents -/

theorem resolve_agrees (hsound : store.Sound) (hdocument : store.content = s.document) (v : Value)
    (context : String) : Agrees s [] (resolve s.files store v context) := by
  rw [resolve, depth_eq hdocument]
  refine .named context ((Agrees.composes s []).value fun raw hraw => ?_)
  exact follow_agrees hsound hdocument (List.mem_filter.mp hraw).2 Sources.above_nil (Nat.le_refl _)

/-- What was remembered before a child is replaced by what it becomes is right afterwards. -/
theorem Keeps.after {r : Resolver} {token : String} {old new : Value} (h : Keeps s [] r)
    (hold : s.document.node? [token] = some old) (hnew : s.Resolves old new) :
    Keeps (s.after token new) [] r := by
  have hchild : s.document.child? token = some old := by simpa [Value.node?_cons] using hold
  exact ⟨h.reader, h.stack, fun t w hfind =>
    (Sources.settles_after hchild hnew).becomes (h.remembered t w hfind)⟩

/-- Resolving child after child, twins come to the same result and to the same document. -/
theorem resolveChildren_agrees (tokens : List String) (hsound : store.Sound)
    (hdocument : store.content = s.document) (htwins : Twins s [] r plain) :
    (resolveChildren s.files (tokens.map fun token => [token]) store r).1 =
        (resolveChildren s.files (tokens.map fun token => [token]) store plain).1 ∧
      (resolveChildren s.files (tokens.map fun token => [token]) store r).2.1 =
        (resolveChildren s.files (tokens.map fun token => [token]) store plain).2.1 := by
  induction tokens generalizing s store r plain with
  | nil => exact ⟨rfl, rfl⟩
  | cons token tokens ih =>
      rw [List.map_cons, resolveChildren, resolveChildren]
      cases hget : store.get (.plain [token]) with
      | error fault => exact ⟨rfl, rfl⟩
      | ok old =>
          have hold : s.document.node? [token] = some old :=
            hdocument ▸ (Store.get_plain_eq_ok_iff hsound).mp hget
          obtain ⟨hresult, hafter⟩ := resolve_agrees hsound hdocument old token r plain htwins
          have hreply :=
            (named_value_answers hsound hdocument old token r htwins.keeps).reply
          have hlast : [token].getLast?.getD "" = token := rfl
          simp only [hlast]
          rcases hrun : resolve s.files store old token r with ⟨result, r'⟩
          rcases hrun' : resolve s.files store old token plain with ⟨result', plain'⟩
          rw [hrun, hrun'] at hresult hafter
          rw [hrun] at hreply
          obtain rfl : result = result' := hresult
          cases hreply with
          | fault => exact ⟨rfl, rfl⟩
          | @ok new hnew =>
              have hwell : new.WellFormed :=
                hnew.wellFormed (hdocument ▸ hsound.wellFormed)
                  ((hdocument ▸ hsound.wellFormed).of_node? hold)
              dsimp only
              cases hupdate : store.update (.plain [token]) new with
              | error fault => exact ⟨rfl, rfl⟩
              | ok written =>
                  have hwritten := Store.content_update_plain hsound (List.cons_ne_nil token [])
                    (hdocument ▸ hold) hwell hupdate
                  exact ih (s := s.after token new) (hsound.update hwell hupdate)
                    (hwritten.trans (congrArg (·.put [token] new) hdocument))
                    ⟨hafter.keeps.after hold hnew, hafter.plain_keeps.after hold hnew, hafter.off,
                      hafter.names, hafter.stack⟩

/-- A child is resolved and written back before the next. -/
theorem resolveChildren_cons_eq_ok {files : Files} {token : String} {paths : List Path}
    {store store' : Store} {r r' : Resolver} (hsound : store.Sound)
    (h : resolveChildren files ([token] :: paths) store r = (.ok (), store', r')) :
    ∃ old new written r'', store.content.child? token = some old ∧
      resolve files store old token r = (.ok new, r'') ∧
      store.update (.plain [token]) new = .ok written ∧
      resolveChildren files paths written r'' = (.ok (), store', r') := by
  have hfirst := firstChild files [token] paths store r
  generalize resolveChildren files ([token] :: paths) store r = result at h hfirst
  cases hfirst with
  | missing | failed | refused => exact absurd (Prod.mk.inj h).1 (by simp)
  | @written old new written r'' hget hrun hupdate =>
      have hold : store.content.child? token = some old := by
        simpa [Value.node?_cons] using (Store.get_plain_eq_ok_iff hsound).mp hget
      exact ⟨old, new, written, r'', hold, hrun, hupdate, h⟩

/-- The paths of the children have one token each. -/
theorem childPaths_eq (v : Value) :
    ∃ tokens : List String, childPaths v = tokens.map fun token => [token] := by
  cases v with
  | map fields => exact ⟨fields.map Prod.fst, by rw [childPaths, List.map_map]; rfl⟩
  | list items =>
      exact ⟨(List.range items.length).map toString, by rw [childPaths, List.map_map]; rfl⟩
  | _ => exact ⟨[], rfl⟩

/-- Every child is one of those that a resolver goes through. -/
theorem mem_childPaths {content c : Value} {token : String} (h : content.child? token = some c) :
    [token] ∈ childPaths content := by
  cases content with
  | map fields => exact List.mem_map.mpr ⟨_, Entries.mem_of_find? h, rfl⟩
  | list items =>
      obtain ⟨i, hi, hitem⟩ := Option.bind_eq_some_iff.mp h
      have hlt := (List.getElem?_eq_some_iff.mp hitem).1
      refine List.mem_map.mpr ⟨i, List.mem_range.mpr hlt, ?_⟩
      rw [(index?_eq_some_iff.mp hi).1]
  | _ => exact absurd h (by simp [Value.child?])

end Resolver

/-- **Whether a resolver remembers what targets become cannot be told from what a document is
resolved to, nor from the fault.** -/
theorem resolveValue_caching {content : Value} (hcontent : content.WellFormed) (files : Files)
    (backend : Backend) (base? : Option String) :
    resolveValue files { backend, caching := true, base? } content =
      resolveValue files { backend, caching := false, base? } content := by
  let s : Sources := ⟨content, files, ⟨base?⟩⟩
  have htwins : Resolver.Twins s [] (.new true base?) (.new false base?) :=
    ⟨Resolver.keeps_new s true base? rfl, Resolver.keeps_new s false base? rfl, rfl, rfl, rfl⟩
  obtain ⟨tokens, htokens⟩ := Resolver.childPaths_eq content
  obtain ⟨hresult, hstore⟩ := Resolver.resolveChildren_agrees tokens
    (Store.sound_wrap hcontent backend) (Store.content_wrap backend content) htwins
  rw [← htokens] at hresult hstore
  rw [resolveValue, resolveValue, Resolver.resolveAll, Resolver.resolveAll, Store.content_wrap]
  dsimp only
  generalize Resolver.resolveChildren files _ _ (.new true base?) = caching at *
  generalize Resolver.resolveChildren files _ _ (.new false base?) = plain at *
  obtain ⟨result, store, r⟩ := caching
  obtain ⟨result', store', r'⟩ := plain
  obtain rfl : result = result' := hresult
  obtain rfl : store = store' := hstore
  cases result <;> rfl

/-- A document in which two references lead to one node, which is a reference itself. -/
def sharedTarget : Value :=
  .map [("a", .text "!ref /c"), ("b", .text "!ref /c"), ("c", .text "!ref /d"), ("d", .null)]

/-- Remembered or not, the node is resolved to the same value. -/
theorem resolveValue_sharedTarget :
    sharedTarget.WellFormed ∧
      resolveValue .none { caching := true } sharedTarget =
        .ok (.map [("a", .null), ("b", .null), ("c", .null), ("d", .null)]) ∧
      resolveValue .none { caching := true } sharedTarget =
        resolveValue .none { caching := false } sharedTarget := by
  have hwell : sharedTarget.WellFormed := by
    simp [sharedTarget, Value.wellFormed_map_iff, Entries.Distinct, Entries.keys]
  exact ⟨hwell, by cbv, resolveValue_caching hwell .none .direct none⟩

end Docweave
