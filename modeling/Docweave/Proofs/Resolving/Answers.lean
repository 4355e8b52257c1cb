import Docweave.Proofs.Children
import Docweave.Proofs.Resolving.Targets
import Docweave.Proofs.Store.Agreement
import Mathlib

/-!
Resolving answers exactly if the value can be resolved, and with what it becomes.

The induction is on how many more targets may lie in one another.  While targets are in progress,
each of them leads to every target of the value at hand (`Sources.Above`), so a target that is
entered again leads back to itself, and the fault is right.  Targets in progress are there, and no
two are the same, so there are never more than the document has nodes and there are files: resolving
is never given up.  What the resolver remembers is what targets do become, which the answers keep
true themselves.
-/

namespace Docweave

open Relation (TransGen)
open Value (directiveTexts)

/-! ### Targets in progress -/

namespace Sources

variable {s : Sources} {targets : List Target} {t : Target} {v w : Value} {raw : String}

/-- What a target becomes. -/
def Becomes (s : Sources) (t : Target) (w : Value) : Prop :=
  ∃ v, s.content? t = some v ∧ s.Resolves v w

/-- A target that some text names, and that is there. -/
structure Present (s : Sources) (t : Target) : Prop where
  named : ∃ raw, s.target? raw = some t
  content : (s.content? t).isSome = true

/-- How deep targets can lie in one another. -/
def depth (s : Sources) : Nat := s.document.size + s.files.readable.length + 1

/-- The targets in progress above a value: they are there, none is there twice, and each leads to
every target that the value mentions. -/
structure Above (s : Sources) (targets : List Target) (v : Value) : Prop where
  nodup : targets.Nodup
  present : ∀ t ∈ targets, s.Present t
  leads : ∀ t ∈ targets, ∀ raw ∈ v.directiveTexts, ∀ t', s.target? raw = some t' →
    TransGen s.Leads t t'

theorem above_nil : s.Above [] v :=
  ⟨List.nodup_nil, fun _ h => absurd h List.not_mem_nil, fun _ h => absurd h List.not_mem_nil⟩

theorem Above.mono (h : s.Above targets v) (hsub : w.directiveTexts ⊆ v.directiveTexts) :
    s.Above targets w :=
  ⟨h.nodup, h.present, fun t ht raw hraw => h.leads t ht raw (hsub hraw)⟩

/-- A target that is in progress already leads back to itself. -/
theorem Above.not_resolvable (h : s.Above targets (.text raw)) (hraw : isDirectiveText raw = true)
    (ht : s.target? raw = some t) (hmem : t ∈ targets) : ¬ s.Resolvable (.text raw) := by
  intro hresolvable
  have hself : raw ∈ (Value.text raw).directiveTexts := by
    rw [directiveTexts_text hraw]
    exact List.mem_singleton_self raw
  obtain ⟨t', ht', -, hnot⟩ := hresolvable raw (.here hself)
  obtain rfl := Option.some.inj (ht.symm.trans ht')
  exact hnot (h.leads t hmem raw hself t ht)

/-- A target that is entered comes behind the ones in progress. -/
theorem Above.enter (h : s.Above targets (.text raw)) (hraw : isDirectiveText raw = true)
    (ht : s.target? raw = some t) (hnew : t ∉ targets) (hv : s.content? t = some v) :
    s.Above (targets ++ [t]) v := by
  have hself : raw ∈ (Value.text raw).directiveTexts := by
    rw [directiveTexts_text hraw]
    exact List.mem_singleton_self raw
  refine ⟨?_, fun t' ht' => ?_, fun t' ht' raw' hraw' t'' ht'' => ?_⟩
  · exact h.nodup.append (List.nodup_singleton t) (List.disjoint_singleton.mpr hnew)
  · rcases List.mem_append.mp ht' with ht' | ht'
    · exact h.present t' ht'
    · obtain rfl := List.mem_singleton.mp ht'
      exact ⟨⟨raw, ht⟩, Option.isSome_of_eq_some hv⟩
  · have hstep : s.Leads t t'' := ⟨v, hv, raw', hraw', ht''⟩
    rcases List.mem_append.mp ht' with ht' | ht'
    · exact (h.leads t' ht' raw hself t ht).tail hstep
    · obtain rfl := List.mem_singleton.mp ht'
      exact .single hstep

/-- The same above one directive text of the content. -/
theorem Above.enter_text {raw' : String} (h : s.Above targets (.text raw))
    (hraw : isDirectiveText raw = true) (ht : s.target? raw = some t) (hnew : t ∉ targets)
    (hv : s.content? t = some v) (hraw' : raw' ∈ v.directiveTexts) :
    s.Above (targets ++ [t]) (.text raw') := by
  refine (h.enter hraw ht hnew hv).mono fun raw'' hmem => ?_
  rw [directiveTexts_text (List.mem_filter.mp hraw').2] at hmem
  exact List.mem_singleton.mp hmem ▸ hraw'

/-- A file that a text names and that can be read is one of the files there are. -/
theorem mem_readable {location : String} (hraw : s.target? raw = some (.file location))
    (hcontent : (s.content? (.file location)).isSome = true) : location ∈ s.files.readable := by
  obtain ⟨text, htext⟩ : ∃ text, s.files.read location = .ok text := by
    rw [content?, Reader.load, Reader.readAt] at hcontent
    cases hread : s.files.read location with
    | ok text => exact ⟨text, rfl⟩
    | error cause =>
        rw [hread] at hcontent
        exact absurd hcontent (by simp [Except.toOption])
  obtain ⟨raw', rfl⟩ : ∃ raw', location = Location.normalText raw' := by
    simp only [target?, Reader.resolve] at hraw
    grind
  exact s.files.mem_readable htext

/-- There are no more targets than nodes and files. -/
theorem exists_present (s : Sources) :
    ∃ all : List Target, all.length < s.depth ∧ ∀ t, s.Present t → t ∈ all := by
  obtain ⟨paths, hlength, hpaths⟩ := s.document.exists_nodes
  refine ⟨paths.map (fun path => .node (path.headD "") path.tail) ++
    s.files.readable.map .file, ?_, fun t ht => ?_⟩
  · rw [List.length_append, List.length_map, List.length_map, depth]
    omega
  · obtain ⟨⟨raw, hraw⟩, hcontent⟩ := ht
    cases t with
    | node first rest =>
        exact List.mem_append_left _ (List.mem_map.mpr ⟨_, hpaths _ hcontent, rfl⟩)
    | file location =>
        exact List.mem_append_right _ (List.mem_map.mpr ⟨location, mem_readable hraw hcontent, rfl⟩)

theorem Above.length_lt (h : s.Above targets v) : targets.length < s.depth := by
  obtain ⟨all, hlength, hall⟩ := s.exists_present
  have hsub : targets ⊆ all := fun t ht => hall t (h.present t ht)
  exact Nat.lt_of_le_of_lt (h.nodup.subperm hsub).length_le hlength

end Sources

/-! ### How targets are resolved -/

namespace Target

/-- The word for the kind of a target. -/
def kind : Target → TargetKind
  | .node _ _ => .reference
  | .file _ => .file

/-- What a target is remembered by. -/
def key : Target → String
  | .node first rest => (node first rest).text
  | .file location => location

/-- Where targets of its kind are remembered. -/
def entries : Target → Resolver → Entries Value
  | .node _ _ => Resolver.references
  | .file _ => Resolver.files

/-- The resolver with other memories of targets of its kind. -/
def remember : Target → Resolver → Entries Value → Resolver
  | .node _ _, r, entries => { r with references := entries }
  | .file _, r, entries => { r with files := entries }

/-- The name that its content is resolved under. -/
def name : Target → String
  | .node first rest => "<by ref>" ++ Pointer.textOfPath (first :: rest)
  | .file _ => "<from file>"

/-- Its content, or why there is none. -/
def fetch (files : Files) (store : Store) : Target → Except Fault Value
  | .node first rest => store.get (.reference first rest)
  | .file location => Reader.load files location

end Target

namespace Resolver

variable {s : Sources} {store : Store} {raw : String} {t : Target} {r : Resolver}

/-- Every directive text that names a target is followed in one way. -/
theorem follow_eq_of_target (hraw : isDirectiveText raw = true) (ht : s.target? raw = some t)
    (hreader : r.reader = s.reader) (depth : Nat) :
    follow s.files store (depth + 1) raw r =
      cached t.entries t.remember t.key
        (entered t.kind t.text (located raw (t.fetch s.files store) >>= fun v =>
          named t.name (value (follow s.files store depth) v))) r := by
  cases hreference : Pointer.isReferenceText raw with
  | true =>
      rcases Pointer.parse_of_isReferenceText hreference with ⟨flaw, hparse⟩ | ⟨first, rest, hparse⟩
      · rw [Sources.target?, hparse] at ht
        exact absurd ht (by simp)
      · rw [Sources.target?, hparse] at ht
        obtain rfl := Option.some.inj ht
        rw [follow, if_pos hreference, reference, Pointer.ofText, hparse]
        rfl
  | false =>
      rw [isDirectiveText, hreference, Bool.false_or] at hraw
      rcases Pointer.parse_of_isFileText hreference hraw with ⟨flaw, hparse⟩ | ⟨path, hpath, hparse⟩
      · rw [Sources.target?, hparse] at ht
        exact absurd ht (by simp)
      · rw [Sources.target?, hparse] at ht
        obtain rfl := Option.some.inj ht
        rw [follow, hreference, if_neg Bool.false_ne_true, file, Pointer.ofText, hparse, ← hreader]
        rfl

/-- A directive text that names no target is malformed. -/
theorem follow_eq_malformed (hraw : isDirectiveText raw = true) (ht : s.target? raw = none)
    (files : Files) (depth : Nat) :
    ∃ flaw, ∀ r, follow files store (depth + 1) raw r = (.error (.malformed raw flaw), r) := by
  cases hreference : Pointer.isReferenceText raw with
  | true =>
      rcases Pointer.parse_of_isReferenceText hreference with ⟨flaw, hparse⟩ | ⟨first, rest, hparse⟩
      · refine ⟨flaw, fun r => ?_⟩
        rw [follow, if_pos hreference, reference, Pointer.ofText, hparse]
        rfl
      · rw [Sources.target?, hparse] at ht
        exact absurd ht (by simp)
  | false =>
      rw [isDirectiveText, hreference, Bool.false_or] at hraw
      rcases Pointer.parse_of_isFileText hreference hraw with ⟨flaw, hparse⟩ | ⟨path, hpath, hparse⟩
      · refine ⟨flaw, fun r => ?_⟩
        rw [follow, hreference, if_neg Bool.false_ne_true, file, Pointer.ofText, hparse]
        rfl
      · rw [Sources.target?, hparse] at ht
        exact absurd ht (by simp)

end Resolver

/-! ### Actions -/

namespace Resolver

variable {s : Sources} {targets : List Target} {t : Target} {raw : String} {store : Store}
  {α β : Type} {x : Resolving α} {good : α → Prop} {bad : Prop}

/-- A resolver with these targets in progress, which remembers nothing but what targets become. -/
structure Keeps (s : Sources) (targets : List Target) (r : Resolver) : Prop where
  reader : r.reader = s.reader
  stack : r.stack.map Link.target = targets.map Target.text
  remembered : ∀ t w, Entries.find? (t.entries r) t.key = some w → s.Becomes t w

/-- The names do not matter to what a resolver remembers. -/
theorem Keeps.names {r : Resolver} (h : Keeps s targets r) (names : List String) :
    Keeps s targets { r with names } :=
  ⟨h.reader, h.stack, fun t w hfind => h.remembered t w (by cases t <;> exact hfind)⟩

/-- Other targets can be in progress. -/
theorem Keeps.stack_eq {r : Resolver} (h : Keeps s targets r) {targets' : List Target}
    {stack : List Link} (hstack : stack.map Link.target = targets'.map Target.text) :
    Keeps s targets' { r with stack } :=
  ⟨h.reader, hstack, fun t w hfind => h.remembered t w (by cases t <;> exact hfind)⟩

/-- The texts on the stack tell which targets are in progress. -/
theorem Keeps.any_iff {r : Resolver} (h : Keeps s targets r) :
    (r.stack.any fun frame => frame.target == t.text) = true ↔ t ∈ targets := by
  rw [List.any_eq_true, ← List.mem_map_of_injective (fun _ _ => Target.text_inj), ← h.stack]
  simp

/-- What is remembered for a target afterwards is no more than that. -/
theorem find?_remember (t t' : Target) (r : Resolver) (w : Value) :
    Entries.find? (t'.entries (t.remember r (Entries.insert (t.entries r) t.key w))) t'.key =
      if t = t' then some w else Entries.find? (t'.entries r) t'.key := by
  cases t with
  | node first rest =>
      cases t' with
      | node first' rest' =>
          refine (Entries.find?_insert _ _ _ _).trans ?_
          exact if_congr ⟨fun hkey => Target.text_inj hkey, congrArg Target.key⟩ rfl rfl
      | file location' => rfl
  | file location =>
      cases t' with
      | node first' rest' => rfl
      | file location' =>
          refine (Entries.find?_insert _ _ _ _).trans ?_
          exact if_congr ⟨congrArg Target.file, Target.file.inj⟩ rfl rfl

/-- What a target becomes can be remembered. -/
theorem Keeps.remember {r : Resolver} (h : Keeps s targets r) {t : Target} {w : Value}
    (hw : s.Becomes t w) :
    Keeps s targets (t.remember r (Entries.insert (t.entries r) t.key w)) := by
  have hremembered : ∀ t' u, Entries.find?
      (t'.entries (t.remember r (Entries.insert (t.entries r) t.key w))) t'.key = some u →
      s.Becomes t' u := by
    intro t' u hfind
    rw [find?_remember] at hfind
    split at hfind
    · next heq => exact Option.some.inj hfind ▸ heq ▸ hw
    · exact h.remembered t' u hfind
  cases t <;> exact ⟨h.reader, h.stack, hremembered⟩

/-- A good result, or a fault for a bad reason. -/
inductive Reply (good : α → Prop) (bad : Prop) : Except Fault α → Prop
  | ok {a : α} (h : good a) : Reply good bad (.ok a)
  | fault {fault : Fault} (h : bad) (hfault : fault.rootCause ≠ .exhausted) :
      Reply good bad (.error fault)

theorem Reply.imp {good' : α → Prop} {bad' : Prop} {reply : Except Fault α}
    (h : Reply good bad reply) (hgood : ∀ a, good a → good' a) (hbad : bad → bad') :
    Reply good' bad' reply := by
  cases h with
  | ok h => exact .ok (hgood _ h)
  | fault h hfault => exact .fault (hbad h) hfault

/-- What an action has come to: a reply, and a resolver that is as before but for what it
remembers. -/
structure Answered (s : Sources) (targets : List Target) (good : α → Prop) (bad : Prop)
    (r : Resolver) (answer : Except Fault α × Resolver) : Prop where
  reply : Reply good bad answer.1
  keeps : Keeps s targets answer.2
  names : answer.2.names = r.names
  stack : answer.2.stack = r.stack
  caching : answer.2.caching = r.caching

/-- With these targets in progress the action gives good results only, and fails only for a bad
reason. -/
def Answers (s : Sources) (targets : List Target) (x : Resolving α) (good : α → Prop)
    (bad : Prop) : Prop :=
  ∀ r, Keeps s targets r → Answered s targets good bad r (x r)

theorem bind_of_ok {f : α → Resolving β} {r r' : Resolver} {a : α} (h : x r = (.ok a, r')) :
    (x >>= f) r = f a r' := by
  show ExceptT.bindCont f (x r).1 (x r).2 = _
  rw [h]
  rfl

theorem bind_of_error {f : α → Resolving β} {r r' : Resolver} {fault : Fault}
    (h : x r = (.error fault, r')) : (x >>= f) r = (.error fault, r') := by
  show ExceptT.bindCont f (x r).1 (x r).2 = _
  rw [h]
  rfl

/-- A property of actions that results have, and that an action has if its parts have it. -/
structure Composes (P : ∀ {α : Type}, Resolving α → Prop) : Prop where
  pure : ∀ {α : Type} (a : α), P (Pure.pure a)
  bind : ∀ {α β : Type} {x : Resolving α} {f : α → Resolving β},
    P x → (∀ a, P (f a)) → P (x >>= f)
  named : ∀ {α : Type} {x : Resolving α} (name : String), P x → P (Resolver.named name x)

namespace Composes

variable {P : ∀ {α : Type}, Resolving α → Prop} {follow : String → Resolving Value}

theorem valueItems (h : Composes P) {items : List Value} {i : Nat}
    (hitems : ∀ v ∈ items, P (Resolver.value follow v)) :
    P (Resolver.valueItems follow i items) := by
  induction items generalizing i with
  | nil => exact h.pure []
  | cons v vs ih =>
      obtain ⟨hv, hvs⟩ := List.forall_mem_cons.mp hitems
      rw [Resolver.valueItems]
      exact h.bind (h.named (toString i) hv) fun w => h.bind (ih hvs) fun ws => h.pure (w :: ws)

theorem valueFields (h : Composes P) {fields : List (String × Value)}
    (hfields : ∀ e ∈ fields, P (Resolver.value follow e.2)) :
    P (Resolver.valueFields follow fields) := by
  induction fields with
  | nil => exact h.pure []
  | cons e es ih =>
      obtain ⟨key, v⟩ := e
      obtain ⟨hv, hes⟩ := List.forall_mem_cons.mp hfields
      rw [Resolver.valueFields]
      exact h.bind (h.named key hv) fun w => h.bind (ih hes) fun ws => h.pure ((key, w) :: ws)

/-- What following every directive text in a value has, resolving the value has. -/
theorem value (h : Composes P) {v : Value} (hfollow : ∀ raw ∈ v.directiveTexts, P (follow raw)) :
    P (Resolver.value follow v) := by
  induction v using Value.induction with
  | null | bool | number =>
      rw [Resolver.value]
      exact h.pure _
  | text raw =>
      rw [Resolver.value]
      show P (if isDirectiveText raw then follow raw else Pure.pure (Value.text raw))
      by_cases hraw : isDirectiveText raw = true
      · rw [if_pos hraw]
        refine hfollow raw ?_
        rw [Sources.directiveTexts_text hraw]
        exact List.mem_singleton_self raw
      · rw [if_neg hraw]
        exact h.pure (Value.text raw)
  | list items ih =>
      have hitems := fun v hv => ih v hv fun raw hraw =>
        hfollow raw (Sources.mem_directiveTexts_list.mpr ⟨v, hv, hraw⟩)
      rw [Resolver.value]
      exact h.bind (h.valueItems hitems) fun ws => h.pure (Value.list ws)
  | map fields ih =>
      have hfields := fun e he => ih e he fun raw hraw =>
        hfollow raw (Sources.mem_directiveTexts_map.mpr ⟨e, he, hraw⟩)
      rw [Resolver.value]
      exact h.bind (h.valueFields hfields) fun fs => h.pure (Value.map fs)

end Composes

namespace Answers

/-- An action that only replies. -/
theorem of_reply {reply : Except Fault α} (h : Reply good bad reply)
    (hx : ∀ r, x r = (reply, r)) : Answers s targets x good bad := by
  intro r hr
  rw [hx]
  exact ⟨h, hr, rfl, rfl, rfl⟩

theorem bind {good' : β → Prop} {bad' : Prop} {f : α → Resolving β}
    (hx : Answers s targets x good bad) (hbad : bad → bad')
    (hf : ∀ a, good a → Answers s targets (f a) good' bad') :
    Answers s targets (x >>= f) good' bad' := by
  intro r hr
  have hanswer := hx r hr
  rcases hrun : x r with ⟨reply, r'⟩
  rw [hrun] at hanswer
  obtain ⟨hreply, hkeeps, hnames, hstack, hcaching⟩ := hanswer
  cases hreply with
  | fault h hfault =>
      rw [bind_of_error hrun]
      exact ⟨.fault (hbad h) hfault, hkeeps, hnames, hstack, hcaching⟩
  | @ok a h =>
      rw [bind_of_ok hrun]
      have hrest := hf a h r' hkeeps
      exact ⟨hrest.reply, hrest.keeps, hrest.names.trans hnames, hrest.stack.trans hstack,
        hrest.caching.trans hcaching⟩

theorem named (name : String) (hx : Answers s targets x good bad) :
    Answers s targets (Resolver.named name x) good bad := by
  intro r hr
  obtain ⟨hreply, hkeeps, hnames, hstack, hcaching⟩ :=
    hx { r with names := r.names ++ [name] } (hr.names _)
  refine ⟨hreply, hkeeps.names _, ?_, hstack, hcaching⟩
  show List.dropLast _ = _
  rw [hnames, List.dropLast_concat]

theorem entered (kind : TargetKind) {t : Target} (hin : t ∈ targets → bad)
    (hx : t ∉ targets → Answers s (targets ++ [t]) x good bad) :
    Answers s targets (Resolver.entered kind t.text x) good bad := by
  intro r hr
  by_cases hmem : t ∈ targets
  · rw [Resolver.entered, if_pos (hr.any_iff.mpr hmem)]
    exact ⟨.fault (hin hmem) (by simp [Fault.rootCause]), hr, rfl, rfl, rfl⟩
  · rw [Resolver.entered, if_neg (fun h => hmem (hr.any_iff.mp h))]
    obtain ⟨hreply, hkeeps, hnames, hstack, hcaching⟩ :=
      hx hmem { r with stack := r.stack ++ [⟨r.nodePath, t.text⟩] } <| hr.stack_eq <| by
        rw [List.map_append, List.map_append, hr.stack]
        rfl
    have hback : ∀ answer : Except Fault α × Resolver,
        answer.2.stack = r.stack ++ [⟨r.nodePath, t.text⟩] →
        answer.2.stack.dropLast = r.stack := by
      intro answer h
      rw [h, List.dropLast_concat]
    refine ⟨hreply, hkeeps.stack_eq ?_, hnames, hback _ hstack, hcaching⟩
    exact (congrArg (List.map Link.target) (hback _ hstack)).trans hr.stack

/-- Looking for what a directive text stands for fails exactly if it is not there. -/
theorem located {raw : String} {found : Except Fault Value} {t : Target}
    (hfound : ∀ v, found = .ok v ↔ s.content? t = some v)
    (hexhausted : ∀ fault, found = .error fault → fault.rootCause ≠ .exhausted) :
    Answers s targets (Resolver.located raw found) (fun v => s.content? t = some v)
      (s.content? t = none) := by
  intro r hr
  cases found with
  | ok v => exact ⟨.ok ((hfound v).mp rfl), hr, rfl, rfl, rfl⟩
  | error source =>
      refine ⟨.fault ?_ (hexhausted source rfl), hr, rfl, rfl, rfl⟩
      exact Option.eq_none_iff_forall_ne_some.mpr fun v hv => by simpa using (hfound v).mpr hv

/-- What is remembered for a target has been its result before. -/
theorem cached {t : Target} {act : Resolving Value}
    (hact : Answers s targets act (s.Becomes t) bad) :
    Answers s targets (Resolver.cached t.entries t.remember t.key act) (s.Becomes t) bad := by
  intro r hr
  have hanswer := hact r hr
  rw [Resolver.cached]
  cases hlookup : if r.caching then Entries.find? (t.entries r) t.key else none with
  | some w =>
      have hw : s.Becomes t w := hr.remembered t w (Option.ite_none_right_eq_some.mp hlookup).2
      exact ⟨.ok hw, hr, rfl, rfl, rfl⟩
  | none =>
      rcases hrun : act r with ⟨fault | w, r'⟩ <;> rw [hrun] at hanswer
      · exact hanswer
      · obtain ⟨hreply, hkeeps, hnames, hstack, hcaching⟩ := hanswer
        cases hreply with
        | ok hw =>
            dsimp only
            by_cases hon : r'.caching = true
            · rw [if_pos hon]
              refine ⟨.ok hw, hkeeps.remember hw, ?_, ?_, ?_⟩
              · cases t <;> exact hnames
              · cases t <;> exact hstack
              · cases t <;> exact hcaching
            · rw [if_neg hon]
              exact ⟨.ok hw, hkeeps, hnames, hstack, hcaching⟩

/-! ### Values -/

variable {follow : String → Resolving Value}

theorem valueItems {items : List Value} {i : Nat}
    (h : ∀ v ∈ items,
      Answers s targets (Resolver.value follow v) (s.Resolves v) (¬ s.Resolvable v)) :
    Answers s targets (Resolver.valueItems follow i items) (s.ResolvesItems items)
      (¬ s.Resolvable (.list items)) := by
  induction items generalizing i with
  | nil => exact of_reply (.ok .nil) fun _ => rfl
  | cons v vs ih =>
      obtain ⟨hv, hvs⟩ := List.forall_mem_cons.mp h
      have hfirst : ¬ s.Resolvable v → ¬ s.Resolvable (.list (v :: vs)) := fun hnot hlist =>
        hnot (Sources.resolvable_list_iff.mp hlist v List.mem_cons_self)
      have hrest : ¬ s.Resolvable (.list vs) → ¬ s.Resolvable (.list (v :: vs)) := fun hnot hlist =>
        hnot (Sources.resolvable_list_iff.mpr fun w hw =>
          Sources.resolvable_list_iff.mp hlist w (List.mem_cons_of_mem v hw))
      rw [Resolver.valueItems]
      refine (hv.named (toString i)).bind hfirst fun w hw => ?_
      refine (ih hvs).bind hrest fun ws hws => ?_
      exact of_reply (.ok (.cons hw hws)) fun _ => rfl

theorem valueFields {fields : List (String × Value)}
    (h : ∀ e ∈ fields,
      Answers s targets (Resolver.value follow e.2) (s.Resolves e.2) (¬ s.Resolvable e.2)) :
    Answers s targets (Resolver.valueFields follow fields) (s.ResolvesFields fields)
      (¬ s.Resolvable (.map fields)) := by
  induction fields with
  | nil => exact of_reply (.ok .nil) fun _ => rfl
  | cons e es ih =>
      obtain ⟨key, v⟩ := e
      obtain ⟨hv, hes⟩ := List.forall_mem_cons.mp h
      have hfirst : ¬ s.Resolvable v → ¬ s.Resolvable (.map ((key, v) :: es)) := fun hnot hmap =>
        hnot (Sources.resolvable_map_iff.mp hmap (key, v) List.mem_cons_self)
      have hrest : ¬ s.Resolvable (.map es) → ¬ s.Resolvable (.map ((key, v) :: es)) :=
        fun hnot hmap => hnot (Sources.resolvable_map_iff.mpr fun f hf =>
          Sources.resolvable_map_iff.mp hmap f (List.mem_cons_of_mem (key, v) hf))
      rw [Resolver.valueFields]
      refine (hv.named key).bind hfirst fun w hw => ?_
      refine (ih hes).bind hrest fun ws hws => ?_
      exact of_reply (.ok (.cons hw hws)) fun _ => rfl

/-- If following answers for every directive text in a value, resolving answers for the value. -/
theorem value {v : Value}
    (h : ∀ raw ∈ v.directiveTexts,
      Answers s targets (follow raw) (s.Resolves (.text raw)) (¬ s.Resolvable (.text raw))) :
    Answers s targets (Resolver.value follow v) (s.Resolves v) (¬ s.Resolvable v) := by
  induction v using Value.induction with
  | null => exact of_reply (.ok .null) fun _ => rfl
  | bool b => exact of_reply (.ok (.bool b)) fun _ => rfl
  | number n => exact of_reply (.ok (.number n)) fun _ => rfl
  | text raw =>
      rw [Resolver.value]
      show Answers s targets
        (if isDirectiveText raw then follow raw else Pure.pure (Value.text raw)) _ _
      by_cases hraw : isDirectiveText raw = true
      · rw [if_pos hraw]
        refine h raw ?_
        rw [Sources.directiveTexts_text hraw]
        exact List.mem_singleton_self raw
      · rw [if_neg hraw]
        exact of_reply (.ok (.text (Bool.eq_false_iff.mpr hraw))) fun _ => rfl
  | list items ih =>
      have hitems := fun v hv => ih v hv fun raw hraw =>
        h raw (Sources.mem_directiveTexts_list.mpr ⟨v, hv, hraw⟩)
      rw [Resolver.value]
      exact (valueItems hitems).bind id fun ws hws => of_reply (.ok (.list hws)) fun _ => rfl
  | map fields ih =>
      have hfields := fun e he => ih e he fun raw hraw =>
        h raw (Sources.mem_directiveTexts_map.mpr ⟨e, he, hraw⟩)
      rw [Resolver.value]
      exact (valueFields hfields).bind id fun fs hfs => of_reply (.ok (.map hfs)) fun _ => rfl

/-! ### Targets -/

theorem imp {good' : α → Prop} {bad' : Prop} (hx : Answers s targets x good bad)
    (hgood : ∀ a, good a → good' a) (hbad : bad → bad') : Answers s targets x good' bad' := by
  intro r hr
  obtain ⟨hreply, hkeeps, hnames, hstack, hcaching⟩ := hx r hr
  exact ⟨hreply.imp hgood hbad, hkeeps, hnames, hstack, hcaching⟩

/-- A target is entered, its content is looked for, and then resolved. -/
theorem target {found : Except Fault Value} {inner : Value → Resolving Value}
    (hraw : isDirectiveText raw = true) (ht : s.target? raw = some t)
    (habove : s.Above targets (.text raw)) (hfound : ∀ v, found = .ok v ↔ s.content? t = some v)
    (hexhausted : ∀ fault, found = .error fault → fault.rootCause ≠ .exhausted)
    (hinner : ∀ v, t ∉ targets → s.content? t = some v →
      Answers s (targets ++ [t]) (inner v) (s.Resolves v) (¬ s.Resolvable v)) :
    Answers s targets (Resolver.entered t.kind t.text (Resolver.located raw found >>= inner))
      (s.Becomes t) (¬ s.Resolvable (.text raw)) := by
  have hiff : s.Resolvable (.text raw) ↔ ∃ v, s.content? t = some v ∧ s.Resolvable v := by
    rw [Sources.resolvable_text_iff hraw]
    simp only [ht, Option.some.injEq, exists_and_left, exists_eq_left']
  refine entered t.kind (habove.not_resolvable hraw ht) fun hnew => ?_
  refine (located hfound hexhausted).bind (fun hnone hresolvable => ?_) fun v hv => ?_
  · obtain ⟨v, hv, -⟩ := hiff.mp hresolvable
    exact absurd (hnone.symm.trans hv) (by simp)
  · refine (hinner v hnew hv).imp (fun w hw => ⟨v, hv, hw⟩) fun hnot hresolvable => hnot ?_
    obtain ⟨v', hv', hresolvable⟩ := hiff.mp hresolvable
    exact Option.some.inj (hv'.symm.trans hv) ▸ hresolvable

end Answers

theorem fetch_eq_ok_iff (hsound : store.Sound) (hdocument : store.content = s.document)
    (v : Value) :
    t.fetch s.files store = .ok v ↔ s.content? t = some v := by
  cases t with
  | node first rest =>
      rw [Target.fetch, Store.get_eq_ok_iff hsound, hdocument, Sources.content?]
      simp [Pointer.path?]
  | file location =>
      rw [Target.fetch, Sources.content?]
      cases Reader.load s.files location <;> simp [Except.toOption]

theorem fetch_ne_exhausted {files : Files} {fault : Fault}
    (h : t.fetch files store = .error fault) : fault.rootCause ≠ .exhausted := by
  cases t with
  | node first rest =>
      have hkind := Store.kind_of_get h
      cases fault <;> simp_all [Fault.kind, Fault.rootCause]
  | file location =>
      rw [Target.fetch, Reader.load, Reader.readAt] at h
      split at h
      · exact Except.error.inj h ▸ by simp [Fault.rootCause]
      · split at h
        · exact absurd h (by simp)
        · exact Except.error.inj h ▸ by simp [Fault.rootCause]

/-- If following answers for what a target mentions, resolving the target answers. -/
theorem target_answers (hsound : store.Sound) (hdocument : store.content = s.document) {depth : Nat}
    (hraw : isDirectiveText raw = true) (ht : s.target? raw = some t)
    (habove : s.Above targets (.text raw))
    (hfollow : ∀ raw', isDirectiveText raw' = true → s.Above (targets ++ [t]) (.text raw') →
      Answers s (targets ++ [t]) (follow s.files store depth raw') (s.Resolves (.text raw'))
        (¬ s.Resolvable (.text raw'))) :
    Answers s targets
      (entered t.kind t.text (located raw (t.fetch s.files store) >>= fun v =>
        named t.name (value (follow s.files store depth) v)))
      (s.Becomes t) (¬ s.Resolvable (.text raw)) := by
  refine .target hraw ht habove (fetch_eq_ok_iff hsound hdocument)
    (fun _ => fetch_ne_exhausted) fun v hnew hv => ?_
  refine .named t.name (.value fun raw' hraw' => ?_)
  exact hfollow raw' (List.mem_filter.mp hraw').2 (habove.enter_text hraw ht hnew hv hraw')

/-- **Following a directive text answers, with what the text becomes or because it cannot be
resolved.** -/
theorem follow_answers (hsound : store.Sound) (hdocument : store.content = s.document) {depth : Nat}
    (hraw : isDirectiveText raw = true) (habove : s.Above targets (.text raw))
    (hdepth : s.depth ≤ depth + targets.length) :
    Answers s targets (follow s.files store depth raw) (s.Resolves (.text raw))
      (¬ s.Resolvable (.text raw)) := by
  induction depth generalizing targets raw with
  | zero =>
      have := habove.length_lt
      omega
  | succ depth ih =>
      cases ht : s.target? raw with
      | none =>
          obtain ⟨flaw, hfollow⟩ := follow_eq_malformed hraw ht s.files depth
          refine .of_reply (.fault (fun hresolvable => ?_) (by simp [Fault.rootCause])) hfollow
          obtain ⟨t, v, ht', -, -⟩ := (Sources.resolvable_text_iff hraw).mp hresolvable
          exact absurd (ht.symm.trans ht') (by simp)
      | some t =>
          have htarget := target_answers hsound hdocument hraw ht habove fun raw' hraw' habove' =>
            ih hraw' habove' <| by
              rw [List.length_append, List.length_singleton]
              omega
          intro r hr
          rw [follow_eq_of_target hraw ht hr.reader]
          refine htarget.cached.imp (fun w hw => ?_) id r hr
          obtain ⟨v, hv, hw⟩ := hw
          exact .directive hraw ht hv hw

theorem depth_eq (hdocument : store.content = s.document) : depth s.files store = s.depth := by
  rw [depth, Sources.depth, hdocument]

theorem named_value_answers (hsound : store.Sound) (hdocument : store.content = s.document)
    (v : Value) (context : String) :
    Answers s [] (resolve s.files store v context) (s.Resolves v) (¬ s.Resolvable v) := by
  rw [resolve, depth_eq hdocument]
  exact .named context <| .value fun _ hraw => follow_answers hsound hdocument
    (List.mem_filter.mp hraw).2 Sources.above_nil (Nat.le_refl _)

theorem keeps_new (s : Sources) (caching : Bool) (base? : Option String)
    (hreader : s.reader = ⟨base?⟩) : Keeps s [] (new caching base?) :=
  ⟨hreader.symm, rfl, fun t w hfind => by
    cases t <;> exact absurd hfind (by simp [Target.entries, new])⟩

/-- **A fresh resolver always answers.**  The value is resolved exactly if every directive text that
is reached from it is well-formed, every target exists, and none leads back to itself.  Then it is
the value with every directive text replaced by what its target becomes, and no directive text is
left in it. -/
theorem resolve_answers (hsound : store.Sound) (files : Files) (caching : Bool)
    (base? : Option String) (v : Value) (context : String) :
    let s : Sources := ⟨store.content, files, ⟨base?⟩⟩
    let result := (resolve files store v context (new caching base?)).1
    (∀ fault, result = .error fault → fault.rootCause ≠ .exhausted) ∧
      ((∃ w, result = .ok w) ↔ s.Resolvable v) ∧
      ∀ w, result = .ok w → s.Resolves v w ∧
        ∀ raw ∈ w.texts, Pointer.isReferenceText raw = false ∧ Pointer.isFileText raw = false := by
  intro s result
  have hreply : Reply (s.Resolves v) (¬ s.Resolvable v) result :=
    (named_value_answers hsound (s := s) rfl v context (new caching base?)
      (keeps_new s caching base? rfl)).reply
  cases hresult : result with
  | error fault =>
      rw [hresult] at hreply
      cases hreply with
      | fault hnot hfault =>
          exact ⟨fun _ heq => Except.error.inj heq ▸ hfault,
            ⟨fun ⟨_, heq⟩ => absurd heq (by simp), fun h => absurd h hnot⟩,
            fun _ heq => absurd heq (by simp)⟩
  | ok w =>
      rw [hresult] at hreply
      cases hreply with
      | ok hw =>
          refine ⟨fun _ heq => absurd heq (by simp),
            ⟨fun _ => hw.resolvable, fun _ => ⟨w, rfl⟩⟩, ?_⟩
          intro w' heq
          obtain rfl := Except.ok.inj heq
          refine ⟨hw, fun raw hraw => ?_⟩
          have hplain : isDirectiveText raw = false := by
            refine Bool.eq_false_iff.mpr fun hdirective => ?_
            have hmem : raw ∈ w.directiveTexts := List.mem_filter.mpr ⟨hraw, hdirective⟩
            exact absurd (hw.directiveTexts_eq_nil ▸ hmem) List.not_mem_nil
          exact Bool.or_eq_false_iff.mp hplain

/-- A document in which a reference leads to another. -/
def twoSteps : Store :=
  .wrap .direct (.map [("~2", .text "!ref /a"), ("a", .bool true)])

/-- Two spellings of one pointer come to one value. -/
theorem resolve_two_spellings :
    twoSteps.Sound ∧
      (resolve .none twoSteps (.list [.text "!ref /~2", .text "!ref /~02"]) "here"
        (new false none)).1 = .ok (.list [.bool true, .bool true]) ∧
      Sources.Resolvable ⟨twoSteps.content, .none, ⟨none⟩⟩
        (.list [.text "!ref /~2", .text "!ref /~02"]) ∧
      Sources.Resolves ⟨twoSteps.content, .none, ⟨none⟩⟩
        (.list [.text "!ref /~2", .text "!ref /~02"]) (.list [.bool true, .bool true]) := by
  have hsound : twoSteps.Sound := by
    refine Store.sound_wrap ?_ .direct
    simp [Value.wellFormed_map_iff, Entries.Distinct, Entries.keys]
  have hok : (resolve .none twoSteps (.list [.text "!ref /~2", .text "!ref /~02"]) "here"
      (new false none)).1 = .ok (.list [.bool true, .bool true]) := by cbv
  obtain ⟨-, hiff, hresolves⟩ := resolve_answers hsound .none false none
    (.list [.text "!ref /~2", .text "!ref /~02"]) "here"
  exact ⟨hsound, hok, hiff.mp ⟨_, hok⟩, (hresolves _ hok).1⟩

/-! ### Child after child -/

/-- What it comes to that the first of some children is resolved and written back before the
others. -/
inductive FirstChild (files : Files) (path : Path) (paths : List Path) (store : Store)
    (r : Resolver) : Except Fault Unit × Store × Resolver → Prop
  | missing {fault : Fault} (hget : store.get (.plain path) = .error fault) :
      FirstChild files path paths store r (.error fault, store, r)
  | failed {old : Value} {fault : Fault} {r' : Resolver}
      (hget : store.get (.plain path) = .ok old)
      (hrun : resolve files store old (path.getLast?.getD "") r = (.error fault, r')) :
      FirstChild files path paths store r (.error fault, store, r')
  | refused {old new : Value} {fault : Fault} {r' : Resolver}
      (hget : store.get (.plain path) = .ok old)
      (hrun : resolve files store old (path.getLast?.getD "") r = (.ok new, r'))
      (hupdate : store.update (.plain path) new = .error fault) :
      FirstChild files path paths store r (.error fault, store, r')
  | written {old new : Value} {written : Store} {r' : Resolver}
      (hget : store.get (.plain path) = .ok old)
      (hrun : resolve files store old (path.getLast?.getD "") r = (.ok new, r'))
      (hupdate : store.update (.plain path) new = .ok written) :
      FirstChild files path paths store r (resolveChildren files paths written r')

theorem firstChild (files : Files) (path : Path) (paths : List Path) (store : Store)
    (r : Resolver) :
    FirstChild files path paths store r (resolveChildren files (path :: paths) store r) := by
  rw [resolveChildren]
  cases hget : store.get (.plain path) with
  | error fault => exact .missing hget
  | ok old =>
      rcases hrun : resolve files store old (path.getLast?.getD "") r with ⟨fault | new, r'⟩ <;>
        simp only [hrun]
      · exact .failed hget hrun
      · cases hupdate : store.update (.plain path) new with
        | error fault => exact .refused hget hrun hupdate
        | ok written => exact .written hget hrun hupdate

end Resolver

end Docweave
