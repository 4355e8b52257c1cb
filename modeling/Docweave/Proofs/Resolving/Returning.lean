import Docweave.Proofs.Resolving.Answers

/-!
A resolver can be used again after whatever it has been asked.

An action leaves the targets in progress and the names as it found them, however it ends, because
`entered` and `named` take back what they have put there also when there is a fault inside.  Without
caching it leaves the resolver altogether as it was.  With caching it may remember more, but no
target that is in progress: such a target is not entered a second time, and it is remembered by the
one action that is in the middle of it, when that has a result (`Resolver.Returns`).

So after any requests a resolver without caching is a fresh one, and one with caching differs from a
fresh one in what it remembers only.  A target that fails in the course of a request is not
remembered at the end of it: it is not remembered at the moment of the fault, and a fault ends
everything it comes by on its way out, so nothing is remembered after it (`Within.fault`).
-/

namespace Docweave

namespace Resolver

/-! ### What an action leaves behind -/

/-- A resolver that an action can leave behind. -/
structure Returns (r r' : Resolver) : Prop where
  reader : r'.reader = r.reader
  caching : r'.caching = r.caching
  stack : r'.stack = r.stack
  names : r'.names = r.names
  /-- Nothing more is remembered without caching. -/
  off : r.caching = false → r'.references = r.references ∧ r'.files = r.files
  /-- A target that is in progress is not remembered meanwhile. -/
  progress : ∀ t : Target, t.text ∈ r.stack.map Link.target →
    Entries.find? (t.entries r) t.key = none → Entries.find? (t.entries r') t.key = none

variable {r r' r'' : Resolver} {store : Store} {files : Files} {raw : String} {t : Target}

namespace Returns

theorem refl (r : Resolver) : Returns r r :=
  ⟨rfl, rfl, rfl, rfl, fun _ => ⟨rfl, rfl⟩, fun _ _ h => h⟩

theorem trans (h : Returns r r') (h' : Returns r' r'') : Returns r r'' where
  reader := h'.reader.trans h.reader
  caching := h'.caching.trans h.caching
  stack := h'.stack.trans h.stack
  names := h'.names.trans h.names
  off hoff := by
    obtain ⟨hreferences, hfiles⟩ := h.off hoff
    obtain ⟨hreferences', hfiles'⟩ := h'.off (h.caching.trans hoff)
    exact ⟨hreferences'.trans hreferences, hfiles'.trans hfiles⟩
  progress t hmem hnone := h'.progress t (h.stack ▸ hmem) (h.progress t hmem hnone)

/-- Without caching nothing has changed. -/
theorem eq_of_off (h : Returns r r') (hoff : r.caching = false) : r' = r := by
  obtain ⟨caching, reader, references, fileValues, stack, names⟩ := r'
  obtain ⟨rfl, rfl, rfl, rfl, hremembered, -⟩ := h
  obtain ⟨rfl, rfl⟩ := hremembered hoff
  rfl

theorem composes : Composes fun {α} (x : Resolving α) => ∀ r, Returns r (x r).2 where
  pure _ r := refl r
  bind {_ _ x f} hx hf r := by
    have hfirst := hx r
    rcases hrun : x r with ⟨fault | a, r'⟩
    · rw [bind_of_error hrun]
      rwa [hrun] at hfirst
    · rw [bind_of_ok hrun]
      rw [hrun] at hfirst
      exact hfirst.trans (hf a r')
  named {_ x} name hx r := by
    obtain ⟨hreader, hcaching, hstack, hnames, hoff, hprogress⟩ :=
      hx { r with names := r.names ++ [name] }
    have hback : (x { r with names := r.names ++ [name] }).2.names.dropLast = r.names := by
      rw [hnames, List.dropLast_concat]
    refine ⟨hreader, hcaching, hstack, hback, hoff, fun t hmem hnone => ?_⟩
    have := hprogress t hmem (by cases t <;> exact hnone)
    cases t <;> exact this

variable {α : Type} {x : Resolving α}

theorem entered (kind : TargetKind) (target : String) (hx : ∀ r, Returns r (x r).2)
    (r : Resolver) : Returns r (Resolver.entered kind target x r).2 := by
  rw [Resolver.entered]
  split
  · exact refl r
  · obtain ⟨hreader, hcaching, hstack, hnames, hoff, hprogress⟩ :=
      hx { r with stack := r.stack ++ [⟨r.nodePath, target⟩] }
    refine ⟨hreader, hcaching, ?_, hnames, hoff, fun t hmem hnone => ?_⟩
    · exact (congrArg List.dropLast hstack).trans List.dropLast_concat
    · have hmore : t.text ∈ (r.stack ++ [(⟨r.nodePath, target⟩ : Link)]).map Link.target := by
        rw [List.map_append]
        exact List.mem_append_left _ hmem
      have := hprogress t hmore (by cases t <;> exact hnone)
      cases t <;> exact this

end Returns

/-- A target is entered only if it is not in progress. -/
theorem not_mem_of_entered_eq_ok {α : Type} {x : Resolving α} {kind : TargetKind} {target : String}
    {a : α} (h : entered kind target x r = (.ok a, r')) : target ∉ r.stack.map Link.target := by
  intro hmem
  have hany : (r.stack.any fun frame => frame.target == target) = true := by
    obtain ⟨frame, hframe, rfl⟩ := List.mem_map.mp hmem
    exact List.any_eq_true.mpr ⟨frame, hframe, beq_self_eq_true _⟩
  rw [entered, if_pos hany] at h
  exact absurd (Prod.mk.inj h).1 (by simp)

/-- What is remembered in the end is the target that has been left by then. -/
theorem Returns.target {x : Resolving Value} (hx : ∀ r, Returns r (x r).2) (r : Resolver) :
    Returns r
      (Resolver.cached t.entries t.remember t.key (Resolver.entered t.kind t.text x) r).2 := by
  have hentered := Returns.entered t.kind t.text hx r
  rw [Resolver.cached]
  split
  · exact .refl r
  rcases hrun : Resolver.entered t.kind t.text x r with ⟨fault | w, r'⟩ <;> rw [hrun] at hentered
  · exact hentered
  dsimp only
  split
  · rename_i hon
    obtain ⟨hreader, hcaching, hstack, hnames, -, hprogress⟩ := hentered
    have hoff : r.caching = false →
        (t.remember r' (Entries.insert (t.entries r') t.key w)).references = r.references ∧
        (t.remember r' (Entries.insert (t.entries r') t.key w)).files = r.files :=
      fun hoff => absurd (hoff.symm.trans (hcaching.symm.trans hon)) Bool.false_ne_true
    have hother : ∀ t' : Target, t'.text ∈ r.stack.map Link.target →
        Entries.find? (t'.entries r) t'.key = none →
        Entries.find? (t'.entries (t.remember r' (Entries.insert (t.entries r') t.key w))) t'.key =
          none := by
      intro t' hmem hnone
      rw [find?_remember, if_neg]
      · exact hprogress t' hmem hnone
      · rintro rfl
        exact not_mem_of_entered_eq_ok hrun hmem
    cases t <;> exact ⟨hreader, hcaching, hstack, hnames, hoff, hother⟩
  · exact hentered

/-- The content of a target is looked for, and then resolved. -/
theorem Returns.content {follow : String → Resolving Value}
    (hfollow : ∀ raw', isDirectiveText raw' = true → ∀ r, Returns r (follow raw' r).2)
    (r : Resolver) :
    Returns r
      ((located raw (t.fetch files store) >>= fun v => named t.name (value follow v)) r).2 := by
  refine Returns.composes.bind (fun r => ?_) (fun v => ?_) r
  · cases t.fetch files store <;> exact .refl r
  · refine Returns.composes.named t.name (Returns.composes.value fun raw' hraw' => ?_)
    exact hfollow raw' (List.mem_filter.mp hraw').2

/-- **Following a directive leaves nothing behind but what is remembered, whatever the document and
however it ends.** -/
theorem returns_follow (files : Files) (store : Store) (depth : Nat) {raw : String}
    (hraw : isDirectiveText raw = true) (r : Resolver) :
    Returns r (follow files store depth raw r).2 := by
  induction depth generalizing raw r with
  | zero => exact .refl r
  | succ depth ih =>
      let s : Sources := ⟨store.content, files, r.reader⟩
      cases ht : s.target? raw with
      | none =>
          obtain ⟨flaw, hfollow⟩ := follow_eq_malformed hraw ht files depth
          rw [hfollow]
          exact .refl r
      | some t =>
          rw [follow_eq_of_target (s := s) hraw ht rfl]
          exact Returns.target (Returns.content fun raw' hraw' => ih hraw') r

theorem returns_resolve (files : Files) (store : Store) (v : Value) (context : String)
    (r : Resolver) : Returns r (resolve files store v context r).2 :=
  Returns.composes.named context
    (Returns.composes.value fun _ hraw =>
      returns_follow files store _ (List.mem_filter.mp hraw).2) r

theorem Returns.of_resolve {v : Value} {context : String} {result : Except Fault Value}
    (hrun : resolve files store v context r = (result, r')) : Returns r r' := by
  have hreturns := returns_resolve files store v context r
  rwa [hrun] at hreturns

theorem returns_resolveChildren (files : Files) (paths : List Path) (store : Store) (r : Resolver) :
    Returns r (resolveChildren files paths store r).2.2 := by
  induction paths generalizing store r with
  | nil => exact .refl r
  | cons path paths ih =>
      have hfirst := firstChild files path paths store r
      generalize resolveChildren files (path :: paths) store r = result at hfirst
      cases hfirst with
      | missing => exact .refl r
      | failed _ hrun | refused _ hrun => exact .of_resolve hrun
      | @written _ _ written r' _ hrun _ => exact (Returns.of_resolve hrun).trans (ih written r')

theorem returns_resolveAll (files : Files) (store : Store) (r : Resolver) :
    Returns r (resolveAll files store r).2.2 :=
  returns_resolveChildren files _ store r

/-! ### Requests -/

/-- What a resolver is asked, with the files and the document there are by then. -/
inductive Request where
  | resolve (files : Files) (store : Store) (v : Value) (context : String)
  | resolveAll (files : Files) (store : Store)
  | forget

/-- The resolver after a request, also after one that failed. -/
def serve (r : Resolver) : Request → Resolver
  | .resolve files store v context => (resolve files store v context r).2
  | .resolveAll files store => (resolveAll files store r).2.2
  | .forget => r.forget

/-- The resolver after some requests, the first one first. -/
def after (r : Resolver) (requests : List Request) : Resolver :=
  requests.foldl serve r

/-- Nothing is in progress, and forgetting is nothing to a resolver that does not remember. -/
structure Idle (caching : Bool) (base? : Option String) (r : Resolver) : Prop where
  stack : r.stack = []
  names : r.names = []
  off : caching = false → r = new false base?
  caching : r.caching = caching
  reader : r.reader = ⟨base?⟩

theorem Idle.of_returns {caching : Bool} {base? : Option String} (h : r.Idle caching base?)
    (hreturns : Returns r r') : r'.Idle caching base? where
  stack := hreturns.stack.trans h.stack
  names := hreturns.names.trans h.names
  caching := hreturns.caching.trans h.caching
  reader := hreturns.reader.trans h.reader
  off hoff := (hreturns.eq_of_off (h.caching.trans hoff)).trans (h.off hoff)

theorem Idle.forget {caching : Bool} {base? : Option String} (h : r.Idle caching base?) :
    r.forget.Idle caching base? where
  stack := h.stack
  names := h.names
  caching := h.caching
  reader := h.reader
  off hoff := by rw [h.off hoff]; rfl

/-- **A resolver is idle after every request, whatever came of it.** -/
theorem idle_after (caching : Bool) (base? : Option String) (requests : List Request) :
    ((new caching base?).after requests).Idle caching base? := by
  have hnew : (new caching base?).Idle caching base? :=
    ⟨rfl, rfl, fun hoff => by rw [hoff], rfl, rfl⟩
  generalize new caching base? = r at hnew
  induction requests generalizing r with
  | nil => exact hnew
  | cons request requests ih =>
      refine ih _ ?_
      cases request with
      | resolve files store v context =>
          exact hnew.of_returns (returns_resolve files store v context r)
      | resolveAll files store => exact hnew.of_returns (returns_resolveAll files store r)
      | forget => exact hnew.forget

/-! ### Targets that fail -/

/-- One action is carried out in the course of another, with the resolver there is by then. -/
inductive Within {β : Type} (y : Resolving β) (now : Resolver) :
    {α : Type} → Resolving α → Resolver → Prop
  | here : Within y now y now
  | first {α γ : Type} {x : Resolving α} {f : α → Resolving γ} {r : Resolver}
      (h : Within y now x r) : Within y now (x >>= f) r
  | next {α γ : Type} {x : Resolving α} {f : α → Resolving γ} {r r' : Resolver} {a : α}
      (hx : x r = (.ok a, r')) (h : Within y now (f a) r') : Within y now (x >>= f) r
  | named {α : Type} {x : Resolving α} {r : Resolver} {name : String}
      (h : Within y now x { r with names := r.names ++ [name] }) :
      Within y now (Resolver.named name x) r
  | entered {α : Type} {x : Resolving α} {r : Resolver} {kind : TargetKind} {target : String}
      (hnew : (r.stack.any fun frame => frame.target == target) = false)
      (h : Within y now x { r with stack := r.stack ++ [⟨r.nodePath, target⟩] }) :
      Within y now (Resolver.entered kind target x) r
  | cached {act : Resolving Value} {r : Resolver} {entries : Resolver → Entries Value}
      {remember : Resolver → Entries Value → Resolver} {key : String}
      (hnone : (if r.caching then Entries.find? (entries r) key else none) = none)
      (h : Within y now act r) : Within y now (Resolver.cached entries remember key act) r

/-- A directive text is followed in the course of resolving it. -/
theorem Within.text {α : Type} {y : Resolving α} {now r : Resolver} {raw : String}
    {follow : String → Resolving Value} (hraw : isDirectiveText raw = true)
    (h : Within y now (follow raw) r) : Within y now (value follow (.text raw)) r := by
  rw [value]
  exact (if_pos hraw).symm ▸ h

/-- **A fault ends whatever it arises in, and nothing is remembered after it.** -/
theorem Within.fault {α β : Type} {x : Resolving α} {y : Resolving β} {now now' : Resolver}
    {fault : Fault} (h : Within y now x r) (hy : y now = (.error fault, now')) :
    ∃ r', x r = (.error fault, r') ∧ r'.references = now'.references ∧ r'.files = now'.files := by
  induction h with
  | here => exact ⟨now', hy, rfl, rfl⟩
  | first _ ih =>
      obtain ⟨r', hx, hremembered⟩ := ih
      exact ⟨r', bind_of_error hx, hremembered⟩
  | next hx _ ih =>
      obtain ⟨r', hf, hremembered⟩ := ih
      exact ⟨r', (bind_of_ok hx).trans hf, hremembered⟩
  | named _ ih =>
      obtain ⟨r', hx, hremembered⟩ := ih
      exact ⟨{ r' with names := r'.names.dropLast }, by rw [Resolver.named, hx], hremembered⟩
  | entered hnew _ ih =>
      obtain ⟨r', hx, hremembered⟩ := ih
      refine ⟨{ r' with stack := r'.stack.dropLast }, ?_, hremembered⟩
      rw [Resolver.entered, if_neg (by rw [hnew]; exact Bool.false_ne_true), hx]
  | cached hnone _ ih =>
      obtain ⟨r', hx, hremembered⟩ := ih
      refine ⟨r', ?_, hremembered⟩
      rw [Resolver.cached, hnone, hx]

/-- Entering a target does not make it remembered. -/
theorem Returns.find?_entered {x : Resolving Value} (hx : ∀ r, Returns r (x r).2)
    (hnone : Entries.find? (t.entries r) t.key = none) :
    Entries.find? (t.entries (Resolver.entered t.kind t.text x r).2) t.key = none := by
  rw [Resolver.entered]
  split
  · exact hnone
  · have hmem : t.text ∈ (r.stack ++ [(⟨r.nodePath, t.text⟩ : Link)]).map Link.target := by
      rw [List.map_append]
      exact List.mem_append_right _ List.mem_cons_self
    have hprogress := (hx { r with stack := r.stack ++ [⟨r.nodePath, t.text⟩] }).progress t hmem
      (by cases t <;> exact hnone)
    cases t <;> exact hprogress

/-- A target that fails is not remembered at that moment: it was not before, and a fault is
nothing to remember. -/
theorem Returns.find?_of_fault {x : Resolving Value} (hx : ∀ r, Returns r (x r).2) {fault : Fault}
    (hon : r.caching = true)
    (h : Resolver.cached t.entries t.remember t.key (Resolver.entered t.kind t.text x) r =
      (.error fault, r')) : Entries.find? (t.entries r') t.key = none := by
  rw [Resolver.cached, if_pos hon] at h
  cases hlookup : Entries.find? (t.entries r) t.key with
  | some w =>
      rw [hlookup] at h
      exact absurd (Prod.mk.inj h).1 (by simp)
  | none =>
      have hentered := Returns.find?_entered hx hlookup
      rw [hlookup] at h
      rcases hrun : Resolver.entered t.kind t.text x r with ⟨fault' | w, r''⟩ <;>
        rw [hrun] at h hentered
      · obtain rfl := (Prod.mk.inj h).2
        exact hentered
      · exact absurd (Prod.mk.inj h).1 (by simp)

theorem find?_eq_none_of_fault {depth : Nat} {fault : Fault} (hon : r.caching = true)
    (ht : Sources.target? ⟨store.content, files, r.reader⟩ raw = some t)
    (h : follow files store (depth + 1) raw r = (.error fault, r')) :
    Entries.find? (t.entries r') t.key = none := by
  let s : Sources := ⟨store.content, files, r.reader⟩
  rw [follow_eq_of_target (s := s) (Sources.isDirectiveText_of_target? ht) ht rfl] at h
  refine Returns.find?_of_fault (Returns.content fun raw' hraw' => ?_) hon h
  exact returns_follow files store depth hraw'

/-- In the course of a request a directive text is followed, with the document and the resolver
there are by then. -/
inductive Asked : Request → Resolver → Files → Store → Nat → String → Resolver → Prop
  | resolve {files : Files} {store : Store} {v : Value} {context : String} {r now : Resolver}
      {depth : Nat} {raw : String}
      (h : Within (follow files store (depth + 1) raw) now
        (Resolver.resolve files store v context) r) :
      Asked (.resolve files store v context) r files store depth raw now
  | resolveAll {files : Files} {store store' : Store} {r r' now : Resolver} {depth : Nat}
      {raw : String} {done rest : List Path} {path : Path} {v : Value}
      (hpaths : childPaths store.content = done ++ path :: rest)
      (hdone : resolveChildren files done store r = (.ok (), store', r'))
      (hget : store'.get (.plain path) = .ok v)
      (h : Within (follow files store' (depth + 1) raw) now
        (Resolver.resolve files store' v (path.getLast?.getD "")) r') :
      Asked (.resolveAll files store) r files store' depth raw now

theorem resolveChildren_append {files : Files} {done : List Path} {store store' : Store}
    {r r' : Resolver} (h : resolveChildren files done store r = (.ok (), store', r'))
    (rest : List Path) :
    resolveChildren files (done ++ rest) store r = resolveChildren files rest store' r' := by
  induction done generalizing store r with
  | nil =>
      obtain ⟨-, h⟩ := Prod.mk.inj h
      obtain ⟨rfl, rfl⟩ := Prod.mk.inj h
      rfl
  | cons path done ih =>
      have hfirst := firstChild files path done store r
      generalize resolveChildren files (path :: done) store r = result at h hfirst
      cases hfirst with
      | missing | failed | refused => exact absurd (Prod.mk.inj h).1 (by simp)
      | written hget hrun hupdate =>
          rw [List.cons_append, resolveChildren]
          simp only [hget, hrun, hupdate]
          exact ih h

/-- A request that a fault ends remembers nothing after it. -/
theorem Asked.fault {request : Request} {now now' : Resolver} {depth : Nat} {fault : Fault}
    (h : Asked request r files store depth raw now)
    (hfault : follow files store (depth + 1) raw now = (.error fault, now')) :
    (r.serve request).references = now'.references ∧ (r.serve request).files = now'.files := by
  cases h with
  | resolve h =>
      obtain ⟨r', hrun, hremembered⟩ := h.fault hfault
      rw [serve, hrun]
      exact hremembered
  | resolveAll hpaths hdone hget h =>
      obtain ⟨r', hrun, hremembered⟩ := h.fault hfault
      rw [serve, Resolver.resolveAll, hpaths, resolveChildren_append hdone, resolveChildren]
      simp only [hget, hrun]
      exact hremembered

/-- **A resolver can be used again after any requests, failed or not.**  Nothing is in progress and
no name is left.  Without caching it answers every further request as a fresh one does.  With
caching a target that fails in the course of a request is not remembered after it. -/
theorem usable_after (caching : Bool) (base? : Option String) (requests : List Request) :
    let r := (new caching base?).after requests
    (r.stack = [] ∧ r.names = []) ∧
    (caching = false → ∀ files store,
      (∀ v context, (resolve files store v context r).1 =
        (resolve files store v context (new false base?)).1) ∧
      (resolveAll files store r).1 = (resolveAll files store (new false base?)).1 ∧
      (resolveAll files store r).2.1 = (resolveAll files store (new false base?)).2.1) ∧
    (caching = true → ∀ request files store depth raw now fault t,
      Asked request r files store depth raw now → now.caching = true →
      Sources.target? ⟨store.content, files, now.reader⟩ raw = some t →
      (follow files store (depth + 1) raw now).1 = .error fault →
      Entries.find? (t.entries (r.serve request)) t.key = none) := by
  intro r
  have hidle : r.Idle caching base? := idle_after caching base? requests
  refine ⟨⟨hidle.stack, hidle.names⟩, fun hoff files store => ?_, ?_⟩
  · rw [hidle.off hoff]
    exact ⟨fun _ _ => rfl, rfl, rfl⟩
  · intro _ request files store depth raw now fault t hasked hon ht hfault
    have hrun : follow files store (depth + 1) raw now =
        (.error fault, (follow files store (depth + 1) raw now).2) := Prod.ext hfault rfl
    obtain ⟨hreferences, hfiles⟩ := hasked.fault hrun
    have hnone := find?_eq_none_of_fault hon ht hrun
    cases t with
    | node first rest => exact (congrArg (Entries.find? · _) hreferences).trans hnone
    | file location => exact (congrArg (Entries.find? · _) hfiles).trans hnone

/-- A document in which a reference leads to one that leads nowhere. -/
def dangling : Store :=
  .wrap .direct (.map [("a", .text "!ref /b"), ("b", .text "!ref /c")])

/-- A resolver that has come by the first of them to the second one. -/
def midway : Resolver :=
  { new true none with
    stack := [⟨"/here", "!ref /a"⟩]
    names := ["here", "<by ref>/a"] }

/-- What has failed before fails again, and the reference on the way is not remembered. -/
theorem usable_after_dangling :
    let first : Request := .resolve .none dangling (.text "!ref /a") "here"
    let r := (new true none).after [.resolveAll .none dangling, first]
    (r.stack = [] ∧ r.names = []) ∧ Asked first r .none dangling 2 "!ref /b" midway ∧
      Entries.find? (r.serve first).references "!ref /b" = none := by
  intro first r
  obtain ⟨hempty, -, hfailed⟩ := usable_after true none [.resolveAll .none dangling, first]
  have hr : r = new true none := by
    show (new true none).after [.resolveAll .none dangling, first] = _
    cbv
  have hasked : Asked first r .none dangling 2 "!ref /b" midway := by
    rw [hr]
    let start : Resolver := { new true none with names := ["here"] }
    let inside : Resolver := { start with stack := [⟨"/here", "!ref /a"⟩] }
    have hpointer : (liftM (Pointer.ofText "!ref /a") : Resolving Pointer) start =
        (.ok (.reference "a" []), start) := rfl
    have hlocated : located "!ref /a" (dangling.get (.reference "a" [])) inside =
        (.ok (.text "!ref /b"), inside) := rfl
    refine .resolve (.named (.text (by decide) ?_))
    show Within _ _ (follow .none dangling 4 "!ref /a") start
    rw [follow, if_pos (by decide), reference]
    refine .next hpointer (.cached rfl (.entered rfl ?_))
    exact .next hlocated (.named (.text (by decide) .here))
  have hfault : (follow .none dangling 3 "!ref /b" midway).1 =
      .error (.resolution "!ref /c" "/here/<by ref>/a/<by ref>/b"
        (.notFound (.reference "c" []) (.key [] "c"))) := by cbv
  exact ⟨hempty, hasked, hfailed rfl first .none dangling 2 "!ref /b" midway _ (.node "b" []) hasked
    rfl rfl hfault⟩

end Resolver

end Docweave
