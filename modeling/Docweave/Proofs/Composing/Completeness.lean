import Docweave.Proofs.Composing.Coverage
import Docweave.Proofs.Composing.Tidy

/-!
What is left when composing ends without a fault.

The invariant of a pass is that every directive at or below the start is at or below a node that
holds its value for good, one that was noted for the next pass, or one of the worklist that is still
to come.  Looking through a node of the worklist trades it for what is noted below it, and a node
that is gone takes its directives with it.  The next worklist covers what was noted, so the
invariant goes from pass to pass, and when nothing was noted only what holds its value for good is
left.  From there on nothing is found any more, whoever the handlers are.
-/

namespace Docweave

namespace Composing

variable {μ : Type} {workshop : Workshop μ} {Inv : Progress μ → Prop} {p q : Progress μ}
  {worklist : List Path} {start : Path}

/-- Every directive at or below the start is done or at or below a path to be looked through. -/
def CoveredFrom (workshop : Workshop μ) (start : Path) (todo : Path → Prop) (p : Progress μ) :
    Prop :=
  ∀ v, p.document.content.node? start = some v →
    Covered (Handler.markers workshop.handlers) (· ∈ p.completed) todo start v

/-- Before a pass nothing is noted. -/
theorem CoveredFrom.fresh (h : CoveredFrom workshop start (· ∈ worklist) p) :
    CoveredFrom workshop start (fun c => c ∈ worklist ∨ c ∈ p.fresh.revisit) p.fresh :=
  fun v hv => (h v hv).mono (fun _ _ h => h) fun _ _ h => Or.inl h

theorem Passed.revisit_within (hK : Kept workshop Inv) (h : Passed workshop worklist p q)
    (hp : Inv p) (hworklist : ∀ w ∈ worklist, start <+: w)
    (hrevisit : ∀ r ∈ p.revisit, start <+: r) :
    ∀ r ∈ q.revisit, start <+: r := by
  induction h with
  | nil => exact hrevisit
  | gone hgone hrest ih => exact ih hp (List.forall_mem_cons.mp hworklist).2 hrevisit
  | scanned hget hscan hrest ih =>
      obtain ⟨hpath, hworklist⟩ := List.forall_mem_cons.mp hworklist
      obtain ⟨hq, hmoved⟩ := hK.scan hscan hp
      obtain ⟨extra, hextra, hwithin⟩ := hmoved.revisit
      refine ih hq hworklist fun r hr => ?_
      rw [hextra] at hr
      rcases List.mem_append.mp hr with hr | hr
      · exact hpath.trans (hwithin r hr)
      · exact hrevisit r hr

/-- **A pass over a worklist that covers every directive notes what covers every directive.** -/
theorem Passed.covers (hK : Kept workshop Inv) (htaking : Handler.Taking workshop.handlers)
    (h : Passed workshop worklist p q) (hp : Inv p) (hworklist : ∀ w ∈ worklist, start <+: w)
    (hcovered : CoveredFrom workshop start (fun c => c ∈ worklist ∨ c ∈ p.revisit) p) :
    CoveredFrom workshop start (· ∈ q.revisit) q := by
  induction h with
  | nil =>
      exact fun v hv => (hcovered v hv).mono (fun _ _ h => h)
        fun _ _ h => h.resolve_left List.not_mem_nil
  | @gone path rest p q hgone hrest ih =>
      refine ih hp (List.forall_mem_cons.mp hworklist).2 fun v hv => ?_
      refine (hcovered v hv).mono (fun _ _ h => h) fun s hs h => h.imp_left fun hmem => ?_
      -- What is gone is no node of the start.
      refine (List.mem_cons.mp hmem).resolve_left fun heq => ?_
      rw [Store.has_plain (hK.sound hp), ← heq, Value.node?_append, hv, Option.bind_some, hs]
        at hgone
      exact absurd hgone (by simp)
  | @scanned path rest p q r v b hget hscan hrest ih =>
      obtain ⟨hpath, hworklist⟩ := List.forall_mem_cons.mp hworklist
      obtain ⟨hq, hmoved⟩ := hK.scan hscan hp
      refine ih hq hworklist fun u hu => ?_
      have hn := (Store.get_plain_eq_ok_iff (hK.sound hp)).mp hget
      obtain ⟨x, hx, hxcovered⟩ := scan_covers hK htaking v path p b q hscan hp hn
      obtain ⟨y, hy⟩ := hmoved.content
      obtain rfl : y = x := by
        rw [hy, Value.node?_put_self (Option.isSome_of_eq_some hn)] at hx
        exact Option.some.inj hx
      obtain ⟨s, rfl⟩ := hpath
      obtain ⟨w, hw⟩ := Option.isSome_iff_exists.mp
        (Value.node?_isSome_of_prefix (List.prefix_append start s) (Option.isSome_of_eq_some hn))
      rw [hy, Value.node?_put_above, hw, Option.map_some] at hu
      obtain rfl := Option.some.inj hu
      rw [Value.node?_append, hw, Option.bind_some] at hn
      have hwell : w.WellFormed := (hK.sound hp).wellFormed.of_node? hw
      refine (hcovered w hw).put hwell (Option.isSome_of_eq_some hn)
        (hxcovered.mono (fun _ _ h => h) fun _ _ h => Or.inr h.2) ?_ ?_
      · exact fun c hc hdone => (hmoved.completed c hc).mpr hdone
      · intro c hc htodo
        rcases htodo with hmem | hmem
        · refine Or.inl ((List.mem_cons.mp hmem).resolve_left ?_)
          rintro rfl
          exact hc (List.prefix_refl _)
        · obtain ⟨extra, hextra, -⟩ := hmoved.revisit
          exact Or.inr (hextra ▸ List.mem_append_right extra hmem)

theorem mem_leftOver_of_mem {r : Path} (h : r ∈ p.revisit) : ∃ w ∈ leftOver p, w <+: r :=
  Worklist.exists_prefix_of_mem (List.mem_reverse.mpr h)

theorem mem_revisit_of_mem_leftOver {w : Path} (h : w ∈ leftOver p) : w ∈ p.revisit :=
  List.mem_reverse.mp (Worklist.mem_of_mem_normalize h)

/-- The next worklist covers what was noted. -/
theorem CoveredFrom.next (h : CoveredFrom workshop start (· ∈ q.revisit) q)
    (hwithin : ∀ w ∈ leftOver q, start <+: w) : CoveredFrom workshop start (· ∈ leftOver q) q := by
  refine fun v hv => (h v hv).cover (fun c hc => ?_) fun w hw hpath => ?_
  · obtain ⟨w, hw, hfront⟩ := mem_leftOver_of_mem hc
    exact ⟨w, hw, hfront⟩
  · exact Path.prefix_antisymm hpath (hwithin w hw)

/-- **Composing that ends leaves every directive at or below a node that holds its value for
good.** -/
theorem Ended.covers (hK : Kept workshop Inv) (htaking : Handler.Taking workshop.handlers)
    (h : Ended workshop worklist p q) (hp : Inv p) (hworklist : ∀ w ∈ worklist, start <+: w)
    (hcovered : CoveredFrom workshop start (· ∈ worklist) p) :
    CoveredFrom workshop start (fun _ => False) q := by
  induction h with
  | @last worklist p q hpass hnone =>
      have hq := hpass.covers hK htaking (hK.fresh hp) hworklist hcovered.fresh
      have hempty : q.revisit = [] := by
        rwa [leftOver, Worklist.normalize_eq_nil_iff, List.reverse_eq_nil_iff] at hnone
      refine fun v hv => (hq v hv).mono (fun _ _ h => h) fun _ _ h => ?_
      rw [hempty] at h
      exact List.not_mem_nil h
  | @next worklist p q r hpass hrest ih =>
      have hq := hpass.covers hK htaking (hK.fresh hp) hworklist hcovered.fresh
      have hwithin : ∀ w ∈ leftOver q, start <+: w := fun w hw =>
        hpass.revisit_within hK (hK.fresh hp) hworklist (fun _ h => absurd h List.not_mem_nil) w
          (mem_revisit_of_mem_leftOver hw)
      exact ih (hK.passed hpass (hK.fresh hp)) hwithin (hq.next hwithin)

/-- Where nothing is done for good, no directive is left at or below the node that composing
started at. -/
theorem Ended.plain_of_kept (hK : Kept workshop Inv) (htaking : Handler.Taking workshop.handlers)
    (hcompleted : ∀ {p}, Inv p → p.completed = []) (h : Ended workshop [start] p q) (hp : Inv p)
    {r : Path} {w : Value} (hn : q.document.content.node? (start ++ r) = some w) :
    isDirective (Handler.markers workshop.handlers) w = false := by
  have hcovered := h.covers hK htaking hp
    (fun w hw => List.mem_singleton.mp hw ▸ List.prefix_refl start)
    (fun v _ => .todo List.mem_cons_self)
  rw [Value.node?_append] at hn
  obtain ⟨v, hv, hr⟩ := Option.bind_eq_some_iff.mp hn
  by_contra hdirective
  obtain ⟨c, hc, -⟩ := (hcovered v hv).of_directive hr (Bool.of_not_eq_false hdirective)
  rw [hcompleted (hK.ended h hp)] at hc
  exact absurd hc List.not_mem_nil

/-! ### Composing again -/

/-- Where nothing is found in any entry, nothing is found in all of them. -/
theorem scanFields_of_nothing {path : Path} {es : List (String × Value)}
    (h : ∀ e ∈ es, scan workshop (path.child e.1) e.2 p = some (.ok false, p)) :
    scanFields workshop path es p = some (.ok false, p) := by
  induction es with
  | nil => exact scanFields_nil_eq_ok.mpr ⟨rfl, rfl⟩
  | cons e es ih =>
      obtain ⟨he, hes⟩ := List.forall_mem_cons.mp h
      exact scanFields_cons_eq_ok.mpr ⟨false, false, p, he, ih hes, rfl⟩

/-- Where every directive is done there is nothing to find. -/
theorem scan_of_covered {todo : Path → Prop} (htodo : ∀ c, ¬ todo c) (v : Value) :
    ∀ path, v.WellFormed →
      Covered (Handler.markers workshop.handlers) (· ∈ p.completed) todo path v →
      scan workshop path v p = some (.ok false, p) := by
  induction v using Value.entries_induction with
  | node v ih =>
      intro path hwell hcovered
      by_cases hdone : path ∈ p.completed
      · exact scan_of_completed v hdone
      cases hcovered with
      | done h => exact absurd h hdone
      | todo h => exact absurd h (htodo path)
      | node hplain hchildren =>
          rw [scan_of_plain hdone hplain]
          refine scanFields_of_nothing fun e he => ?_
          have hc := Value.child?_of_mem_entries hwell he
          exact ih e he _ (hwell.of_mem_entries he) (hchildren e.1 e.2 hc)

/-- A pass from a start below which every directive is done leaves everything as it is. -/
theorem pass_of_covered (hsound : p.document.Sound)
    (hcovered : CoveredFrom workshop start (fun _ => False) p) :
    pass workshop [start] p = some (.ok (), p) := by
  cases hn : p.document.content.node? start with
  | none =>
      rw [pass_cons_of_gone hsound [] hn]
      rfl
  | some v =>
      have hscan := scan_of_covered (fun _ h => h) v start (hsound.wellFormed.of_node? hn)
        (hcovered v hn)
      rw [pass_cons_of_node hsound [] hn]
      exact bind_eq_ok.mpr ⟨false, p, hscan, rfl⟩

theorem passes_of_covered (hsound : p.document.Sound)
    (hcovered : CoveredFrom workshop start (fun _ => False) p) :
    passes workshop [start] p = some (.ok (), p.fresh) := by
  have hpass : pass workshop [start] p.fresh = some (.ok (), p.fresh) :=
    pass_of_covered hsound hcovered
  refine passes_eq_some_iff.mpr (.ended ?_)
  have hround : round workshop [start] p = some (verdict [start] p.fresh) := by
    change pass workshop [start] { p with revisit := [], changed := false } = _ at hpass
    rw [round, hpass]
  rw [hround]
  rfl

end Composing

namespace Composer

open Composing

variable {μ : Type} {composer composer' : Composer μ} {setting : Setting} {start : Pointer}

/-- **Composing that ends without a fault leaves no directive but at or below nodes that hold their
value for good, and composing again finds nothing to do.**  The handlers of the second time can be
any others with the same markers, so none of them is asked. -/
theorem composeAt_completes {remembers : μ → Prop}
    (hmatches : Handler.MatchesMarkers composer.handlers)
    (htidy : ∀ handler ∈ composer.handlers, handler.Tidy remembers)
    (hsound : composer.store.Sound) (hmemory : remembers composer.memory)
    (h : composer.composeAt setting start = some (.ok (), composer')) :
    (∀ path rest directive, start.path? = some path →
      composer'.store.content.node? (path ++ rest) = some directive →
      isDirective (Handler.markers composer.handlers) directive = true →
      ∃ done ∈ composer'.completed, path <+: done ∧ done <+: path ++ rest) ∧
    ∀ setting' others, Handler.markers others = Handler.markers composer.handlers →
      { composer' with handlers := others }.composeAt setting' start =
        some (.ok (), { composer' with handlers := others }) := by
  obtain ⟨⟨result, q⟩, hpasses, heq⟩ := Option.map_eq_some_iff.mp h
  obtain ⟨rfl, rfl⟩ := Prod.mk.inj heq
  have hK := kept_of_tidy (workshop_tidy htidy setting)
  have hended := Ended.of_passes hpasses
  have hproper : Proper remembers q := hK.ended hended ⟨hsound, hmemory⟩
  have hcovered : ∀ path, start.path? = some path →
      CoveredFrom (composer.workshop setting) path (fun _ => False) q := by
    intro path hpath
    have hworklist : startWorklist start = [path] := by rw [startWorklist, hpath]
    refine hended.covers hK (Handler.taking_of_matchesMarkers hmatches) ⟨hsound, hmemory⟩ ?_ ?_
    · rw [hworklist]
      exact fun w hw => List.mem_singleton.mp hw ▸ List.prefix_refl path
    · rw [hworklist]
      exact fun v _ => .todo List.mem_cons_self
  refine ⟨fun path rest directive hpath hn hdirective => ?_, fun setting' others hmarkers => ?_⟩
  · rw [Value.node?_append] at hn
    obtain ⟨v, hv, hn⟩ := Option.bind_eq_some_iff.mp hn
    exact (hcovered path hpath v hv).of_directive hn hdirective
  · refine Option.map_eq_some_iff.mpr
      ⟨(.ok (), ⟨q.document, q.completed, q.memory, [], false⟩), ?_, rfl⟩
    cases hpath : start.path? with
    | none =>
        rw [startWorklist, hpath]
        exact passes_eq_some_iff.mpr (.ended rfl)
    | some path =>
        rw [startWorklist, hpath]
        refine passes_of_covered hproper.sound fun v hv => ?_
        show Covered (Handler.markers others) (· ∈ q.completed) (fun _ => False) path v
        rw [hmarkers]
        exact hcovered path hpath v hv

/-- No files, and the beginning of 1970. -/
def bareSetting : Setting :=
  ⟨.none, ⟨0, 0, 0⟩⟩

/-- A handler that is content with every directive as it is. -/
def contentHandler : Handler Unit where
  name := "Content"
  marker := "!content"
  compose := fun directive _ => pure (.completed (.map directive))

theorem matchesMarkers_contentHandler : Handler.MatchesMarkers [contentHandler] := by
  intro handler hmem directive
  obtain rfl := List.mem_singleton.mp hmem
  rfl

theorem tidy_contentHandler :
    ∀ handler ∈ [contentHandler], handler.Tidy fun _ => True := by
  intro handler hmem directive context memory outcome memory' hwell _ _ h
  obtain rfl := List.mem_singleton.mp hmem
  obtain rfl := Except.ok.inj (Prod.mk.inj h).1
  exact ⟨hwell, trivial⟩

/-- A composer of a document with one directive, which is to stay as it is. -/
def contentComposer : Composer Unit :=
  .new (.wrap .direct (.map [("a", .map [("!content", .null)])])) [contentHandler] 0 ()

/-- The directive stays, and is known to hold its value for good. -/
theorem compose_content_completes :
    Handler.MatchesMarkers contentComposer.handlers ∧
      (∀ handler ∈ contentComposer.handlers, handler.Tidy fun _ => True) ∧
      contentComposer.store.Sound ∧
      ∃ composer,
        contentComposer.composeAt bareSetting .root = some (.ok (), composer) ∧
        (∃ done ∈ composer.completed, done <+: ["a"]) ∧
        composer.composeAt bareSetting .root = some (.ok (), composer) := by
  have hmatches : Handler.MatchesMarkers contentComposer.handlers := matchesMarkers_contentHandler
  have htidy : ∀ handler ∈ contentComposer.handlers, handler.Tidy fun _ => True :=
    tidy_contentHandler
  have hsound : contentComposer.store.Sound := by
    refine Store.sound_wrap ?_ .direct
    simp [Value.wellFormed_map_iff, Entries.Distinct, Entries.keys]
  obtain ⟨q, hround, hn⟩ : ∃ q, round (contentComposer.workshop bareSetting) [[]]
      contentComposer.progress = some (.ended (.ok ()) q) ∧
      q.document.content.node? ["a"] = some (.map [("!content", .null)]) := ⟨_, rfl, rfl⟩
  have hcompose : contentComposer.composeAt bareSetting .root =
      some (.ok (), contentComposer.resume q) :=
    Option.map_eq_some_iff.mpr ⟨_, passes_eq_some_iff.mpr (.ended hround), rfl⟩
  obtain ⟨hdone, hagain⟩ := composeAt_completes hmatches htidy hsound trivial hcompose
  obtain ⟨done, hmem, -, hfront⟩ := hdone [] ["a"] _ rfl hn (by decide)
  exact ⟨hmatches, htidy, hsound, _, hcompose, ⟨done, hmem, hfront⟩, hagain _ _ rfl⟩

end Composer

end Docweave
