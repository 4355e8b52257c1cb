import Docweave.Proofs.Composing.Frame

/-!
Which directives a run comes to.

`Meets` says that composing comes to hand over the directive at a site, and in which state.  It is
said of what lies before that moment alone, so it holds of runs that end in a fault and of runs that
never end as well.  A document that is composed on its own in the course of a run is a run of its
own, one level further down; `Nests` are all of these.

What looking through nodes keeps holds whenever a directive is met (`Meets.carried`), and a pass
that never ends has met a directive whose handing over does not end (`exists_meetsPass_of_none`).
-/

namespace Docweave

namespace Composing

variable {μ : Type}

mutual

/-- Looking through the snapshot of a node comes to handing over what is at a site. -/
inductive MeetsNode (handover : Handover μ) (site : Path) (s : Progress μ) :
    Path → Value → Progress μ → Prop
  | inside {path : Path} {v : Value} {p : Progress μ} (hdone : path ∉ p.completed)
      (hroot : isDirective handover.markers v = true → path ≠ [])
      (h : MeetsEntries handover site s path v.entries p) : MeetsNode handover site s path v p
  | here {v : Value} {p : Progress μ} (hdone : site ∉ p.completed)
      (hdirective : isDirective handover.markers v = true) (hroot : site ≠ [])
      (hscan : scanFields handover site v.entries p = some (.ok false, s)) :
      MeetsNode handover site s site v p

/-- Looking through entries comes to handing over what is at a site. -/
inductive MeetsEntries (handover : Handover μ) (site : Path) (s : Progress μ) :
    Path → List (String × Value) → Progress μ → Prop
  | first {path : Path} {e : String × Value} {es : List (String × Value)} {p : Progress μ}
      (h : MeetsNode handover site s (path.child e.1) e.2 p) :
      MeetsEntries handover site s path (e :: es) p
  | later {path : Path} {e : String × Value} {es : List (String × Value)} {p q : Progress μ}
      {b : Bool} (hscan : scan handover (path.child e.1) e.2 p = some (.ok b, q))
      (h : MeetsEntries handover site s path es q) : MeetsEntries handover site s path (e :: es) p

end

/-- A pass comes to handing over what is at a site. -/
inductive MeetsPass (handover : Handover μ) (site : Path) (s : Progress μ) :
    List Path → Progress μ → Prop
  | first {path : Path} {rest : List Path} {v : Value} {p : Progress μ}
      (hhas : p.document.has (.plain path) = true) (hget : p.document.get (.plain path) = .ok v)
      (h : MeetsNode handover site s path v p) : MeetsPass handover site s (path :: rest) p
  | gone {path : Path} {rest : List Path} {p : Progress μ}
      (hgone : p.document.has (.plain path) = false) (h : MeetsPass handover site s rest p) :
      MeetsPass handover site s (path :: rest) p
  | later {path : Path} {rest : List Path} {v : Value} {p q : Progress μ} {b : Bool}
      (hhas : p.document.has (.plain path) = true) (hget : p.document.get (.plain path) = .ok v)
      (hscan : scan handover path v p = some (.ok b, q)) (h : MeetsPass handover site s rest q) :
      MeetsPass handover site s (path :: rest) p

/-- Passes one after the other come to handing over what is at a site. -/
inductive Meets (handover : Handover μ) (site : Path) (s : Progress μ) :
    List Path → Progress μ → Prop
  | now {worklist : List Path} {p : Progress μ}
      (h : MeetsPass handover site s worklist p.fresh) : Meets handover site s worklist p
  | next {worklist next : List Path} {p q : Progress μ}
      (hround : round handover worklist p = some (.next next q))
      (h : Meets handover site s next q) : Meets handover site s worklist p

/-- In scalars nothing is met. -/
theorem MeetsEntries.exists_container {handover : Handover μ} {site path : Path} {s p : Progress μ}
    {es : List (String × Value)} (h : MeetsEntries handover site s path es p) :
    ∃ e ∈ es, e.2.isContainer = true := by
  induction es generalizing p with
  | nil => cases h
  | cons e es ih =>
      cases h with
      | later _ h =>
          obtain ⟨f, hf, hcontainer⟩ := ih h
          exact ⟨f, List.mem_cons_of_mem _ hf, hcontainer⟩
      | first h =>
          refine ⟨e, List.mem_cons_self, ?_⟩
          cases h with
          | here _ hdirective _ _ => exact isContainer_of_isDirective hdirective
          | inside _ _ h =>
              by_contra hscalar
              rw [Value.entries_of_isContainer_eq_false (Bool.eq_false_iff.mpr hscalar)] at h
              cases h

/-- What is met in the course of a single pass is met in it. -/
theorem Meets.of_ended {handover : Handover μ} {site : Path} {s p q : Progress μ}
    {worklist : List Path} {result : Except Fault Unit} (h : Meets handover site s worklist p)
    (hround : round handover worklist p = some (.ended result q)) :
    MeetsPass handover site s worklist p.fresh := by
  cases h with
  | now h => exact h
  | next hnext _ => exact absurd (hround.symm.trans hnext) (by simp)

/-! ### Runs and the runs in them -/

/-- Composing from some state on, with the handlers it is done with. -/
structure Run (μ : Type) where
  handlers : List (Handler μ)
  setting : Setting
  /-- How deep documents of their own are nested. -/
  maxDepth : Nat
  /-- How much deeper they may be nested. -/
  levels : Nat
  worklist : List Path
  progress : Progress μ

namespace Run

/-- What stays the same in a run. -/
def workshop (run : Run μ) : Workshop μ :=
  ⟨run.handlers, run.setting, separately run.handlers run.setting run.maxDepth run.levels⟩

/-- What a run comes to. -/
def result (run : Run μ) : Option (Except Fault Unit × Progress μ) :=
  passes run.workshop run.worklist run.progress

/-- The run over a document of its own. -/
def nested (run : Run μ) (levels : Nat) (backend : Backend) (v : Value) (memory : μ) : Run μ :=
  { run with levels, worklist := [[]], progress := ⟨Store.wrap backend v, [], memory, [], false⟩ }

/-- A run comes to handing a directive to its handler. -/
structure Meets (run : Run μ) (site : Path) (s : Progress μ) (directive : Fields)
    (handler : Handler μ) : Prop where
  meets : Composing.Meets run.workshop site s run.worklist run.progress
  get : s.document.get (.plain site) = .ok (.map directive)
  find : Handler.find? run.handlers directive = some handler

/-- The runs there are in the course of a run: the run, and those over documents of their own. -/
inductive Nests (top : Run μ) : Run μ → Prop
  | self : Nests top top
  | deeper {run : Run μ} {levels : Nat} {site : Path} {s : Progress μ} {directive : Fields}
      {handler : Handler μ} {v : Value} {memory : μ} (h : Nests top run)
      (hlevels : run.levels = levels + 1) (hmeets : run.Meets site s directive handler)
      (hanswer : handler.compose directive (contextAt run.workshop site s) s.memory =
        (.ok (.separate v), memory)) :
      Nests top (run.nested levels s.document.backend v memory)

variable {top run inner : Run μ} {directive : Fields} {handler : Handler μ} {v : Value}
  {memory : μ} {levels : Nat}

theorem Nests.trans (hrun : Nests top run) (hinner : Nests run inner) : Nests top inner := by
  induction hinner with
  | self => exact hrun
  | deeper _ hlevels hmeets hanswer ih => exact ih.deeper hlevels hmeets hanswer

/-- All the runs in a run are made with the same handlers. -/
theorem Nests.handlers_eq (h : Nests top run) : run.handlers = top.handlers := by
  induction h with
  | self => rfl
  | deeper _ _ _ _ ih => exact ih

theorem Nests.setting_eq (h : Nests top run) : run.setting = top.setting := by
  induction h with
  | self => rfl
  | deeper _ _ _ _ ih => exact ih

theorem Nests.levels_le (h : Nests top run) : run.levels ≤ top.levels := by
  induction h with
  | self => exact Nat.le_refl _
  | @deeper run levels site s directive handler v memory h hlevels hmeets hanswer ih =>
      show levels ≤ top.levels
      omega

/-- Where no level is left there is no document of its own. -/
theorem Nests.eq_of_levels_eq_zero (h : Nests top run) (hlevels : top.levels = 0) : run = top := by
  cases h with
  | self => rfl
  | deeper h hlevel _ _ =>
      have hle := h.levels_le
      omega

end Run

/-- What composing a value as a document of its own gives, once its run has ended. -/
def outcomeOf (result : Except Fault Unit × Progress μ) : Except Fault Value × μ :=
  (result.1.map fun _ => result.2.document.content, result.2.memory)

/-- Composing a value as a document of its own is a run over it, if there is a level left. -/
theorem separately_succ (run : Run μ) (levels : Nat) (backend : Backend) (v : Value) (memory : μ) :
    separately run.handlers run.setting run.maxDepth (levels + 1) backend v memory =
      (run.nested levels backend v memory).result.map outcomeOf := by
  simp only [separately, Run.result, Run.nested, Run.workshop]
  rcases passes _ [[]] (⟨Store.wrap backend v, [], memory, [], false⟩ : Progress μ) with
    _ | ⟨fault | _, progress⟩ <;> rfl

end Composing

namespace Composer

variable {μ : Type}

/-- The run that composing at a pointer is. -/
def run (composer : Composer μ) (setting : Setting) (start : Pointer) : Composing.Run μ :=
  ⟨composer.handlers, setting, composer.maxDepth, composer.maxDepth, startWorklist start,
    composer.progress⟩

/-- Composing comes, in the document or in one of those that are composed on their own, to handing
a directive to the handler with a marker. -/
def Hands (composer : Composer μ) (setting : Setting) (start : Pointer) (marker : String) : Prop :=
  ∃ run site s directive handler, (composer.run setting start).Nests run ∧
    run.Meets site s directive handler ∧ handler.marker = marker

end Composer

namespace Composing

variable {μ : Type} {workshop : Workshop μ} {site path : Path} {s p q : Progress μ}
  {worklist next : List Path} {Inv : Progress μ → Prop}

/-! ### Invariants -/

/-- A property of states that looking through nodes keeps. -/
structure Carried (workshop : Workshop μ) (P : Progress μ → Prop) : Prop where
  scan : ∀ {path v p b q}, scan workshop path v p = some (.ok b, q) → P p → P q
  fresh : ∀ {p}, P p → P p.fresh

theorem Kept.carried (hK : Kept workshop Inv) : Carried workshop Inv :=
  ⟨fun h hp => (hK.scan h hp).1, hK.fresh⟩

variable {P : Progress μ → Prop}

namespace Carried

theorem scanFields (hP : Carried workshop P) {es : List (String × Value)} {b : Bool}
    (h : Composing.scanFields workshop path es p = some (.ok b, q)) (hp : P p) : P q := by
  induction es generalizing p b with
  | nil =>
      obtain ⟨-, rfl⟩ := scanFields_nil_eq_ok.mp h
      exact hp
  | cons e es ih =>
      obtain ⟨here, there, r, hhere, hthere, -⟩ := scanFields_cons_eq_ok.mp h
      exact ih hthere (hP.scan hhere hp)

theorem passed (hP : Carried workshop P) (h : Passed workshop worklist p q) (hp : P p) : P q := by
  induction h with
  | nil => exact hp
  | gone hgone hrest ih => exact ih hp
  | scanned hget hscan hrest ih => exact ih (hP.scan hscan hp)

end Carried

theorem MeetsEntries.carried_of_node (hP : Carried workshop P) {es : List (String × Value)}
    (hnode : ∀ e ∈ es, ∀ path p, MeetsNode workshop site s path e.2 p → P p → P s)
    (h : MeetsEntries workshop site s path es p) (hp : P p) : P s := by
  induction es generalizing p with
  | nil => cases h
  | cons e es ih =>
      obtain ⟨he, hes⟩ := List.forall_mem_cons.mp hnode
      cases h with
      | first h => exact he _ _ h hp
      | later hscan h => exact ih hes h (hP.scan hscan hp)

theorem MeetsNode.carried (hP : Carried workshop P) (v : Value) : ∀ path p,
    MeetsNode workshop site s path v p → P p → P s := by
  induction v using Value.entries_induction with
  | node v ih =>
      intro path p h hp
      cases h with
      | inside hdone hroot h => exact h.carried_of_node hP ih hp
      | here hdone hdirective hroot hscan => exact hP.scanFields hscan hp

theorem MeetsPass.carried (hP : Carried workshop P) (h : MeetsPass workshop site s worklist p)
    (hp : P p) : P s := by
  induction h with
  | first hhas hget h => exact h.carried hP _ _ _ hp
  | gone hgone h ih => exact ih hp
  | later hhas hget hscan h ih => exact ih (hP.scan hscan hp)

/-- **What looking through nodes keeps holds whenever a directive is met.** -/
theorem Meets.carried (hP : Carried workshop P) (h : Meets workshop site s worklist p) (hp : P p) :
    P s := by
  induction h with
  | now h => exact h.carried hP (hP.fresh hp)
  | next hround h ih => exact ih (hP.passed (round_eq_next hround).1 (hP.fresh hp))

/-! ### Passes that never end -/

theorem bind_eq_none {α β : Type} {x : Composing μ α} {f : α → Composing μ β} :
    (x >>= f) p = none ↔ x p = none ∨ ∃ a q, x p = some (.ok a, q) ∧ f a q = none := by
  show (x p).bind _ = none ↔ _
  rcases x p with _ | ⟨fault | a, q⟩
  · simp
  · show some (Except.error fault, q) = none ↔ _
    simp
  · show f a q = none ↔ _
    simp

theorem remembering_eq_none {α : Type} {act : ExceptT Fault (StateT μ Option) α} :
    remembering path act p = none ↔ act p.memory = none := by
  unfold remembering
  rcases act p.memory with _ | ⟨fault | a, memory⟩ <;> simp

theorem pure_ne_none {α : Type} (a : α) : (pure a : Composing μ α) p ≠ none :=
  Option.some_ne_none _

theorem get_ne_none : (get : Composing μ (Progress μ)) p ≠ none :=
  Option.some_ne_none _

theorem liftM_ne_none (x : Except Fault Value) : (liftM x : Composing μ Value) p ≠ none := by
  cases x <;> exact Option.some_ne_none _

theorem exists_meetsEntries_of_none {es : List (String × Value)}
    (hscan : ∀ e ∈ es, ∀ path p, scan workshop path e.2 p = none →
      ∃ site s, MeetsNode workshop site s path e.2 p ∧ invoke workshop site s = none)
    (h : scanFields workshop path es p = none) :
    ∃ site s, MeetsEntries workshop site s path es p ∧ invoke workshop site s = none := by
  induction es generalizing p with
  | nil =>
      rw [scanFields] at h
      exact absurd h (pure_ne_none false)
  | cons e es ih =>
      obtain ⟨token, v⟩ := e
      obtain ⟨he, hes⟩ := List.forall_mem_cons.mp hscan
      rw [scanFields] at h
      obtain hhere | ⟨here, q, hhere, h⟩ := bind_eq_none.mp h
      · obtain ⟨site, s, hmeets, hnone⟩ := he _ _ hhere
        exact ⟨site, s, .first hmeets, hnone⟩
      obtain hthere | ⟨there, r, hthere, h⟩ := bind_eq_none.mp h
      · obtain ⟨site, s, hmeets, hnone⟩ := ih hes hthere
        exact ⟨site, s, .later hhere hmeets, hnone⟩
      · exact absurd h (pure_ne_none (here || there))

theorem exists_meetsNode_of_none (v : Value) : ∀ path p, scan workshop path v p = none →
    ∃ site s, MeetsNode workshop site s path v p ∧ invoke workshop site s = none := by
  induction v using Value.entries_induction with
  | node v ih =>
      intro path p h
      rw [scan_eq] at h
      split at h
      · exact absurd h (by simp)
      rename_i hdone
      split at h
      · rename_i hdirective
        split at h
        · exact absurd h (by simp)
        rename_i hroot
        obtain hfields | ⟨inside, q, hfields, h⟩ := bind_eq_none.mp h
        · obtain ⟨site, s, hmeets, hnone⟩ := exists_meetsEntries_of_none ih hfields
          exact ⟨site, s, .inside hdone (fun _ => hroot) hmeets, hnone⟩
        · rw [ite_apply] at h
          cases inside with
          | true => exact absurd h (by simp [again])
          | false => exact ⟨path, q, .here hdone hdirective hroot hfields, h⟩
      · rename_i hplain
        obtain ⟨site, s, hmeets, hnone⟩ := exists_meetsEntries_of_none ih h
        exact ⟨site, s, .inside hdone (fun hdirective => absurd hdirective hplain) hmeets, hnone⟩

/-- **A pass that never ends has come to a directive whose handing over never ends.** -/
theorem exists_meetsPass_of_none (h : pass workshop worklist p = none) :
    ∃ site s, MeetsPass workshop site s worklist p ∧ invoke workshop site s = none := by
  induction worklist generalizing p with
  | nil => exact absurd h (pure_ne_none ())
  | cons path rest ih =>
      rw [pass] at h
      obtain hget | ⟨q, _, hget, h⟩ := bind_eq_none.mp h
      · exact absurd hget get_ne_none
      obtain ⟨rfl, rfl⟩ := get_eq_ok.mp hget
      rw [ite_apply] at h
      split at h
      · rename_i hhas
        obtain hlift | ⟨v, _, hlift, h⟩ := bind_eq_none.mp h
        · exact absurd hlift (liftM_ne_none _)
        obtain ⟨hv, rfl⟩ := liftM_eq_ok.mp hlift
        obtain hscan | ⟨b, r, hscan, h⟩ := bind_eq_none.mp h
        · obtain ⟨site, s, hmeets, hnone⟩ := exists_meetsNode_of_none v path _ hscan
          exact ⟨site, s, .first hhas hv hmeets, hnone⟩
        · obtain ⟨site, s, hmeets, hnone⟩ := ih h
          exact ⟨site, s, .later hhas hv hscan hmeets, hnone⟩
      · obtain ⟨site, s, hmeets, hnone⟩ := ih h
        exact ⟨site, s, .gone (Bool.eq_false_iff.mpr ‹_›) hmeets, hnone⟩

theorem write_ne_none (v : Value) : write path v p ≠ none := by
  cases hupdate : p.document.update (.plain path) v <;>
    cases hget : p.document.get (.plain path) <;> simp only [write, hget, hupdate] <;>
    split <;> exact Option.some_ne_none _

/-- What keeps a directive from being handed over to the end is a document of its own. -/
theorem exists_separate_of_none (h : invoke workshop path p = none) :
    ∃ directive handler v memory, p.document.get (.plain path) = .ok (.map directive) ∧
      Handler.find? workshop.handlers directive = some handler ∧
      handler.compose directive (contextAt workshop path p) p.memory = (.ok (.separate v), memory) ∧
      workshop.separately p.document.backend v memory = none := by
  simp only [invoke] at h
  split at h
  · exact absurd h (by simp)
  split at h
  · rename_i directive hget
    split at h
    · exact absurd h (by simp)
    · rename_i handler hfind
      split at h
      · rename_i outcome memory hcompose
        refine ⟨directive, handler, ?_⟩
        cases outcome with
        | retry => exact absurd h (by simp [settle, again])
        | success v =>
            obtain hwrite | ⟨⟨⟩, q, -, h⟩ := bind_eq_none.mp h
            · exact absurd hwrite (write_ne_none v)
            · rw [ite_apply] at h
              split at h
              · exact absurd h (by simp [again])
              · exact absurd h (pure_ne_none false)
        | completed v =>
            obtain hwrite | ⟨⟨⟩, q, -, h⟩ := bind_eq_none.mp h
            · exact absurd hwrite (write_ne_none v)
            · exact absurd h (by simp [complete])
        | separate v =>
            refine ⟨v, memory, hget, hfind, hcompose, ?_⟩
            obtain hnone | ⟨_, _, hget, h⟩ := bind_eq_none.mp h
            · exact absurd hnone get_ne_none
            obtain ⟨rfl, rfl⟩ := get_eq_ok.mp hget
            obtain hseparately | ⟨w, q, -, h⟩ := bind_eq_none.mp h
            · exact remembering_eq_none.mp hseparately
            obtain hwrite | ⟨⟨⟩, q, -, h⟩ := bind_eq_none.mp h
            · exact absurd hwrite (write_ne_none w)
            · exact absurd h (by simp [complete])
      · exact absurd h (by simp)
  · exact absurd h (by simp)

end Composing

end Docweave
