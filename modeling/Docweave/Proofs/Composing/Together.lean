import Docweave.Proofs.Composing.Meeting

/-!
Runs that go together.

Two runs over the same document, with handlers that answer alike but remember different things, go
through the same states but for what is remembered.  Actions go `Together` if both never end, both
end with the same answer, or both end in faults; a relation between the memories and one between the
faults are parameters.  That handlers answer alike is asked for only where the first of the runs
hands a directive over, in its document or in one that is composed on its own
(`Run.together`).

With a relation that no memory needs to satisfy, this says what does not depend on the memory; with
equality and a property, that the property is kept (`Run.memory_of_result`).
-/

namespace Docweave

/-- The state with something else remembered. -/
def Progress.withMemory {μ ν : Type} (progress : Progress μ) (memory : ν) : Progress ν where
  document := progress.document
  completed := progress.completed
  memory := memory
  revisit := progress.revisit
  changed := progress.changed

namespace Composing

variable {μ ν σ τ α β : Type} {Q : Fault → Fault → Prop} {R : μ → ν → Prop}

/-- States that differ in what is remembered alone. -/
inductive Agree (R : μ → ν → Prop) : Progress μ → Progress ν → Prop
  | intro {p : Progress μ} {n : ν} (h : R p.memory n) : Agree R p (p.withMemory n)

theorem Agree.memory {p : Progress μ} {p' : Progress ν} (h : Agree R p p') :
    R p.memory p'.memory := by
  obtain ⟨h⟩ := h
  exact h

/-- What two actions come to that go together. -/
inductive Together (Q : Fault → Fault → Prop) (S : σ → τ → Prop) :
    Option (Except Fault α × σ) → Option (Except Fault α × τ) → Prop
  | never : Together Q S none none
  | ok {a : α} {s : σ} {t : τ} (h : S s t) : Together Q S (some (.ok a, s)) (some (.ok a, t))
  | fault {f g : Fault} {s : σ} {t : τ} (hfault : Q f g) (h : S s t) :
      Together Q S (some (.error f, s)) (some (.error g, t))

/-- A relation between faults that does not look at where they have happened. -/
structure Likens (Q : Fault → Fault → Prop) : Prop where
  refl : ∀ f, Q f f
  composition : ∀ {pointer f g}, Q f g → Q (.composition pointer f) (.composition pointer g)

theorem likens_eq : Likens Eq :=
  ⟨fun _ => rfl, fun h => congrArg _ h⟩

theorem likens_true : Likens fun _ _ => True :=
  ⟨fun _ => trivial, fun _ => trivial⟩

variable {workshop : Workshop μ} {workshop' : Workshop ν} {handover : Handover μ}
  {handover' : Handover ν} {p q s : Progress μ} {n : ν} {path site : Path} {worklist : List Path}

/-- Handing over what is at a site goes together, whatever related memory there is. -/
def HandedTogether (Q : Fault → Fault → Prop) (R : μ → ν → Prop) (handover : Handover μ)
    (handover' : Handover ν) (site : Path) (s : Progress μ) : Prop :=
  ∀ n, R s.memory n →
    Together Q (Agree R) (handover.invoke site s) (handover'.invoke site (s.withMemory n))

namespace Together

theorem map {γ : Type} {σ' τ' : Type} {S : σ → τ → Prop} {S' : σ' → τ' → Prop}
    {x : Option (Except Fault α × σ)} {y : Option (Except Fault α × τ)}
    {f : Except Fault α × σ → Except Fault γ × σ'} {g : Except Fault α × τ → Except Fault γ × τ'}
    (h : Together Q S x y)
    (hok : ∀ a s t, S s t → Together Q S' (some (f (.ok a, s))) (some (g (.ok a, t))))
    (hfault : ∀ e e' s t, Q e e' → S s t →
      Together Q S' (some (f (.error e, s))) (some (g (.error e', t)))) :
    Together Q S' (x.map f) (y.map g) := by
  cases h with
  | never => exact .never
  | ok h => exact hok _ _ _ h
  | fault hQ h => exact hfault _ _ _ _ hQ h

/-- Where both end, what they have come to is related. -/
theorem related {S : σ → τ → Prop} {result result' : Except Fault α} {s : σ} {t : τ}
    (h : Together Q S (some (result, s)) (some (result', t))) : S s t := by
  cases h with
  | ok h => exact h
  | fault _ h => exact h

/-- Answers that are the same go together. -/
theorem of_fst_eq (hQ : Likens Q) {S : σ → τ → Prop} {x : Except Fault α × σ}
    {y : Except Fault α × τ} (h : x.1 = y.1) (hS : S x.2 y.2) :
    Together Q S (some x) (some y) := by
  obtain ⟨fault | a, s⟩ := x <;> obtain ⟨_, t⟩ := y <;> obtain rfl := h
  · exact .fault (hQ.refl fault) hS
  · exact .ok hS

/-! ### Actions -/

theorem pure (a : α) (h : R p.memory n) :
    Together Q (Agree R) ((Pure.pure a : Composing μ α) p) ((Pure.pure a : Composing ν α)
      (p.withMemory n)) :=
  .ok (.intro h)

theorem again (path : Path) (h : R p.memory n) :
    Together Q (Agree R) (Composing.again path p) (Composing.again path (p.withMemory n)) :=
  .ok (.intro (p := p.noting path) h)

theorem complete (path : Path) (h : R p.memory n) :
    Together Q (Agree R) (Composing.complete path p) (Composing.complete path (p.withMemory n)) :=
  .ok (.intro (p := p.finishing path) h)

theorem bind {x : Composing μ α} {y : Composing ν α} {f : α → Composing μ β}
    {g : α → Composing ν β} {p' : Progress ν} (hxy : Together Q (Agree R) (x p) (y p'))
    (hfg : ∀ a q n, x p = some (.ok a, q) → R q.memory n →
      Together Q (Agree R) (f a q) (g a (q.withMemory n))) :
    Together Q (Agree R) ((x >>= f) p) ((y >>= g) p') := by
  show Together Q (Agree R) ((x p).bind _) ((y p').bind _)
  generalize hx : x p = xp at hxy
  generalize hy : y p' = yp at hxy
  cases hxy with
  | never => exact .never
  | fault hQ h => exact .fault hQ h
  | ok h =>
      obtain ⟨h⟩ := h
      exact hfg _ _ _ hx h

theorem write (hQ : Likens Q) (path : Path) (v : Value) (h : R p.memory n) :
    Together Q (Agree R) (Composing.write path v p) (Composing.write path v (p.withMemory n)) := by
  have hdocument : (p.withMemory n).document = p.document := rfl
  let shrunk : Progress μ :=
    { p with completed := p.completed.filter fun done => !done.isWithin path }
  cases hupdate : p.document.update (.plain path) v with
  | error refusal =>
      have hrefused : Together Q (Agree R)
          (some ((.error refusal : Except Fault Unit), shrunk))
          (some (.error refusal, shrunk.withMemory n)) :=
        .fault (hQ.refl refusal) (.intro (p := shrunk) h)
      simp only [Composing.write, hdocument, hupdate]
      split
      · split
        · exact .ok (.intro h)
        · exact hrefused
      · exact hrefused
  | ok document =>
      have hwritten : Together Q (Agree R)
          (some ((.ok () : Except Fault Unit), { shrunk with document, changed := true }))
          (some (.ok (), { shrunk.withMemory n with document, changed := true })) :=
        .ok (.intro (p := { shrunk with document, changed := true }) h)
      simp only [Composing.write, hdocument, hupdate]
      split
      · split
        · exact .ok (.intro h)
        · exact hwritten
      · exact hwritten

theorem remembering (hQ : Likens Q) (path : Path) {act : ExceptT Fault (StateT μ Option) α}
    {act' : ExceptT Fault (StateT ν Option) α} (h : Together Q R (act p.memory) (act' n)) :
    Together Q (Agree R) (Composing.remembering path act p)
      (Composing.remembering path act' (p.withMemory n)) := by
  have hmemory : (p.withMemory n).memory = n := rfl
  simp only [Composing.remembering, hmemory]
  generalize act p.memory = x at h
  generalize act' n = y at h
  cases h with
  | never => exact .never
  | @ok a memory memory' h => exact .ok (.intro (p := { p with memory }) h)
  | @fault f g memory memory' hfault h =>
      exact .fault (hQ.composition hfault) (.intro (p := { p with memory }) h)

/-- What handlers answer is done together, if documents of their own are composed together. -/
theorem settle (hQ : Likens Q) (path : Path) (outcome : Outcome) (h : R p.memory n)
    (hseparately : ∀ v, outcome = .separate v →
      Together Q R (workshop.separately p.document.backend v p.memory)
        (workshop'.separately p.document.backend v n)) :
    Together Q (Agree R) (Composing.settle workshop path outcome p)
      (Composing.settle workshop' path outcome (p.withMemory n)) := by
  cases outcome with
  | retry => exact again path h
  | success v =>
      refine bind (write hQ path v h) fun _ q m _ hq => ?_
      split
      · exact again path hq
      · exact pure false hq
  | completed v => exact bind (write hQ path v h) fun _ q m _ hq => complete path hq
  | separate v =>
      refine bind (remembering hQ path (hseparately v rfl)) fun w q m _ hq => ?_
      exact bind (write hQ path w hq) fun _ r l _ hr => complete path hr

/-- A directive is handed over together if the handlers that take it answer alike. -/
theorem invoke (hQ : Likens Q)
    (hanswers : ∀ directive, s.document.get (.plain site) = .ok (.map directive) →
      (Handler.find? workshop.handlers directive = none ∧
        Handler.find? workshop'.handlers directive = none) ∨
      ∃ handler handler', Handler.find? workshop.handlers directive = some handler ∧
        Handler.find? workshop'.handlers directive = some handler' ∧
        Together Q R (some (handler.compose directive (contextAt workshop site s) s.memory))
          (some (handler'.compose directive (contextAt workshop' site (s.withMemory n)) n)) ∧
        ∀ v memory memory', handler.compose directive (contextAt workshop site s) s.memory =
            (.ok (.separate v), memory) → R memory memory' →
          Together Q R (workshop.separately s.document.backend v memory)
            (workshop'.separately s.document.backend v memory'))
    (h : R s.memory n) :
    Together Q (Agree R) (Composing.invoke workshop site s)
      (Composing.invoke workshop' site (s.withMemory n)) := by
  have hdocument : (s.withMemory n).document = s.document := rfl
  have hmemory : (s.withMemory n).memory = n := rfl
  simp only [Composing.invoke, hdocument, hmemory]
  cases hget : s.document.get (.plain site) with
  | error fault => exact .fault (hQ.refl fault) (.intro h)
  | ok v =>
  cases v with
  | map directive =>
      obtain ⟨hfind, hfind'⟩ | ⟨handler, handler', hfind, hfind', hanswer, hseparately⟩ :=
        hanswers directive hget
      · simp only [hfind, hfind']
        exact .ok (.intro h)
      · simp only [hfind, hfind']
        simp only [contextAt, hdocument] at hanswer hseparately
        generalize handler.compose directive _ s.memory = x at hanswer hseparately
        generalize handler'.compose directive _ n = y at hanswer
        cases hanswer with
        | @ok outcome memory memory' hR =>
            refine settle hQ site outcome (p := { s with memory }) hR fun v hv => ?_
            subst hv
            exact hseparately v memory memory' rfl hR
        | @fault f g memory memory' hfault hR =>
            exact .fault (hQ.composition hfault) (.intro (p := { s with memory }) hR)
  | _ => exact .ok (.intro h)

/-- Entries are looked through together if each of them is. -/
theorem scanFields {es : List (String × Value)}
    (hscan : ∀ e ∈ es, ∀ path p n, R p.memory n →
      (∀ site s, MeetsNode handover site s path e.2 p →
        HandedTogether Q R handover handover' site s) →
      Together Q (Agree R) (Composing.scan handover path e.2 p)
        (Composing.scan handover' path e.2 (p.withMemory n)))
    (h : R p.memory n)
    (hmeets : ∀ site s, MeetsEntries handover site s path es p →
      HandedTogether Q R handover handover' site s) :
    Together Q (Agree R) (Composing.scanFields handover path es p)
      (Composing.scanFields handover' path es (p.withMemory n)) := by
  induction es generalizing p n with
  | nil =>
      rw [Composing.scanFields, Composing.scanFields]
      exact pure false h
  | cons e es ih =>
      obtain ⟨token, v⟩ := e
      obtain ⟨he, hes⟩ := List.forall_mem_cons.mp hscan
      rw [Composing.scanFields, Composing.scanFields]
      refine bind (he _ p n h fun site s hs => hmeets site s (.first hs)) fun here q m hq hm => ?_
      refine bind (ih hes hm fun site s hs => hmeets site s (.later hq hs)) fun there r l _ hl => ?_
      exact pure (here || there) hl

variable (hQ : Likens Q) (hmarkers : handover'.markers = handover.markers)

include hQ hmarkers

/-- **A node is looked through together if what is met in it is handed over together.** -/
theorem scan (v : Value) :
    ∀ path p n, R p.memory n →
      (∀ site s, MeetsNode handover site s path v p →
        HandedTogether Q R handover handover' site s) →
      Together Q (Agree R) (Composing.scan handover path v p)
        (Composing.scan handover' path v (p.withMemory n)) := by
  induction v using Value.entries_induction with
  | node v ih =>
      intro path p n h hmeets
      have hcompleted : (p.withMemory n).completed = p.completed := rfl
      rw [scan_eq, scan_eq, hmarkers, hcompleted]
      by_cases hdone : path ∈ p.completed
      · rw [if_pos hdone, if_pos hdone]
        exact .ok (.intro h)
      rw [if_neg hdone, if_neg hdone]
      have hentries : ∀ (_ : isDirective handover.markers v = true → path ≠ []),
          Together Q (Agree R) (Composing.scanFields handover path v.entries p)
            (Composing.scanFields handover' path v.entries (p.withMemory n)) := fun hroot =>
        scanFields ih h fun site s hs => hmeets site s (.inside hdone hroot hs)
      by_cases hdirective : isDirective handover.markers v = true
      · rw [if_pos hdirective, if_pos hdirective]
        by_cases hroot : path = []
        · rw [if_pos hroot, if_pos hroot]
          exact .fault (hQ.refl _) (.intro h)
        rw [if_neg hroot, if_neg hroot]
        refine bind (hentries fun _ => hroot) fun inside q m hq hm => ?_
        cases inside with
        | true => exact again path hm
        | false => exact hmeets path q (.here hdone hdirective hroot hq) m hm
      · rw [if_neg hdirective, if_neg hdirective]
        exact hentries fun h => absurd h hdirective

/-- A pass goes together. -/
theorem pass (h : R p.memory n)
    (hmeets : ∀ site s, MeetsPass handover site s worklist p →
      HandedTogether Q R handover handover' site s) :
    Together Q (Agree R) (Composing.pass handover worklist p)
      (Composing.pass handover' worklist (p.withMemory n)) := by
  induction worklist generalizing p n with
  | nil => exact pure () h
  | cons path rest ih =>
      have hdocument : (p.withMemory n).document = p.document := rfl
      rw [pass_cons, pass_cons, hdocument]
      split
      · next hhas =>
          cases hget : p.document.get (.plain path) with
          | error fault => exact .fault (hQ.refl fault) (.intro h)
          | ok v =>
              have hnode := scan hQ hmarkers v path p n h fun site s hs =>
                hmeets site s (.first hhas hget hs)
              refine bind (x := Composing.scan handover path v)
                (y := Composing.scan handover' path v) hnode fun b q m hq hm => ?_
              exact ih hm fun site s hs => hmeets site s (.later hhas hget hq hs)
      · next hgone =>
          exact ih h fun site s hs => hmeets site s (.gone (Bool.eq_false_iff.mpr hgone) hs)

end Together

/-! ### Runs -/

/-- What two passes leave to be done that go together. -/
inductive RoundsTogether (Q : Fault → Fault → Prop) (R : μ → ν → Prop) :
    Option (Round μ) → Option (Round ν) → Prop
  | never : RoundsTogether Q R none none
  | ended {result result' : Except Fault Unit} {p : Progress μ} {p' : Progress ν}
      (h : Together Q (Agree R) (some (result, p)) (some (result', p'))) :
      RoundsTogether Q R (some (.ended result p)) (some (.ended result' p'))
  | next {worklist : List Path} {p : Progress μ} {n : ν} (h : R p.memory n) :
      RoundsTogether Q R (some (.next worklist p)) (some (.next worklist (p.withMemory n)))

theorem verdict_together (hQ : Likens Q) (worklist : List Path) (h : R p.memory n) :
    RoundsTogether Q R (some (verdict worklist p)) (some (verdict worklist (p.withMemory n))) := by
  have hleft : (p.withMemory n).revisit = p.revisit := rfl
  have hchanged : (p.withMemory n).changed = p.changed := rfl
  have hdocument : (p.withMemory n).document = p.document := rfl
  simp only [verdict, hleft, hchanged, hdocument]
  split
  · exact .ended (.ok (.intro h))
  split
  · exact .ended (.fault (hQ.refl _) (.intro h))
  · exact .next h

section

variable (hQ : Likens Q) (hmarkers : handover'.markers = handover.markers)

include hQ hmarkers

theorem round_together (h : R p.memory n)
    (hmeets : ∀ site s, MeetsPass handover site s worklist p.fresh →
      HandedTogether Q R handover handover' site s) :
    RoundsTogether Q R (round handover worklist p) (round handover' worklist (p.withMemory n)) := by
  have hpass : Together Q (Agree R) (pass handover worklist p.fresh)
      (pass handover' worklist (p.withMemory n).fresh) :=
    Together.pass (p := p.fresh) hQ hmarkers h hmeets
  generalize hx : pass handover worklist p.fresh = x at hpass
  generalize hy : pass handover' worklist (p.withMemory n).fresh = y at hpass
  cases hpass with
  | never =>
      rw [round_of_none hx, round_of_none hy]
      exact .never
  | fault hfault h =>
      rw [round_of_fault hx, round_of_fault hy]
      exact .ended (.fault hfault h)
  | ok h =>
      obtain ⟨h⟩ := h
      rw [round_of_pass hx, round_of_pass hy]
      exact verdict_together hQ worklist h

variable {end_ : Except Fault Unit × Progress μ} {end' : Except Fault Unit × Progress ν}

/-- A run that ends has one that goes with it. -/
theorem Ran.together (hran : Ran handover worklist p end_) (h : R p.memory n)
    (hmeets : ∀ site s, Meets handover site s worklist p →
      HandedTogether Q R handover handover' site s) :
    ∃ end', Ran handover' worklist (p.withMemory n) end' ∧
      Together Q (Agree R) (some end_) (some end') := by
  induction hran generalizing n with
  | ended hround =>
      have hrounds := round_together hQ hmarkers h fun site s hs => hmeets site s (.now hs)
      rw [hround] at hrounds
      generalize hround' : round handover' _ _ = y at hrounds
      cases hrounds with
      | ended htogether => exact ⟨_, .ended hround', htogether⟩
  | next hround hrest ih =>
      have hrounds := round_together hQ hmarkers h fun site s hs => hmeets site s (.now hs)
      rw [hround] at hrounds
      generalize hround' : round handover' _ _ = y at hrounds
      cases hrounds with
      | next h =>
          obtain ⟨end', hran', htogether⟩ := ih h fun site s hs => hmeets site s (.next hround hs)
          exact ⟨end', .next hround' hran', htogether⟩

/-- A run that goes with one that ends comes to an end. -/
theorem Ran.of_together (hran : Ran handover' worklist (p.withMemory n) end') (h : R p.memory n)
    (hmeets : ∀ site s, Meets handover site s worklist p →
      HandedTogether Q R handover handover' site s) : ∃ end_, Ran handover worklist p end_ := by
  generalize hp' : p.withMemory n = p' at hran
  induction hran generalizing p n with
  | ended hround' =>
      subst hp'
      have hrounds := round_together hQ hmarkers h fun site s hs => hmeets site s (.now hs)
      rw [hround'] at hrounds
      generalize hround : round handover _ _ = x at hrounds
      cases hrounds with
      | ended htogether => exact ⟨_, .ended hround⟩
  | next hround' hrest ih =>
      subst hp'
      have hrounds := round_together hQ hmarkers h fun site s hs => hmeets site s (.now hs)
      rw [hround'] at hrounds
      generalize hround : round handover _ _ = x at hrounds
      cases hrounds with
      | next h =>
          obtain ⟨end_, hran⟩ := ih h (fun site s hs => hmeets site s (.next hround hs)) rfl
          exact ⟨end_, .next hround hran⟩

/-- Passes go together. -/
theorem passes_together (h : R p.memory n)
    (hmeets : ∀ site s, Meets handover site s worklist p →
      HandedTogether Q R handover handover' site s) :
    Together Q (Agree R) (passes handover worklist p)
      (passes handover' worklist (p.withMemory n)) := by
  cases hpasses : passes handover worklist p with
  | some end_ =>
      obtain ⟨end', hran', htogether⟩ :=
        (passes_eq_some_iff.mp hpasses).together hQ hmarkers h hmeets
      rwa [passes_eq_some_iff.mpr hran']
  | none =>
      cases hpasses' : passes handover' worklist (p.withMemory n) with
      | none => exact .never
      | some end' =>
          obtain ⟨end_, hran⟩ :=
            (passes_eq_some_iff.mp hpasses').of_together hQ hmarkers h hmeets
          rw [passes_eq_some_iff.mpr hran] at hpasses
          exact absurd hpasses (by simp)

end

/-! ### Documents of their own -/

/-- The handlers that take a directive answer alike at a state. -/
def AnsweredTogether (Q : Fault → Fault → Prop) (R : μ → ν → Prop) (handlers' : List (Handler ν))
    (handler : Handler μ) (directive : Fields) (context : Context) (memory : μ) : Prop :=
  ∃ handler', Handler.find? handlers' directive = some handler' ∧
    ∀ n, R memory n →
      Together Q R (some (handler.compose directive context memory))
        (some (handler'.compose directive context n))

namespace Run

/-- The run with other handlers, which remember something else. -/
def exchanged (run : Run μ) (handlers : List (Handler ν)) (maxDepth : Nat) (memory : ν) :
    Run ν where
  handlers := handlers
  setting := run.setting
  maxDepth := maxDepth
  levels := run.levels
  worklist := run.worklist
  progress := run.progress.withMemory memory

variable {run : Run μ} {handlers' : List (Handler ν)} {maxDepth' : Nat} {backend : Backend}
  {v : Value} {memory : μ} {memory' : ν}

/-- Documents of their own are composed together if the runs over them go together. -/
theorem separately_together
    (hdepth : Q (.refused .root (.contextDepth run.maxDepth))
      (.refused .root (.contextDepth maxDepth')))
    (h : R memory memory')
    (hnested : ∀ levels, run.levels = levels + 1 →
      Together Q (Agree R) (run.nested levels backend v memory).result
        ((run.nested levels backend v memory).exchanged handlers' maxDepth' memory').result) :
    Together Q R (run.workshop.separately backend v memory)
      ((run.exchanged handlers' maxDepth' n).workshop.separately backend v memory') := by
  show Together Q R (separately _ _ _ run.levels _ v memory)
    (separately _ _ _ run.levels _ v memory')
  cases hlevels : run.levels with
  | zero => exact .fault hdepth h
  | succ levels =>
      rw [separately_succ run, separately_succ (run.exchanged handlers' maxDepth' n)]
      exact (hnested levels hlevels).map (fun _ _ _ ⟨hR⟩ => .ok hR)
        fun _ _ _ _ hfault ⟨hR⟩ => .fault hfault hR

/-- A directive is handed over together if it is answered alike. -/
theorem handedTogether (hQ : Likens Q)
    (hmarkers : Handler.markers handlers' = Handler.markers run.handlers)
    (hfind : ∀ directive, Handler.find? run.handlers directive = none →
      Handler.find? handlers' directive = none)
    (hanswers : ∀ directive handler, s.document.get (.plain site) = .ok (.map directive) →
      Handler.find? run.handlers directive = some handler →
      AnsweredTogether Q R handlers' handler directive (contextAt run.workshop site s) s.memory ∧
        ∀ v memory memory', handler.compose directive (contextAt run.workshop site s) s.memory =
            (.ok (.separate v), memory) → R memory memory' →
          Together Q R (run.workshop.separately s.document.backend v memory)
            ((run.exchanged handlers' maxDepth' n).workshop.separately s.document.backend v
              memory')) :
    HandedTogether Q R run.workshop (run.exchanged handlers' maxDepth' n).workshop site s := by
  refine fun m hm => Together.invoke hQ (fun directive hget => ?_) hm
  cases hhandler : Handler.find? run.handlers directive with
  | none => exact .inl ⟨hhandler, hfind directive hhandler⟩
  | some handler =>
      obtain ⟨⟨handler', hhandler', hanswer⟩, hseparately⟩ :=
        hanswers directive handler hget hhandler
      have hcontext : contextAt (run.exchanged handlers' maxDepth' n).workshop site
          (s.withMemory m) = contextAt run.workshop site s := by
        show (⟨s.document, site, Handler.markers handlers', run.setting⟩ : Context) = _
        rw [hmarkers]
        rfl
      exact .inr ⟨handler, handler', hhandler, hhandler', hcontext ▸ hanswer m hm, hseparately⟩

/-- **Runs go together if whatever the first of them comes to hand over, in its document or in one
composed on its own, is answered alike.** -/
theorem together (hQ : Likens Q)
    (hdepth : Q (.refused .root (.contextDepth run.maxDepth))
      (.refused .root (.contextDepth maxDepth')))
    (hmarkers : Handler.markers handlers' = Handler.markers run.handlers)
    (hfind : ∀ directive, Handler.find? run.handlers directive = none →
      Handler.find? handlers' directive = none)
    (hmeets : ∀ inner, run.Nests inner → ∀ site s directive handler,
      inner.Meets site s directive handler →
      AnsweredTogether Q R handlers' handler directive (contextAt inner.workshop site s) s.memory)
    (h : R run.progress.memory n) :
    Together Q (Agree R) run.result (run.exchanged handlers' maxDepth' n).result := by
  induction hlevels : run.levels using Nat.strong_induction_on generalizing run n with
  | _ _ ih =>
      refine passes_together hQ hmarkers h fun site s hs => ?_
      refine handedTogether hQ hmarkers hfind fun directive handler hget hhandler => ?_
      have hmeet : run.Meets site s directive handler := ⟨hs, hget, hhandler⟩
      refine ⟨hmeets run .self site s directive handler hmeet, ?_⟩
      intro v memory memory' hanswer hR
      refine separately_together hdepth hR fun levels hlevel => ?_
      have hnested := Nests.deeper .self hlevel hmeet hanswer
      exact ih levels (by omega) hdepth hmarkers hfind
        (fun inner hinner => hmeets inner (hnested.trans hinner)) hR rfl

end Run

end Composing

/-- Whatever the handler answers, what it remembers keeps a property. -/
def Handler.Preserves {μ : Type} (setting : Setting) (Inv : μ → Prop) (handler : Handler μ) :
    Prop :=
  ∀ directive context memory, context.setting = setting → Inv memory →
    Inv (handler.compose directive context memory).2

namespace Composing

/-! ### Properties of what is remembered -/

variable {μ : Type} {Inv : μ → Prop} {run inner : Run μ} {site : Path} {s q : Progress μ}
  {directive : Fields} {handler : Handler μ}

/-- A property as a relation between memories that are the same. -/
def Diagonal (Inv : μ → Prop) (memory memory' : μ) : Prop :=
  memory = memory' ∧ Inv memory

theorem Together.of_diagonal {α : Type} {x : Composing μ α} {p q : Progress μ}
    {result : Except Fault α} (h : Together Eq (Agree (Diagonal Inv)) (x p) (x p))
    (hx : x p = some (result, q)) : Inv q.memory := by
  rw [hx] at h
  exact h.related.memory.2

theorem answeredTogether_self {handlers : List (Handler μ)} {context : Context} {memory : μ}
    (hhandlers : ∀ handler ∈ handlers, handler.Preserves context.setting Inv)
    (hfind : Handler.find? handlers directive = some handler) :
    AnsweredTogether Eq (Diagonal Inv) handlers handler directive context memory := by
  refine ⟨handler, hfind, fun memory' ⟨heq, hmemory⟩ => ?_⟩
  subst heq
  exact .of_fst_eq likens_eq rfl ⟨rfl,
    hhandlers handler (List.mem_of_find?_eq_some hfind) directive context memory rfl hmemory⟩

namespace Run

theorem Nests.preserves (hinner : run.Nests inner)
    (hhandlers : ∀ handler ∈ run.handlers, handler.Preserves run.setting Inv) :
    ∀ handler ∈ inner.handlers, handler.Preserves inner.setting Inv := by
  rwa [hinner.handlers_eq, hinner.setting_eq]

theorem together_self (hhandlers : ∀ handler ∈ run.handlers, handler.Preserves run.setting Inv)
    (h : Inv run.progress.memory) :
    Together Eq (Agree (Diagonal Inv)) run.result run.result := by
  show Together _ _ _ (run.exchanged run.handlers run.maxDepth run.progress.memory).result
  exact together likens_eq rfl rfl (fun _ h => h)
    (fun _ hinner _ _ _ _ hmeets => hinner.handlers_eq ▸
      answeredTogether_self (hinner.preserves hhandlers) hmeets.find) ⟨rfl, h⟩

/-- **What every handler keeps is kept by a run, whatever its end.** -/
theorem memory_of_result {result : Except Fault Unit}
    (hhandlers : ∀ handler ∈ run.handlers, handler.Preserves run.setting Inv)
    (h : Inv run.progress.memory) (hresult : run.result = some (result, q)) : Inv q.memory := by
  have htogether := together_self hhandlers h
  rw [hresult] at htogether
  exact htogether.related.memory.2

theorem handedTogether_self
    (hhandlers : ∀ handler ∈ run.handlers, handler.Preserves run.setting Inv) (site : Path)
    (s : Progress μ) :
    HandedTogether Eq (Diagonal Inv) run.workshop run.workshop site s := by
  show HandedTogether _ _ _
    (run.exchanged run.handlers run.maxDepth run.progress.memory).workshop.handover _ _
  refine handedTogether likens_eq rfl (fun _ h => h)
    fun directive handler _ hfind => ⟨answeredTogether_self hhandlers hfind, ?_⟩
  rintro v memory memory' - ⟨rfl, hmemory⟩
  exact separately_together rfl ⟨rfl, hmemory⟩ fun levels _ => together_self hhandlers hmemory

/-- Looking through nodes keeps what every handler keeps. -/
theorem carried (hhandlers : ∀ handler ∈ run.handlers, handler.Preserves run.setting Inv) :
    Carried run.workshop fun p => Inv p.memory := by
  refine ⟨fun {path v p b q} hscan hp => ?_, fun hp => hp⟩
  exact (Together.scan (R := Diagonal Inv) likens_eq rfl v path p p.memory ⟨rfl, hp⟩
    fun site s _ => handedTogether_self hhandlers site s).of_diagonal hscan

/-- A pass keeps what every handler keeps, also if it fails. -/
theorem memory_of_pass (hhandlers : ∀ handler ∈ run.handlers, handler.Preserves run.setting Inv)
    {worklist : List Path} {p : Progress μ} {result : Except Fault Unit} (hp : Inv p.memory)
    (h : pass run.workshop worklist p = some (result, q)) : Inv q.memory :=
  (Together.pass (R := Diagonal Inv) (n := p.memory) likens_eq rfl ⟨rfl, hp⟩
    fun site s _ => handedTogether_self hhandlers site s).of_diagonal h

/-- What every handler keeps holds whenever a directive is met. -/
theorem memory_of_meets (hhandlers : ∀ handler ∈ run.handlers, handler.Preserves run.setting Inv)
    (h : Inv run.progress.memory) (hmeets : run.Meets site s directive handler) : Inv s.memory :=
  hmeets.meets.carried (carried hhandlers) h

theorem memory_of_nests (hhandlers : ∀ handler ∈ run.handlers, handler.Preserves run.setting Inv)
    (h : Inv run.progress.memory) (hinner : run.Nests inner) : Inv inner.progress.memory := by
  induction hinner with
  | self => exact h
  | @deeper run levels site s directive handler v memory hinner hlevels hmeets hanswer ih =>
      have hhandlers' := hinner.preserves hhandlers
      have hafter := hhandlers' handler (List.mem_of_find?_eq_some hmeets.find) directive
        (contextAt run.workshop site s) s.memory rfl (memory_of_meets hhandlers' ih hmeets)
      rw [hanswer] at hafter
      exact hafter

end Run

end Composing

end Docweave
