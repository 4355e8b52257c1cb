import Docweave.Proofs.Composing.Faults
import Docweave.Proofs.Composing.Repeating
import Docweave.Proofs.Composing.Termination
import Docweave.Proofs.Including.Contents
import Docweave.Proofs.References.Composing
import Mathlib

/-!
When composing gives up, and when it ends.

Composing gives up after a pass that has written nothing and has left the very worklist it began
with.  `Stall` is the state it is in then.  Its worklist goes through the start in document order,
so no directive that is left is overlooked (`Stall.covers`), and its pass can be repeated.
Composing again begins with the start itself and not with this worklist.  But what a first pass from
there notes is what the last pass has noted, so the second pass, if there is one, is over the same
worklist and the last one (`Stall.ran`).  Giving up is therefore final.

Composing gives up in time as well.  A pass ends if the documents do that are composed on their own
in it, and these are one level deeper, so by induction on the levels composing ends if in no
document infinitely many passes write (`Run.ends`).
-/

namespace Docweave

namespace Composing

variable {μ : Type} {workshop : Workshop μ} {Inv : Progress μ → Prop} {recalls : μ → Prop}
  {p q : Progress μ} {worklist : List Path} {start : Path} {nodes : List Leftover}

/-! ### Giving up -/

/-- The state after a pass that has written nothing and has left its worklist. -/
structure Stall (workshop : Workshop μ) (recalls : μ → Prop) (start : Path) (worklist : List Path)
    (q : Progress μ) : Prop where
  lined : LinedFrom workshop start worklist q
  nonempty : worklist ≠ []
  apart : worklist.Pairwise fun a b => ¬ a <+: b ∧ ¬ b <+: a
  left : leftOver q = worklist
  repeats : PassRepeats workshop recalls q.document q.completed worklist q.revisit

theorem LinedFrom.exists_node (h : LinedFrom workshop start worklist p)
    (hsound : p.document.Sound) :
    ∀ w ∈ worklist, (p.document.content.node? w).isSome = true := by
  obtain ⟨v, hn, hlined⟩ := h
  intro w hw
  obtain ⟨s, rfl, hs⟩ := hlined.exists_node (hsound.wellFormed.of_node? hn) w hw
  rwa [Value.node?_append, hn, Option.bind_some]

/-- **Composing gives up in a stall.** -/
theorem Ran.exists_stall (hK : Kept workshop Inv) (hP : Carried workshop fun p => recalls p.memory)
    (htaking : Handler.Taking workshop.handlers)
    (hsteady : ∀ handler ∈ workshop.handlers, handler.Steady workshop.setting recalls)
    (h : Ran workshop worklist p (.error (Fault.unresolvable nodes), q)) (hp : Inv p)
    (hrecalls : recalls p.memory) (hlined : LinedFrom workshop start worklist p) :
    ∃ worklist', Inv q ∧ recalls q.memory ∧ Stall workshop recalls start worklist' q ∧
      nodes = leftovers q.document worklist' := by
  generalize hend : (Except.error (Fault.unresolvable nodes), q) = end_ at h
  induction h with
  | @ended worklist p r result hround =>
      obtain ⟨rfl, rfl⟩ := Prod.mk.inj hend
      obtain ⟨hpass, hleft, hne, hchanged, hnodes⟩ := round_eq_unresolvable hround
      have hfresh := hK.fresh hp
      obtain ⟨-, hdocument⟩ := hpass.unchanged hK hfresh hchanged
      have hapart : worklist.Pairwise fun a b => ¬ a <+: b ∧ ¬ b <+: a :=
        hleft ▸ Worklist.pairwise_normalize _
      obtain ⟨extra, hextra, hrepeats⟩ := hpass.repeats hK hP htaking hsteady hfresh hrecalls
        hchanged hapart (hlined.exists_node (hK.sound hp))
      have hrevisit : q.revisit = extra := hextra.trans (List.append_nil extra)
      have hnext := hlined.passed hK htaking hpass hp
      rw [hleft] at hnext
      refine ⟨worklist, hK.passed hpass hfresh, hP.passed hpass (hP.fresh hrecalls),
        ⟨hnext, hne, hapart, hleft, ?_⟩, hnodes⟩
      rw [hrevisit, hdocument]
      exact hrepeats
  | @next worklist next p r end_ hround hrest ih =>
      obtain ⟨hpass, rfl, -⟩ := round_eq_next hround
      exact ih (hK.passed hpass (hK.fresh hp)) (hP.passed hpass (hP.fresh hrecalls))
        (hlined.passed hK htaking hpass hp) hend

/-- A state has the document and the completed nodes of another, whatever else is remembered. -/
structure Resumes (recalls : μ → Prop) (q p : Progress μ) : Prop where
  document : p.document = q.document
  completed : p.completed = q.completed
  memory : recalls p.memory

/-- A pass comes to the stall again. -/
def PassStalls (workshop : Workshop μ) (recalls : μ → Prop) (worklist : List Path)
    (q : Progress μ) (again : List Path) (p : Progress μ) : Prop :=
  ∃ r, pass workshop again p.fresh = some (.ok (), r) ∧ Resumes recalls q r ∧ r.changed = false ∧
    leftOver r = worklist

namespace Stall

variable (h : Stall workshop recalls start worklist q)

include h

theorem current (hsound : q.document.Sound) :
    ∀ node ∈ leftovers q.document worklist,
      q.document.content.node? node.pointer = some node.value := by
  intro node hnode
  obtain ⟨w, hw, rfl⟩ := List.mem_map.mp hnode
  obtain ⟨v, hv⟩ := Option.isSome_iff_exists.mp (h.lined.exists_node hsound w hw)
  have hget := (Store.get_plain_eq_ok_iff hsound).mpr hv
  simp only [Store.getD, hget, hv]

theorem covers {rest : Path} {directive : Value}
    (hn : q.document.content.node? (start ++ rest) = some directive)
    (hdirective : isDirective (Handler.markers workshop.handlers) directive = true) :
    (∃ done ∈ q.completed, start <+: done ∧ done <+: start ++ rest) ∨
      ∃ w ∈ worklist, w <+: start ++ rest := by
  obtain ⟨v, hv, hlined⟩ := h.lined
  rw [Value.node?_append, hv, Option.bind_some] at hn
  obtain ⟨c, hdone | hlisted, hlow, hhigh⟩ := hlined.covered.exists_above hn hdirective
  · exact .inl ⟨c, hdone, hlow, hhigh⟩
  · exact .inr ⟨c, hlisted, hhigh⟩

theorem leftOver_append {p : Progress μ} (hp : p.revisit = q.revisit ++ []) :
    leftOver p = worklist := by
  rw [leftOver, hp, List.append_nil]
  exact h.left

/-- The last pass can be made once more. -/
theorem pass_again (hsound : q.document.Sound) (hp : Resumes recalls q p) :
    PassStalls workshop recalls worklist q worklist p := by
  obtain ⟨memory, hmemory, hpass⟩ :=
    @PassRepeats.pass _ _ _ p.fresh _ _ _ _ h.repeats hsound hp.document hp.memory hp.completed
  exact ⟨{ p.fresh with memory, revisit := q.revisit ++ p.fresh.revisit }, hpass,
    ⟨hp.document, hp.completed, hmemory⟩, rfl, h.leftOver_append rfl⟩

/-- What a pass from the start notes is what the last pass has noted. -/
theorem pass_start (hsound : q.document.Sound) (hp : Resumes recalls q p) :
    PassStalls workshop recalls worklist q [start] p := by
  obtain ⟨v, hv, hlined⟩ := h.lined
  obtain ⟨b, memory, hmemory, hscan⟩ := @Lined.scan _ _ _ p.fresh _ _ _ _ _ _ hlined hsound hv
    h.repeats hp.document hp.memory hp.completed
  have hsoundp : p.fresh.document.Sound := hp.document ▸ hsound
  have hvp : p.fresh.document.content.node? start = some v := hp.document ▸ hv
  refine ⟨{ p.fresh with memory, revisit := q.revisit ++ p.fresh.revisit }, ?_,
    ⟨hp.document, hp.completed, hmemory⟩, rfl, h.leftOver_append rfl⟩
  rw [pass_cons_of_node hsoundp [] hvp]
  exact bind_eq_ok.mpr ⟨b, _, hscan, rfl⟩

/-- **Composing again comes to the same stall, whatever is remembered.** -/
theorem ran (hsound : q.document.Sound) (hp : Resumes recalls q p) :
    ∃ r, Ran workshop [start] p (.error (.unresolvable (leftovers q.document worklist)), r) ∧
      Resumes recalls q r := by
  obtain ⟨r, hpass, hr, hchanged, hleft⟩ := h.pass_start hsound hp
  have hround := round_of_pass hpass
  by_cases hstart : worklist = [start]
  · subst hstart
    rw [verdict_of_stall hleft h.nonempty hchanged, hr.document] at hround
    exact ⟨r, .ended hround, hr⟩
  · rw [verdict_of_ne (hleft ▸ h.nonempty) (hleft ▸ hstart), hleft] at hround
    obtain ⟨s, hpass, hs, hchanged, hleft⟩ := h.pass_again hsound hr
    have hlast := round_of_pass hpass
    rw [verdict_of_stall hleft h.nonempty hchanged, hs.document] at hlast
    exact ⟨s, .next hround (.ended hlast), hs⟩

end Stall

/-- Where a pass notes nothing composing ends without a fault. -/
theorem Ran.eq_ok_of_nothing {result : Except Fault Unit}
    (h : Ran workshop worklist p (result, q))
    (hpass : pass workshop worklist p.fresh = some (.ok (), p.fresh)) : result = .ok () := by
  have hround := round_of_pass hpass
  rw [verdict_of_nothing rfl] at hround
  generalize hend : (result, q) = end_ at h
  cases h with
  | ended hended =>
      obtain ⟨rfl, rfl⟩ := Prod.mk.inj hend
      exact (Round.ended.inj (Option.some.inj (hround.symm.trans hended))).1.symm
  | next hnext _ => exact absurd (hround.symm.trans hnext) (by simp)

/-! ### Coming to an end -/

/-- Rounds that never come about come to a directive whose handing over never ends. -/
theorem exists_meets_of_none {n : Nat} (h : rounds workshop worklist p n = none) :
    ∃ site s, Meets workshop site s worklist p ∧ invoke workshop site s = none := by
  induction n generalizing worklist p with
  | zero => exact absurd h (by simp [rounds])
  | succ n ih =>
      rw [Nat.add_comm, rounds_add, rounds_one] at h
      rcases hround : round workshop worklist p with _ | ⟨result, q⟩ | ⟨next, q⟩
      · have hpass : pass workshop worklist p.fresh = none := by
          rcases hpass : pass workshop.handover worklist p.fresh with _ | ⟨fault | _, q⟩
          · rfl
          · exact absurd (hround.symm.trans (round_of_fault hpass)) (by simp)
          · exact absurd (hround.symm.trans (round_of_pass hpass)) (by simp)
        obtain ⟨site, s, hmeets, hnone⟩ := exists_meetsPass_of_none hpass
        exact ⟨site, s, .now hmeets, hnone⟩
      · rw [hround] at h
        exact absurd h (by simp)
      · rw [hround] at h
        obtain ⟨site, s, hmeets, hnone⟩ := ih h
        exact ⟨site, s, .next hround hmeets, hnone⟩

/-- The passes of a run that write to the document and are not its last, by their number.  A pass
writes if it puts a value in the place of another one, also if it ends with the document it began
with. -/
def Run.writing (run : Run μ) : Set ℕ :=
  {n | ∃ next q, rounds run.workshop run.worklist run.progress (n + 1) = some (.next next q) ∧
    q.changed = true}

/-- **A run ends if in it, and in every run over a document of its own, only finitely many passes
write.** -/
theorem Run.ends {remembers : μ → Prop} {run : Run μ}
    (htidy : ∀ handler ∈ run.handlers, handler.Tidy remembers)
    (hproper : Proper remembers run.progress)
    (hfinite : ∀ inner, run.Nests inner → inner.writing.Finite) : run.result.isSome = true := by
  induction hlevels : run.levels using Nat.strong_induction_on generalizing run with
  | _ _ ih =>
      have hK : Kept run.workshop (Proper remembers) :=
        kept_of_tidy (separately_tidy htidy run.setting run.maxDepth run.levels)
      refine (passes_isSome_iff hK hproper).mpr ⟨fun n hnone => ?_, ?_⟩
      · obtain ⟨site, s, hmeets, hinvoke⟩ := exists_meets_of_none hnone
        obtain ⟨directive, handler, v, memory, hget, hfind, hanswer, hseparately⟩ :=
          exists_separate_of_none hinvoke
        have hs : Proper remembers s := hmeets.carried hK.carried hproper
        have hdirective : (Value.map directive).WellFormed :=
          hs.sound.wellFormed.of_node? ((Store.get_plain_eq_ok_iff hs.sound).mp hget)
        obtain ⟨hv, hmemory⟩ := htidy handler (List.mem_of_find?_eq_some hfind) hdirective hs.sound
          hs.memory hanswer
        have hnever : separately run.handlers run.setting run.maxDepth run.levels
            s.document.backend v memory = none := hseparately
        cases hlevel : run.levels with
        | zero =>
            rw [hlevel] at hnever
            exact absurd hnever (Option.some_ne_none _)
        | succ levels =>
            -- The document of its own is one level deeper, so its run ends.
            rw [hlevel, separately_succ] at hnever
            have hnested : run.Nests (run.nested levels s.document.backend v memory) :=
              .deeper .self hlevel ⟨hmeets, hget, hfind⟩ hanswer
            have hends := @ih levels (by omega)
              (run.nested levels s.document.backend v memory) htidy
              ⟨Store.sound_wrap hv s.document.backend, hmemory⟩
              (fun inner hinner => hfinite inner (hnested.trans hinner)) rfl
            rw [Option.map_eq_none_iff.mp hnever] at hends
            exact absurd hends (by simp)
      · obtain ⟨N, hN⟩ := Set.Finite.bddAbove (hfinite run .self)
        refine ⟨N + 1, fun n hn next q hround => ?_⟩
        obtain ⟨m, rfl⟩ : ∃ m, n = m + 1 := ⟨n - 1, by omega⟩
        by_contra hchanged
        have hmem : m ∈ run.writing := ⟨next, q, hround, Bool.of_not_eq_false hchanged⟩
        have hle := hN hmem
        omega

end Composing

/-- The standard handlers but that of made values answer alike whatever they remember of files. -/
theorem Handler.steady_of_mem_standard {σ : Type} {generators : Generators σ} {matchers : Matchers}
    {access : FileAccess} {setting : Setting} {handler : Handler (Memory σ)}
    (hmem : handler ∈ Handler.standard generators matchers access)
    (hmarker : handler.marker ≠ Directive.generatorMarker) :
    handler.Steady setting (Memory.Coherent setting.files) where
  keeps := Handler.coherent_of_mem_standard handler hmem
  same directive _ _ _ hsetting hm hm' :=
    Handler.answer_of_coherent hmem hmarker (hsetting ▸ hm) (hsetting ▸ hm') directive

namespace Composer

open Composing

variable {μ : Type} {composer composer' : Composer μ} {setting : Setting} {start : Pointer}
  {nodes : List Leftover}

/-- What composing comes to when it gives up on some nodes. -/
structure GivenUp (composer : Composer μ) (setting : Setting) (start : Pointer)
    (nodes : List Leftover) : Prop where
  nonempty : nodes ≠ []
  /-- No two of the nodes are the same, and none is below another. -/
  apart : nodes.Pairwise fun a b => ¬ a.pointer <+: b.pointer ∧ ¬ b.pointer <+: a.pointer
  current : ∀ node ∈ nodes, composer.store.content.node? node.pointer = some node.value
  covers : ∀ path rest directive, start.path? = some path →
    composer.store.content.node? (path ++ rest) = some directive →
    isDirective (Handler.markers composer.handlers) directive = true →
    (∃ done ∈ composer.completed, path <+: done ∧ done <+: path ++ rest) ∨
      ∃ node ∈ nodes, node.pointer <+: path ++ rest
  /-- Composing again gives up on the same nodes.  Handlers may remember something else afterwards,
  but nothing that they never come to remember. -/
  again : ∃ memory, composer.composeAt setting start =
      some (.error (.unresolvable nodes), { composer with memory }) ∧
    ∀ Inv : μ → Prop, (∀ handler ∈ composer.handlers, handler.Preserves setting Inv) →
      Inv composer.memory → Inv memory

theorem givenUp_of_stall {recalls : μ → Prop} {path : Path} {worklist : List Path}
    {q : Progress μ} (hpath : start.path? = some path) (hsound : q.document.Sound)
    (hrecalls : recalls q.memory)
    (h : Stall (composer.workshop setting) recalls path worklist q) :
    (composer.resume q).GivenUp setting start (leftovers q.document worklist) where
  nonempty := by
    rw [leftovers, Ne, List.map_eq_nil_iff]
    exact h.nonempty
  apart := List.pairwise_map.mpr h.apart
  current := h.current hsound
  covers := by
    intro path' rest directive hpath' hn hdirective
    obtain rfl := Option.some.inj (hpath.symm.trans hpath')
    refine (h.covers hn hdirective).imp id fun ⟨w, hw, hfront⟩ => ?_
    exact ⟨_, List.mem_map.mpr ⟨w, hw, rfl⟩, hfront⟩
  again := by
    obtain ⟨r, hran, hr⟩ :=
      h.ran hsound (p := (composer.resume q).progress) ⟨rfl, rfl, hrecalls⟩
    have hworklist : startWorklist start = [path] := by rw [startWorklist, hpath]
    have hran' : Ran ((composer.resume q).workshop setting) (startWorklist start)
        (composer.resume q).progress
        (.error (.unresolvable (leftovers q.document worklist)), r) := hworklist ▸ hran
    refine ⟨r.memory, ?_, fun Inv hhandlers hmemory => ?_⟩
    · rw [composeAt_of_ran hran']
      simp only [resume, hr.document, hr.completed]
    · exact @Run.memory_of_result _ Inv ((composer.resume q).run setting start) r _ hhandlers
        hmemory (passes_eq_some_iff.mpr hran')

/-- Composing does not give up where it finds no node to start at. -/
theorem exists_linedFrom {q : Progress μ} (hsound : composer.store.Sound)
    (h : Ran (composer.workshop setting) (startWorklist start) composer.progress
      (.error (Fault.unresolvable nodes), q)) :
    ∃ path, start.path? = some path ∧
      LinedFrom (composer.workshop setting) path (startWorklist start) composer.progress := by
  unfold startWorklist at h ⊢
  cases hpath : start.path? with
  | none =>
      rw [hpath] at h
      exact absurd (h.eq_ok_of_nothing rfl) (by simp)
  | some path =>
      rw [hpath] at h
      cases hn : composer.store.content.node? path with
      | some v => exact ⟨path, rfl, v, hn, .here⟩
      | none =>
          have hsoundp : composer.progress.fresh.document.Sound := hsound
          exact absurd (h.eq_ok_of_nothing (pass_cons_of_gone hsoundp [] hn)) (by simp)

/-- **Composing gives up on nothing but a standstill, and it ends unless it writes for ever.**  If
it gives up, what it tells are nodes that cover every directive that is left, and composing again
gives up on the same.  If in no document infinitely many passes write, neither in the document nor
in one that is composed on its own, it comes to an end. -/
theorem composeAt_standstill {remembers recalls : μ → Prop}
    (hmatches : Handler.MatchesMarkers composer.handlers)
    (htidy : ∀ handler ∈ composer.handlers, handler.Tidy remembers)
    (hsteady : ∀ handler ∈ composer.handlers, handler.Steady setting recalls)
    (hsound : composer.store.Sound) (hmemory : remembers composer.memory)
    (hrecalls : recalls composer.memory) :
    (∀ nodes composer', composer.composeAt setting start =
        some (.error (.unresolvable nodes), composer') → composer'.GivenUp setting start nodes) ∧
      ((∀ run, (composer.run setting start).Nests run → run.writing.Finite) →
        (composer.composeAt setting start).isSome = true) := by
  have hproper : Proper remembers composer.progress := ⟨hsound, hmemory⟩
  have hK := kept_of_tidy (workshop_tidy htidy setting)
  have htaking := Handler.taking_of_matchesMarkers hmatches
  refine ⟨fun nodes composer' h => ?_, fun hfinite => ?_⟩
  · obtain ⟨q, hran, rfl⟩ := exists_ran_of_composeAt h
    obtain ⟨path, hpath, hlined⟩ := exists_linedFrom hsound hran
    have hP : Carried (composer.workshop setting) fun p => recalls p.memory :=
      @Run.carried _ recalls (composer.run setting start) fun handler hmem =>
        (hsteady handler hmem).keeps
    obtain ⟨worklist, hq, hrecalls, hstall, rfl⟩ :=
      hran.exists_stall hK hP htaking hsteady hproper hrecalls hlined
    exact givenUp_of_stall hpath hq.sound hrecalls hstall
  · have hends := @Run.ends _ _ (composer.run setting start) htidy hproper hfinite
    rwa [composeAt, Option.isSome_map]

/-- The standard handlers but that of made values: none of them has a state to draw from. -/
def steadyHandlers (access : FileAccess) : List (Handler (Memory Unit)) :=
  [.reference, .overlay, .file access, .inclusion access, .matcher .standard]

/-- A document with a reference to a node that is missing. -/
def missing : Value :=
  .map [("a", .bool true), ("c", .map [("!ref", .text "/missing")])]

/-- A composer of the document, which reads no file twice. -/
def missingComposer : Composer (Memory Unit) :=
  .new (.wrap .direct missing) (steadyHandlers ⟨⟨none⟩, true⟩) 0 (Memory.start ())

/-- The state after any pass over the document. -/
def missingState : Progress (Memory Unit) :=
  ⟨.direct ⟨missing⟩, [], Memory.start (), [["c"]], false⟩

theorem round_missing :
    round (missingComposer.workshop bareSetting) [[]] missingComposer.progress =
      some (.next [["c"]] missingState) := by
  cbv

theorem round_missing_again :
    round (missingComposer.workshop bareSetting) [["c"]] missingState =
      some (.ended (.error (.unresolvable [⟨["c"], .map [("!ref", .text "/missing")]⟩]))
        missingState) := by
  cbv

theorem writing_missing :
    (missingComposer.run bareSetting .root).writing = ∅ := by
  refine Set.eq_empty_iff_forall_notMem.mpr fun n ⟨next, q, hround, hchanged⟩ => ?_
  have hfirst : rounds (missingComposer.run bareSetting .root).workshop
      (missingComposer.run bareSetting .root).worklist
      (missingComposer.run bareSetting .root).progress 1 = some (.next [["c"]] missingState) :=
    round_missing
  rw [Nat.add_comm, rounds_add_of_next hfirst] at hround
  cases n with
  | zero =>
      obtain ⟨-, rfl⟩ := Round.next.inj (Option.some.inj hround)
      exact absurd hchanged (by simp [missingState])
  | succ n =>
      have hlast : rounds (missingComposer.run bareSetting .root).workshop [["c"]] missingState 1 =
          some (.ended (.error (.unresolvable [⟨["c"], .map [("!ref", .text "/missing")]⟩]))
            missingState) :=
        round_missing_again
      rw [Nat.add_comm, rounds_add, hlast] at hround
      exact absurd hround (by simp)

/-- Composing the document gives up on the reference. -/
theorem composeAt_missing_standstill :
    Handler.MatchesMarkers missingComposer.handlers ∧
      (∀ handler ∈ missingComposer.handlers, handler.Tidy Memory.WellFormed) ∧
      (∀ handler ∈ missingComposer.handlers,
        handler.Steady bareSetting (Memory.Coherent bareSetting.files)) ∧
      missingComposer.store.Sound ∧ missingComposer.memory.WellFormed ∧
      missingComposer.memory.Coherent bareSetting.files ∧
      (∃ composer, missingComposer.composeAt bareSetting .root =
          some (.error (.unresolvable [⟨["c"], .map [("!ref", .text "/missing")]⟩]), composer) ∧
        composer.GivenUp bareSetting .root [⟨["c"], .map [("!ref", .text "/missing")]⟩]) ∧
      (∀ run, (missingComposer.run bareSetting .root).Nests run → run.writing.Finite) ∧
      (missingComposer.composeAt bareSetting .root).isSome = true := by
  have hstandard : ∀ handler ∈ missingComposer.handlers,
      handler ∈ Handler.standard (Generators.standard fun _ => (0, ())) Matchers.standard
        ⟨⟨none⟩, true⟩ ∧ handler.marker ≠ Directive.generatorMarker := by
    intro handler hmem
    simp only [missingComposer, new, steadyHandlers, List.mem_cons, List.not_mem_nil, or_false]
      at hmem
    rcases hmem with rfl | rfl | rfl | rfl | rfl <;>
      exact ⟨by simp [Handler.standard], by decide⟩
  have hmatches : Handler.MatchesMarkers missingComposer.handlers := fun handler hmem =>
    Handler.matchesMarkers_standard handler (hstandard handler hmem).1
  have htidy : ∀ handler ∈ missingComposer.handlers, handler.Tidy Memory.WellFormed :=
    fun handler hmem => Handler.tidy_of_mem_standard (Generators.tidy_standard _) handler
      (hstandard handler hmem).1
  have hsteady : ∀ handler ∈ missingComposer.handlers,
      handler.Steady bareSetting (Memory.Coherent bareSetting.files) := fun handler hmem =>
    Handler.steady_of_mem_standard (hstandard handler hmem).1 (hstandard handler hmem).2
  have hsound : missingComposer.store.Sound := by
    refine Store.sound_wrap ?_ .direct
    simp [missing, Value.wellFormed_map_iff, Entries.Distinct, Entries.keys]
  have hmemory : missingComposer.memory.WellFormed := Memory.wellFormed_start ()
  have hcoherent : missingComposer.memory.Coherent bareSetting.files :=
    Memory.coherent_start bareSetting.files ()
  have hran : Ran (missingComposer.workshop bareSetting) (startWorklist .root)
      missingComposer.progress _ := .next round_missing (.ended round_missing_again)
  have hcompose := composeAt_of_ran hran
  have hfinite : ∀ run, (missingComposer.run bareSetting .root).Nests run → run.writing.Finite := by
    intro run hrun
    rw [hrun.eq_of_levels_eq_zero rfl, writing_missing]
    exact Set.finite_empty
  obtain ⟨hgives, hends⟩ := @composeAt_standstill _ missingComposer bareSetting .root _ _ hmatches
    htidy hsteady hsound hmemory hcoherent
  exact ⟨hmatches, htidy, hsteady, hsound, hmemory, hcoherent,
    ⟨_, hcompose, hgives _ _ hcompose⟩, hfinite, hends hfinite⟩

end Composer

end Docweave
