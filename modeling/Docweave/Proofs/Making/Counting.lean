import Docweave.Proofs.Making.Calls
import Docweave.Proofs.Reading.Json
import Mathlib

/-!
Runs that call generators.

`Handed` is what handing a directive over does: a reference waits, a reference gives its place to a
node that is no directive, or a call gives its place to a scalar, for which its generator was asked
once.  Each of them keeps the count of `Counted`, so composing does, and in the end no call stands
anywhere (`Composer.compose_calls`).
-/

namespace Docweave

/-! ### What the handlers do -/

namespace Handler

variable {σ : Type} {generators : Generators σ} {matchers : Matchers} {access : FileAccess}

theorem find?_standard_of_isCall {fields : Fields} (h : (Value.map fields).isCall = true) :
    find? (standard generators matchers access) fields = some (generator generators) := by
  simp only [Value.isCall, List.any_cons, List.any_nil, Bool.or_false, Bool.and_eq_true,
    Bool.not_eq_true', Bool.or_eq_false_iff] at h
  obtain ⟨⟨hgenerator, hreference, hoverlay, hfile, hinclude⟩, -⟩ := h
  have hreference : (reference : Handler (Memory σ)).takes fields = false := hreference
  have hoverlay : (overlay : Handler (Memory σ)).takes fields = false := hoverlay
  have hfile : (file access : Handler (Memory σ)).takes fields = false := hfile
  have hinclude : (inclusion access : Handler (Memory σ)).takes fields = false := hinclude
  have hgenerator : (generator generators).takes fields = true := hgenerator
  simp only [find?, standard, List.find?_cons, hreference, hoverlay, hfile, hinclude, hgenerator]

end Handler

/-- A call that shares its value with no other asks its generator once. -/
theorem Directive.composeMade_of_isCall {σ : Type} {generators : Generators σ} {directive : Fields}
    {memory memory' : Memory σ} {outcome : Outcome}
    (hcall : (Value.map directive).isCall = true)
    (h : composeMade generators directive memory = (.ok outcome, memory')) :
    ∃ name args v, generators.generate name args memory.world = (.ok v, memory'.world) ∧
      outcome = .success v := by
  have hid : option? directive "id" = none := by
    simp only [Value.isCall, Bool.and_eq_true, Option.isNone_iff_eq_none] at hcall
    exact hcall.2
  simp only [composeMade] at h
  cases hread : readMade directive with
  | error fault =>
      rw [hread] at h
      exact absurd (Prod.mk.inj h).1 (by simp)
  | ok read =>
      obtain ⟨call, key?⟩ := read
      obtain rfl : key? = none := by
        obtain ⟨call', -, hread⟩ := Except.bind_eq_ok_iff.mp hread
        obtain ⟨key', hkey, hread⟩ := Except.bind_eq_ok_iff.mp hread
        obtain ⟨-, rfl⟩ := Prod.mk.inj (Except.ok.inj hread)
        simp only [sharedKey?, hid] at hkey
        exact (Except.ok.inj hkey).symm
      rw [hread] at h
      simp only [make, Option.bind_none] at h
      rcases hgenerate : generators.generate call.name call.args memory.world with
        ⟨fault | v, world⟩
      · rw [hgenerate] at h
        exact absurd (Prod.mk.inj h).1 (by simp)
      · rw [hgenerate] at h
        obtain ⟨houtcome, rfl⟩ := Prod.mk.inj h
        exact ⟨call.name, call.args, v, hgenerate, (Except.ok.inj houtcome).symm⟩

namespace Composing

variable {σ : Type} {generators : Generators σ} {matchers : Matchers} {access : FileAccess}
  {recorder : Workshop (Memory σ × List Answer)} {p q : Progress (Memory σ × List Answer)}
  {path : Path} {b : Bool}

/-- The directives of the document are references and calls, and no node holds its value for
good. -/
structure Calling (markers : List String) (p : Progress (Memory σ × List Answer)) : Prop where
  sound : p.document.Sound
  completed : p.completed = []
  only : CallsOnly markers p.document.content

/-- What handing over the directive at a node does to the document, to what generators draw from and
to the record. -/
inductive Handed (generators : Generators σ) (markers : List String) (path : Path)
    (p q : Progress (Memory σ × List Answer)) : Prop
  /-- A reference waits. -/
  | waits {directive : Fields}
      (hn : p.document.content.node? path = some (.map directive))
      (hreferring : (Value.map directive).isReferring = true)
      (hdocument : q.document = p.document)
      (hmemory : q.memory = (p.memory.1, ⟨path, directive, .retry⟩ :: p.memory.2)) :
      Handed generators markers path p q
  /-- A node that is no directive is copied to the place of a reference. -/
  | copies {directive : Fields} {last : Path} {v : Value}
      (hn : p.document.content.node? path = some (.map directive))
      (hreferring : (Value.map directive).isReferring = true)
      (hlast : p.document.content.node? last = some v) (hplain : isDirective markers v = false)
      (hcontent : q.document.content = p.document.content.put path v)
      (hmemory : q.memory = (p.memory.1, ⟨path, directive, .success v⟩ :: p.memory.2)) :
      Handed generators markers path p q
  /-- A call is made, and its value takes its place. -/
  | makes {directive : Fields} {name : String} {args : Arguments} {v : Value}
      (hn : p.document.content.node? path = some (.map directive))
      (hcall : (Value.map directive).isCall = true)
      (hgenerate : generators.generate name args p.memory.1.world = (.ok v, q.memory.1.world))
      (hscalar : v.isContainer = false)
      (hcontent : q.document.content = p.document.content.put path v)
      (hanswers : q.memory.2 = ⟨path, directive, .success v⟩ :: p.memory.2) :
      Handed generators markers path p q

/-- Every successful call of a generator gives a scalar. -/
def GivesScalars (generators : Generators σ) : Prop :=
  ∀ name args state v state', generators.generate name args state = (.ok v, state') →
    v.isContainer = false

variable {directive : Fields} {outcome : Outcome} {remembered : Memory σ}

/-- A reference is answered with a retry or with a node that is no directive. -/
theorem handed_reference {markers : List String} (hroot : path ≠ []) (hp : Calling markers p)
    (hmarkers : Handler.markers recorder.handlers = markers)
    (hmarker : Directive.referenceMarker ∈ markers)
    (hn : p.document.content.node? path = some (.map directive))
    (hd : isDirective markers (.map directive) = true)
    (hreferring : (Value.map directive).isReferring = true)
    (hanswer : Directive.composeReference directive (contextAt recorder path p) = .ok outcome)
    (hsettle : Settled recorder path
      { p with memory := (p.memory.1, ⟨path, directive, outcome⟩ :: p.memory.2) } outcome b q) :
    (∃ memory, Effect path { p with memory } b q) ∧ q.completed = [] ∧
      Handed generators markers path p q := by
  subst hmarkers
  rcases chain_of_composeReference hp.sound hmarker hanswer with
    rfl | ⟨target, last, v, -, -, hlast, hplain, rfl⟩
  · cases hsettle
    exact ⟨⟨_, .retry⟩, hp.completed, .waits hn hreferring rfl rfl⟩
  · obtain ⟨heffect, hcompleted, -, hcontent⟩ := hsettle.put hp.sound hp.completed hroot hn hd
      (hp.sound.wellFormed.of_node? hlast) hplain
    exact ⟨⟨_, heffect⟩, hcompleted,
      .copies hn hreferring hlast hplain hcontent heffect.memory_eq⟩

/-- A call is answered with the scalar that its generator made when asked once. -/
theorem handed_call {markers : List String} (hscalars : GivesScalars generators) (hroot : path ≠ [])
    (hp : Calling markers p) (hn : p.document.content.node? path = some (.map directive))
    (hd : isDirective markers (.map directive) = true)
    (hcall : (Value.map directive).isCall = true)
    (hanswer : Directive.composeMade generators directive p.memory.1 = (.ok outcome, remembered))
    (hsettle : Settled recorder path
      { p with memory := (remembered, ⟨path, directive, outcome⟩ :: p.memory.2) } outcome b q) :
    (∃ memory, Effect path { p with memory } b q) ∧ q.completed = [] ∧
      Handed generators markers path p q := by
  obtain ⟨name, args, v, hgenerate, rfl⟩ := Directive.composeMade_of_isCall hcall hanswer
  have hscalar := hscalars _ _ _ _ _ hgenerate
  have hplain : isDirective markers v = false := isDirective_eq_false_of_isContainer hscalar
  have hv : v.WellFormed := by cases v <;> simp_all [Value.isContainer]
  obtain ⟨heffect, hcompleted, -, hcontent⟩ :=
    hsettle.put hp.sound hp.completed hroot hn hd hv hplain
  have hworld : q.memory.1.world = remembered.world := by rw [heffect.memory_eq]
  rw [← hworld] at hgenerate
  exact ⟨⟨_, heffect⟩, hcompleted,
    .makes hn hcall hgenerate hscalar hcontent (congrArg Prod.snd heffect.memory_eq)⟩

section

variable (hhandlers : recorder.handlers =
    (Handler.standard generators matchers access).map Handler.recording)

include hhandlers

theorem markers_recorder : Handler.markers recorder.handlers =
    Handler.markers (Handler.standard generators matchers access) := by
  rw [hhandlers, Handler.markers_recording]

theorem taking_recorder : Handler.Taking recorder.handlers := by
  intro directive hd hnone
  rw [markers_recorder hhandlers] at hd
  rw [hhandlers, Handler.find?_recording, Option.map_eq_none_iff] at hnone
  exact Handler.taking_of_matchesMarkers Handler.matchesMarkers_standard directive hd hnone

variable (hscalars : GivesScalars generators)

include hscalars

/-- **Handing a directive over makes a reference wait, makes a copy or makes a call.** -/
theorem invoked_handed (hroot : path ≠ []) (hp : Calling (Handler.markers recorder.handlers) p)
    (h : Invoked recorder path p b q) :
    (b = false ∧ q = p ∧ ∀ directive, p.document.get (.plain path) = .ok (.map directive) →
      Handler.find? recorder.handlers directive = none) ∨
    (∃ memory, Effect path { p with memory } b q) ∧ q.completed = [] ∧
      Handed generators (Handler.markers recorder.handlers) path p q := by
  have hmarkers := markers_recorder hhandlers
  obtain huntaken | ⟨directive, recording, outcome, memory, hn, hfind, hcompose, hsettle⟩ :=
    h.untaken_or_handled hp.sound
  · exact .inl huntaken
  refine .inr ?_
  rw [hhandlers, Handler.find?_recording] at hfind
  obtain ⟨handler, hstandard, rfl⟩ := Option.map_eq_some_iff.mp hfind
  have hd : isDirective (Handler.markers recorder.handlers) (.map directive) = true :=
    hmarkers ▸ Handler.isDirective_of_find? Handler.matchesMarkers_standard hstandard
  obtain ⟨remembered, hanswer, rfl⟩ := Handler.recording_eq_ok hcompose
  rcases hp.only path _ hn hd with hreferring | hcall
  · obtain rfl : Handler.reference = handler := by
      rw [Handler.find?_standard_of_contains hreferring] at hstandard
      exact Option.some.inj hstandard
    obtain ⟨houtcome, rfl⟩ : Directive.composeReference directive (contextAt recorder path p) =
        .ok outcome ∧ p.memory.1 = remembered := Prod.mk.inj hanswer
    have hmarker : Directive.referenceMarker ∈ Handler.markers recorder.handlers :=
      hmarkers ▸ Handler.referenceMarker_mem_standard
    exact handed_reference hroot hp rfl hmarker hn hd hreferring houtcome hsettle
  · obtain rfl : Handler.generator generators = handler := by
      rw [Handler.find?_standard_of_isCall hcall] at hstandard
      exact Option.some.inj hstandard
    exact handed_call hscalars hroot hp hn hd hcall hanswer hsettle

theorem kept_calling : Kept recorder (Calling (Handler.markers recorder.handlers)) where
  sound hp := hp.sound
  noting hp := ⟨hp.sound, hp.completed, hp.only⟩
  fresh hp := ⟨hp.sound, hp.completed, hp.only⟩
  invoked := fun {path p b q} hroot hp h => by
    obtain ⟨-, rfl, -⟩ | ⟨⟨memory, heffect⟩, hcompleted, hhanded⟩ :=
      invoked_handed hhandlers hscalars hroot hp h
    · exact hp
    obtain ⟨old, hn⟩ := h.exists_node hp.sound
    refine ⟨heffect.sound hp.sound hroot hn, hcompleted, ?_⟩
    have hsome := Option.isSome_of_eq_some hn
    cases hhanded with
    | waits _ _ hdocument _ => exact hdocument ▸ hp.only
    | copies _ _ hlast _ hcontent _ =>
        rw [hcontent]
        exact hp.only.put hsome (hp.only.of_node? hlast)
    | makes _ _ _ hscalar hcontent _ =>
        rw [hcontent]
        exact hp.only.put hsome (.of_scalar hscalar)
  effect := fun hroot hp h =>
    (invoked_handed hhandlers hscalars hroot hp h).imp id fun ⟨heffect, _⟩ => heffect

end

/-! ### Every call is accounted for -/

/-- A number that every successful call of a generator raises by one. -/
def Tallies (generators : Generators σ) (tally : σ → Nat) : Prop :=
  ∀ name args state v state', generators.generate name args state = (.ok v, state') →
    tally state' = tally state + 1

/-- What happens between two states: the calls that are made or still stand grow by those that are
brought, no directive is put anywhere, and the generators are asked once for every call. -/
structure Counted (generators : Generators σ) (markers : List String)
    (p q : Progress (Memory σ × List Answer)) : Prop where
  law : ∀ path, callsAt q.memory.2 path + q.document.content.standing path +
      broughtTo p.memory.2 path =
    callsAt p.memory.2 path + p.document.content.standing path + broughtTo q.memory.2 path
  plain : (∀ answer ∈ p.memory.2, ∀ v, answer.outcome = .success v →
      isDirective markers v = false) →
    ∀ answer ∈ q.memory.2, ∀ v, answer.outcome = .success v → isDirective markers v = false
  tally : ∀ tally, Tallies generators tally →
    tally q.memory.1.world + p.memory.2.countP Answer.isCall =
      tally p.memory.1.world + q.memory.2.countP Answer.isCall

namespace Counted

variable {markers : List String} {r : Progress (Memory σ × List Answer)}

theorem of_same (hcontent : q.document.content = p.document.content)
    (hmemory : q.memory = p.memory) : Counted generators markers p q where
  law path := by rw [hcontent, hmemory]
  plain h := hmemory ▸ h
  tally _ _ := by rw [hmemory]

theorem trans (hpq : Counted generators markers p q) (hqr : Counted generators markers q r) :
    Counted generators markers p r where
  law path := by
    have := hpq.law path
    have := hqr.law path
    omega
  plain h := hqr.plain (hpq.plain h)
  tally tally htally := by
    have := hpq.tally tally htally
    have := hqr.tally tally htally
    omega

end Counted

/-- **Handing a directive over is accounted for, if no directive is left below it.** -/
theorem Handed.counted {markers : List String} (hmarker : Directive.generatorMarker ∈ markers)
    (h : Handed generators markers path p q)
    (hclear : ClearBelow markers p.document.content path) : Counted generators markers p q := by
  cases h with
  | @waits directive _ hreferring hdocument hmemory =>
      have hcall : (⟨path, directive, .retry⟩ : Answer).isCall = false :=
        Value.isCall_eq_false_of_isReferring hreferring
      refine ⟨fun r => ?_, fun hplain answer hanswer => ?_, fun tally _ => ?_⟩
      · simp [callsAt, broughtTo, hdocument, hmemory, hcall, Answer.brings]
      · rw [hmemory] at hanswer
        rcases List.mem_cons.mp hanswer with rfl | hanswer
        · exact fun v hv => absurd hv (by simp)
        · exact hplain answer hanswer
      · simp [hmemory, hcall]
  | @copies directive last v hn hreferring _ hplain hcontent hmemory =>
      have hcall : (⟨path, directive, .success v⟩ : Answer).isCall = false :=
        Value.isCall_eq_false_of_isReferring hreferring
      refine ⟨fun r => ?_, fun hbefore answer hanswer => ?_, fun tally _ => ?_⟩
      · rw [hcontent, hmemory]
        exact calls_exchanged hmarker hn hclear v _ r
      · rw [hmemory] at hanswer
        rcases List.mem_cons.mp hanswer with rfl | hanswer
        · exact fun w hw => Outcome.success.inj hw ▸ hplain
        · exact hbefore answer hanswer
      · simp [hmemory, hcall]
  | @makes directive _ _ v hn hcall hgenerate hscalar hcontent hanswers =>
      have hcall : (⟨path, directive, .success v⟩ : Answer).isCall = true := hcall
      refine ⟨fun r => ?_, fun hbefore answer hanswer => ?_, fun tally htally => ?_⟩
      · rw [hcontent, hanswers]
        exact calls_exchanged hmarker hn hclear v _ r
      · rw [hanswers] at hanswer
        rcases List.mem_cons.mp hanswer with rfl | hanswer
        · exact fun w hw => Outcome.success.inj hw ▸ isDirective_eq_false_of_isContainer hscalar
        · exact hbefore answer hanswer
      · have htally := htally _ _ _ _ _ hgenerate
        rw [htally, hanswers, List.countP_cons, if_pos hcall]
        omega

theorem bottomUp_calling (hhandlers : recorder.handlers =
      (Handler.standard generators matchers access).map Handler.recording)
    (hscalars : GivesScalars generators) :
    BottomUp recorder (Calling (Handler.markers recorder.handlers))
      (Counted generators (Handler.markers recorder.handlers)) where
  kept := kept_calling hhandlers hscalars
  taking := taking_recorder hhandlers
  completed hp := hp.completed
  refl p := .of_same rfl rfl
  trans hpq hqr := hpq.trans hqr
  noting p path := .of_same rfl rfl
  fresh p := .of_same rfl rfl
  invoked := fun {path p b q} hroot hp hclear h => by
    obtain ⟨-, rfl, -⟩ | ⟨-, -, hhanded⟩ := invoked_handed hhandlers hscalars hroot hp h
    · exact .of_same rfl rfl
    · refine hhanded.counted ?_ hclear
      rw [markers_recorder hhandlers]
      simp [Handler.markers, Handler.standard, Handler.generator]

end Composing

namespace Composer

open Composing

variable {σ : Type} {generators : Generators σ} {world : σ} {options : ComposeOptions}
  {setting : Setting} {content : Value} {composer : Composer (Memory σ)}

theorem calling_standard (hwell : content.WellFormed) (honly : CallsOnly standardMarkers content) :
    Calling standardMarkers
      (Composer.standard generators world options content).recording.progress := by
  refine ⟨Store.sound_wrap hwell _, rfl, ?_⟩
  show CallsOnly standardMarkers (Store.wrap options.backend content).content
  rwa [Store.content_wrap]

/-- **At every node exactly one call is made if a call stood there, and one for each that a copy
brought there.**  No directive is put anywhere, so a reference that leads to a call never copies the
call, but only what has become of it. -/
theorem compose_calls (hwell : content.WellFormed) (honly : CallsOnly standardMarkers content)
    (hscalars : GivesScalars generators)
    (h : (Composer.standard generators world options content).compose setting =
      some (.ok (), composer)) :
    ∃ recorded, (Composer.standard generators world options content).recording.compose setting =
        some (.ok (), recorded) ∧
      recorded.unrecorded composer.handlers = composer ∧
      (∀ path, callsAt recorded.memory.2 path =
        content.standing path + broughtTo recorded.memory.2 path) ∧
      (∀ answer ∈ recorded.memory.2, ∀ v, answer.outcome = .success v →
        isDirective standardMarkers v = false) ∧
      ∀ tally, Tallies generators tally →
        tally composer.memory.world = tally world + recorded.memory.2.countP Answer.isCall := by
  rw [← compose_recording] at h
  obtain ⟨⟨result, recorded⟩, hrecorded, heq⟩ := Option.map_eq_some_iff.mp h
  obtain ⟨rfl, rfl⟩ := Prod.mk.inj heq
  refine ⟨recorded, hrecorded, rfl, ?_⟩
  obtain ⟨q, hended, rfl⟩ := exists_ended_of_composeAt hrecorded
  have hstart : Calling standardMarkers
      (Composer.standard generators world options content).recording.progress :=
    calling_standard hwell honly
  have hbottom : BottomUp
      ((Composer.standard generators world options content).recording.workshop setting)
      (Calling standardMarkers) (Counted generators standardMarkers) :=
    bottomUp_calling rfl hscalars
  have hcounted := hbottom.ended hended hstart
  have hmarker : Directive.generatorMarker ∈ standardMarkers := by decide
  have hnone : ∀ path, q.document.content.standing path = 0 := fun path =>
    Value.standing_eq_zero hmarker fun w hw =>
      hended.plain_of_kept hbottom.kept hbottom.taking (fun hp => hp.completed) hstart hw
  refine ⟨fun path => ?_, hcounted.plain fun answer hanswer => absurd hanswer List.not_mem_nil,
    hcounted.tally⟩
  have hlaw := hcounted.law path
  have hcontent : (Composer.standard generators world options
      content).recording.progress.document.content = content := Store.content_wrap _ _
  rw [hnone, hcontent] at hlaw
  -- In the beginning nothing is made and nothing is brought.
  show callsAt q.memory.2 path = content.standing path + broughtTo q.memory.2 path
  change callsAt q.memory.2 path + 0 + 0 = 0 + content.standing path + broughtTo q.memory.2 path
    at hlaw
  omega

/-- A generator that counts how often it is asked. -/
def counting : Generators Nat :=
  ⟨[("Counter", fun _ n => (.ok (.int (n + 1)), n + 1))]⟩

theorem generate_counting {name : String} {args : Arguments} {n n' : Nat} {v : Value}
    (h : counting.generate name args n = (.ok v, n')) : v = .int (n + 1) ∧ n' = n + 1 := by
  by_cases hname : "Counter" = name
  · subst hname
    obtain ⟨hv, hn'⟩ := Prod.mk.inj h
    exact ⟨(Except.ok.inj hv).symm, hn'.symm⟩
  · have hnone : counting.find? name = none := by
      simp [Registry.find?, counting, Entries.find?_cons, hname]
    simp only [Generators.generate, hnone] at h
    exact absurd (Prod.mk.inj h).1 (by simp)

theorem givesScalars_counting : GivesScalars counting := by
  intro name args n v n' h
  rw [(generate_counting h).1]
  rfl

theorem tallies_counting : Tallies counting id := by
  intro name args n v n' h
  exact (generate_counting h).2

/-- A call of the generator that counts. -/
def aCall : Value :=
  .map [("!gen", .text "Counter")]

theorem callsOnly_aCall : CallsOnly standardMarkers aCall :=
  .of_entries (fun _ => .inr (by decide)) fun e he => by
    obtain rfl := List.mem_singleton.mp he
    exact .of_scalar rfl

theorem standing_aCall (path : Path) : aCall.standing path = if path = [] then 1 else 0 := by
  cases path with
  | nil => decide
  | cons token path => simp [aCall]

theorem callsOnly_reference (raw : String) : CallsOnly standardMarkers (.reference raw) :=
  .of_entries (fun _ => .inl rfl) fun e he => by
    obtain rfl := List.mem_singleton.mp he
    exact .of_scalar rfl

/-- A reference and the node it leads to. -/
def leadingTo (v : Value) : Value :=
  .map [("b", .reference "/a"), ("a", v)]

theorem wellFormed_leadingTo {v : Value} (h : v.WellFormed) : (leadingTo v).WellFormed := by
  simp [leadingTo, Value.reference, Value.wellFormed_map_iff, Entries.Distinct, Entries.keys, h]

theorem callsOnly_leadingTo {v : Value} (h : CallsOnly standardMarkers v) :
    CallsOnly standardMarkers (leadingTo v) := by
  have hplain : isDirective standardMarkers (leadingTo v) = false := rfl
  refine .of_entries (fun hd => absurd (hplain.symm.trans hd) (by simp)) ?_
  simpa [leadingTo, Value.entries, h] using callsOnly_reference "/a"

/-- A composer of a reference and the node it leads to, with the generator that counts. -/
def leadingToComposer (v : Value) : Composer (Memory Nat) :=
  .standard counting 0 { backend := .direct } (leadingTo v)

/-- The state after a first pass with one call, when the reference is to be looked at again. -/
def calledOnce (copy v : Value) : Progress (Memory Nat) :=
  ⟨.wrap .direct (.map [("b", copy), ("a", v)]), [], Memory.start 1, [["b"]], true⟩

theorem compose_leadingTo {v copy v' : Value} {q : Progress (Memory Nat)}
    (hfirst : round ((leadingToComposer v).workshop bareSetting) [[]]
      (leadingToComposer v).progress = some (.next [["b"]] (calledOnce copy v')))
    (hsecond : round ((leadingToComposer v).workshop bareSetting) [["b"]] (calledOnce copy v') =
      some (.ended (.ok ()) q)) :
    (leadingToComposer v).compose bareSetting =
      some (.ok (), (leadingToComposer v).resume q) :=
  composeAt_of_ran (.next hfirst (.ended hsecond))

/-- A reference waits for a call, which is made once. -/
theorem compose_reference_to_call :
    (leadingTo aCall).WellFormed ∧ CallsOnly standardMarkers (leadingTo aCall) ∧
      GivesScalars counting ∧
      ∃ composer, (leadingToComposer aCall).compose bareSetting = some (.ok (), composer) ∧
        ∃ recorded, (leadingToComposer aCall).recording.compose bareSetting =
            some (.ok (), recorded) ∧
          callsAt recorded.memory.2 ["a"] = 1 + broughtTo recorded.memory.2 ["a"] ∧
          composer.memory.world = 0 + recorded.memory.2.countP Answer.isCall := by
  have hwell : (leadingTo aCall).WellFormed := wellFormed_leadingTo (by
    simp [aCall, Value.wellFormed_map_iff, Entries.Distinct, Entries.keys])
  have honly : CallsOnly standardMarkers (leadingTo aCall) := callsOnly_leadingTo callsOnly_aCall
  have hfirst : round ((leadingToComposer aCall).workshop bareSetting) [[]]
      (leadingToComposer aCall).progress =
        some (.next [["b"]] (calledOnce (.reference "/a") (.int 1))) := by
    cbv
  obtain ⟨q, hsecond⟩ : ∃ q, round ((leadingToComposer aCall).workshop bareSetting) [["b"]]
      (calledOnce (.reference "/a") (.int 1)) = some (.ended (.ok ()) q) := ⟨_, rfl⟩
  have hcompose := compose_leadingTo hfirst hsecond
  obtain ⟨recorded, hrecorded, -, hcalls, -, htally⟩ :=
    compose_calls hwell honly givesScalars_counting hcompose
  exact ⟨hwell, honly, givesScalars_counting, _, hcompose, recorded, hrecorded, hcalls ["a"],
    htally id tallies_counting⟩

/-- Copying what a call stands in before the call is made makes two calls of the one. -/
theorem compose_call_copied_within :
    (leadingTo (.map [("g", aCall)])).WellFormed ∧
      CallsOnly standardMarkers (leadingTo (.map [("g", aCall)])) ∧
      GivesScalars counting ∧ Tallies counting id ∧
      (∀ path, (leadingTo (.map [("g", aCall)])).standing path =
        if path = ["a", "g"] then 1 else 0) ∧
      ∃ composer,
        (leadingToComposer (.map [("g", aCall)])).compose bareSetting = some (.ok (), composer) ∧
        composer.memory.world = 2 := by
  have hwell : (leadingTo (.map [("g", aCall)])).WellFormed := wellFormed_leadingTo (by
    simp [aCall, Value.wellFormed_map_iff, Entries.Distinct, Entries.keys])
  have honly : CallsOnly standardMarkers (leadingTo (.map [("g", aCall)])) := by
    refine callsOnly_leadingTo (.of_entries (fun hd => ?_) fun e he => ?_)
    · exact absurd hd (by decide)
    · obtain rfl := List.mem_singleton.mp he
      exact callsOnly_aCall
  have hstanding : ∀ path, (leadingTo (.map [("g", aCall)])).standing path =
      if path = ["a", "g"] then 1 else 0 := by
    rintro (_ | ⟨token, _ | ⟨below, path⟩⟩)
    · rfl
    · have hnone : (Value.map [("g", aCall)]).standing [] = 0 := by decide
      simp [leadingTo, hnone]
    · simp only [leadingTo, Value.standing_map_cons, Value.standing_map_nil,
        Value.standing_reference, standing_aCall]
      grind
  have hfirst : round ((leadingToComposer (.map [("g", aCall)])).workshop bareSetting) [[]]
      (leadingToComposer (.map [("g", aCall)])).progress =
        some (.next [["b"]] (calledOnce (.map [("g", aCall)]) (.map [("g", .int 1)]))) := by
    cbv
  obtain ⟨q, hsecond, hworld⟩ : ∃ q,
      round ((leadingToComposer (.map [("g", aCall)])).workshop bareSetting) [["b"]]
        (calledOnce (.map [("g", aCall)]) (.map [("g", .int 1)])) = some (.ended (.ok ()) q) ∧
      q.memory.world = 2 := ⟨_, rfl, rfl⟩
  exact ⟨hwell, honly, givesScalars_counting, tallies_counting, hstanding, _,
    compose_leadingTo hfirst hsecond, hworld⟩

end Composer

end Docweave
