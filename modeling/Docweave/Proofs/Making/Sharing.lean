import Docweave.Proofs.Composing.Completeness
import Docweave.Proofs.Composing.Watching
import Docweave.Composition
import Docweave.Proofs.Reading.Json
import Mathlib

/-!
Made values that share a name.

What the handler of made values remembers can be read off the record of what it was asked
(`Ledger`): a value is remembered under the text that the name of the generator and the id of the
directive are joined to, and it is the one that the first successful call under this text has made.
As long as no two names and ids that were asked for are joined to the same text, every directive
therefore gets the value of the first successful call that was made for its own name and id
(`Composer.made_values_shared`).

But a name may have a dot in it and so may an id, and then there are two ways to take the text
apart.  Where both are asked for, the second gets a value that was made for the first
(`Composer.made_value_strayed`).
-/

namespace Docweave

namespace Directive

/-- The text that a name and an id are joined to.  An id is a text or a number. -/
def joined (name : String) : Value → Option String
  | .text id => some (name ++ "." ++ id)
  | .number n => some (name ++ "." ++ n.render)
  | _ => none

/-- What is remembered after a value was made. -/
def keep (made : Entries Value) (key? : Option String) (v : Value) : Entries Value :=
  match key? with
  | some key => Entries.insert made key v
  | none => made

theorem find?_keep (made : Entries Value) (key? : Option String) (v : Value) (key : String) :
    Entries.find? (keep made key? v) key =
      if key? = some key then some v else Entries.find? made key := by
  cases key? with
  | none => rfl
  | some key' => simp only [keep, Entries.find?_insert, Option.some.injEq]

theorem sharedKey?_eq_some_iff {directive : Fields} {name key : String} :
    sharedKey? directive name = .ok (some key) ↔
      ∃ id, option? directive "id" = some id ∧ joined name id = some key := by
  unfold sharedKey?
  cases option? directive "id" with
  | none => simp
  | some id => cases id <;> simp [joined]

theorem sharedKey?_eq_none_iff {directive : Fields} {name : String} :
    sharedKey? directive name = .ok none ↔ option? directive "id" = none := by
  unfold sharedKey?
  cases option? directive "id" with
  | none => simp
  | some id => cases id <;> simp

theorem readMade_eq_ok {directive : Fields} {call : Call} {key? : Option String}
    (h : readMade directive = .ok (call, key?)) :
    Call.read directive generatorMarker ["args", "id"] = .ok call ∧
      payload directive generatorMarker = .ok call.name ∧
      sharedKey? directive call.name = .ok key? := by
  obtain ⟨call', hcall, h⟩ := Except.bind_eq_ok_iff.mp h
  obtain ⟨key', hkey, h⟩ := Except.bind_eq_ok_iff.mp h
  obtain ⟨rfl, rfl⟩ := Prod.mk.inj (Except.ok.inj h)
  refine ⟨hcall, ?_, hkey⟩
  obtain ⟨name, hname, hcall⟩ := Except.bind_eq_ok_iff.mp hcall
  obtain ⟨positional, -, hcall⟩ := Except.bind_eq_ok_iff.mp hcall
  obtain rfl := Except.ok.inj hcall
  exact hname

end Directive

/-- A handler of other directives, which leaves made values alone. -/
structure Handler.Aside {σ : Type} (handler : Handler (Memory σ)) : Prop where
  marker : handler.marker ≠ Directive.generatorMarker
  made : ∀ directive context memory,
    (handler.compose directive context memory).2.made = memory.made
  forget : ∀ memory, (handler.forget memory).made = memory.made

theorem Handler.generator_or_aside {σ : Type} {generators : Generators σ} {matchers : Matchers}
    {access : FileAccess} : ∀ handler ∈ standard generators matchers access,
      handler = generator generators ∨ handler.Aside := by
  have hmarkers : ∀ marker ∈ [Directive.referenceMarker, Directive.overlayMarker,
      Directive.fileMarker, Directive.includeMarker, Directive.matcherMarker],
      marker ≠ Directive.generatorMarker := by
    decide
  intro handler hmem
  simp only [standard, List.mem_cons, List.not_mem_nil, or_false] at hmem
  rcases hmem with rfl | rfl | rfl | rfl | rfl | rfl
  · exact .inr ⟨hmarkers _ (by simp [reference, stateless]), fun _ _ _ => rfl, fun _ => rfl⟩
  · exact .inr ⟨hmarkers _ (by simp [overlay, stateless]), fun _ _ _ => rfl, fun _ => rfl⟩
  · refine .inr ⟨hmarkers _ (by simp [file]), fun directive context memory => ?_, fun _ => rfl⟩
    simp only [file]
    split
    · rfl
    · split <;> rfl
  · refine .inr ⟨hmarkers _ (by simp [inclusion]), fun directive context memory => ?_, fun _ => rfl⟩
    simp only [inclusion]
    split
    · rfl
    · split <;> rfl
  · exact .inl rfl
  · exact .inr ⟨hmarkers _ (by simp [matcher]), fun _ _ _ => rfl, fun _ => rfl⟩

/-! ### What a record says -/

namespace Asking

variable {σ : Type}

/-- The directive asked for a value by a name that it shares with those of the same id. -/
structure For (asking : Asking (Memory σ)) (name : String) (id : Value) : Prop where
  marker : asking.marker = Directive.generatorMarker
  name : Directive.payload asking.directive Directive.generatorMarker = .ok name
  id : Directive.option? asking.directive "id" = some id

/-- The directive got a value. -/
def Gave (asking : Asking (Memory σ)) (v : Value) : Prop :=
  asking.result = .ok (.success v)

/-- The generator that is registered under the name was called as the directive says, and made the
value. -/
def Called (asking : Asking (Memory σ)) (generators : Generators σ) (name : String) (v : Value) :
    Prop :=
  ∃ generator args, generators.find? name = some generator ∧
    Directive.Call.read asking.directive Directive.generatorMarker ["args", "id"] =
      .ok ⟨name, args⟩ ∧
    generator args asking.before.world = (.ok v, asking.after.world)

end Asking

variable {σ : Type} {generators : Generators σ} {made : Entries Value}
  {asking : Asking (Memory σ)} {log : List (Asking (Memory σ))}

/-- A record in which the first directive that got a value by a name and an id got this one, and it
was made for it.  The last entry of the record comes first. -/
def FirstGave (generators : Generators σ) (log : List (Asking (Memory σ))) (name : String)
    (id v : Value) : Prop :=
  ∃ newer first older, log = newer ++ first :: older ∧ first.For name id ∧ first.Gave v ∧
    first.Called generators name v ∧
    ∀ other ∈ older, other.For name id → ∀ w, ¬ other.Gave w

theorem FirstGave.cons {name : String} {id v : Value} (h : FirstGave generators log name id v)
    (asking : Asking (Memory σ)) : FirstGave generators (asking :: log) name id v := by
  obtain ⟨newer, first, older, rfl, h⟩ := h
  exact ⟨asking :: newer, first, older, rfl, h⟩

/-- No two different names and ids that were asked for are joined to the same text. -/
def Apart (log : List (Asking (Memory σ))) : Prop :=
  ∀ asking ∈ log, ∀ other ∈ log, ∀ name name' id id' key, asking.For name id →
    other.For name' id' → Directive.joined name id = some key →
    Directive.joined name' id' = some key → name = name' ∧ id = id'

/-- What can become of one directive after the other, and what is remembered then. -/
inductive Ledger (generators : Generators σ) : Entries Value → List (Asking (Memory σ)) → Prop
  | start : Ledger generators [] []
  /-- Another handler was asked. -/
  | aside {made : Entries Value} {log : List (Asking (Memory σ))} {asking : Asking (Memory σ)}
      (h : Ledger generators made log) (hmarker : asking.marker ≠ Directive.generatorMarker) :
      Ledger generators made (asking :: log)
  | refused {made : Entries Value} {log : List (Asking (Memory σ))} {asking : Asking (Memory σ)}
      {fault : Fault} (h : Ledger generators made log) (hresult : asking.result = .error fault) :
      Ledger generators made (asking :: log)
  /-- The value that is remembered was given again. -/
  | again {made : Entries Value} {log : List (Asking (Memory σ))} {asking : Asking (Memory σ)}
      {call : Directive.Call} {key : String} {v : Value} (h : Ledger generators made log)
      (hmarker : asking.marker = Directive.generatorMarker)
      (hread : Directive.readMade asking.directive = .ok (call, some key))
      (hfind : Entries.find? made key = some v) (hresult : asking.Gave v) :
      Ledger generators made (asking :: log)
  /-- A generator was called. -/
  | called {made : Entries Value} {log : List (Asking (Memory σ))} {asking : Asking (Memory σ)}
      {call : Directive.Call} {key? : Option String} {v : Value} (h : Ledger generators made log)
      (hmarker : asking.marker = Directive.generatorMarker)
      (hread : Directive.readMade asking.directive = .ok (call, key?))
      (hnew : key?.bind (Entries.find? made) = none)
      (hcall : generators.generate call.name call.args asking.before.world =
        (.ok v, asking.after.world)) (hresult : asking.Gave v) :
      Ledger generators (Directive.keep made key? v) (asking :: log)

theorem Asking.For.readMade {name : String} {id : Value} {call : Directive.Call}
    {key? : Option String} (h : asking.For name id)
    (hread : Directive.readMade asking.directive = .ok (call, key?)) :
    call.name = name ∧ key? = Directive.joined name id := by
  obtain ⟨-, hname, hkey⟩ := Directive.readMade_eq_ok hread
  obtain rfl := Except.ok.inj (hname.symm.trans h.name)
  refine ⟨rfl, ?_⟩
  cases key? with
  | none =>
      rw [Directive.sharedKey?_eq_none_iff, h.id] at hkey
      exact absurd hkey (by simp)
  | some key =>
      obtain ⟨id', hid, hjoined⟩ := Directive.sharedKey?_eq_some_iff.mp hkey
      obtain rfl := Option.some.inj (h.id.symm.trans hid)
      exact hjoined.symm

theorem Asking.called_of_generate {call : Directive.Call} {key? : Option String} {v : Value}
    (hread : Directive.readMade asking.directive = .ok (call, key?))
    (hcall : generators.generate call.name call.args asking.before.world =
      (.ok v, asking.after.world)) : asking.Called generators call.name v := by
  simp only [Generators.generate] at hcall
  split at hcall
  · exact ⟨_, call.args, ‹_›, (Directive.readMade_eq_ok hread).1, hcall⟩
  · exact absurd (Prod.mk.inj hcall).1 (by simp)

namespace Ledger

theorem tail (h : Ledger generators made (asking :: log)) : ∃ made, Ledger generators made log := by
  cases h with
  | aside h | refused h | again h | called h => exact ⟨_, h⟩

theorem of_append {newer : List (Asking (Memory σ))} (h : Ledger generators made (newer ++ log)) :
    ∃ made, Ledger generators made log := by
  induction newer generalizing made with
  | nil => exact ⟨made, h⟩
  | cons asking newer ih =>
      obtain ⟨made', h'⟩ := h.tail
      exact ih h'

/-- Under a text that nothing is remembered under, no value was given. -/
theorem ungiven (h : Ledger generators made log) {key : String}
    (hnone : Entries.find? made key = none) : ∀ other ∈ log, ∀ name id, other.For name id →
      Directive.joined name id = some key → ∀ w, ¬ other.Gave w := by
  induction h with
  | start => exact fun other hother => absurd hother List.not_mem_nil
  | @aside made log asking h hmarker ih =>
      refine List.forall_mem_cons.mpr ⟨fun name id hfor => absurd hfor.marker hmarker, ih hnone⟩
  | @refused made log asking fault h hresult ih =>
      refine List.forall_mem_cons.mpr ⟨fun name id _ _ w hgave => ?_, ih hnone⟩
      exact absurd (hresult.symm.trans hgave) (by simp)
  | @again made log asking call key' v h hmarker hread hfind hresult ih =>
      refine List.forall_mem_cons.mpr ⟨fun name id hfor hjoined w _ => ?_, ih hnone⟩
      obtain ⟨-, hkey⟩ := hfor.readMade hread
      obtain rfl := Option.some.inj (hkey.trans hjoined)
      exact absurd (hfind.symm.trans hnone) (by simp)
  | @called made log asking call key? v h hmarker hread hnew hcall hresult ih =>
      have hbefore : Entries.find? made key = none := by
        rw [Directive.find?_keep] at hnone
        split at hnone
        · exact absurd hnone (by simp)
        · exact hnone
      refine List.forall_mem_cons.mpr ⟨fun name id hfor hjoined w _ => ?_, ih hbefore⟩
      obtain ⟨-, rfl⟩ := hfor.readMade hread
      rw [Directive.find?_keep, if_pos hjoined] at hnone
      exact absurd hnone (by simp)

/-- **What is remembered under a text is what the first successful call under it has made.** -/
theorem exists_first (h : Ledger generators made log) {key : String} {v : Value}
    (hfind : Entries.find? made key = some v) :
    ∃ name id, Directive.joined name id = some key ∧ FirstGave generators log name id v := by
  induction h with
  | start => exact absurd hfind (by simp)
  | @aside made log asking h hmarker ih =>
      obtain ⟨name, id, hjoined, hfirst⟩ := ih hfind
      exact ⟨name, id, hjoined, hfirst.cons asking⟩
  | @refused made log asking fault h hresult ih =>
      obtain ⟨name, id, hjoined, hfirst⟩ := ih hfind
      exact ⟨name, id, hjoined, hfirst.cons asking⟩
  | @again made log asking call key' v' h hmarker hread hfind' hresult ih =>
      obtain ⟨name, id, hjoined, hfirst⟩ := ih hfind
      exact ⟨name, id, hjoined, hfirst.cons asking⟩
  | @called made log asking call key? v' h hmarker hread hnew hcall hresult ih =>
      rw [Directive.find?_keep] at hfind
      split at hfind
      · rename_i hkey?
        subst hkey?
        obtain rfl := Option.some.inj hfind
        obtain ⟨-, hname, hkey⟩ := Directive.readMade_eq_ok hread
        obtain ⟨id, hid, hjoined⟩ := Directive.sharedKey?_eq_some_iff.mp hkey
        exact ⟨call.name, id, hjoined, [], asking, log, rfl, ⟨hmarker, hname, hid⟩, hresult,
          Asking.called_of_generate hread hcall, fun other hother hfor =>
            h.ungiven hnew other hother call.name id hfor hjoined⟩
      · obtain ⟨name, id, hjoined, hfirst⟩ := ih hfind
        exact ⟨name, id, hjoined, hfirst.cons asking⟩

/-- Every handler keeps the record. -/
theorem preserves_watched {setting : Setting} {handler : Handler (Memory σ)}
    (hhandler : handler = .generator generators ∨ handler.Aside) :
    handler.watched.Preserves setting fun memory => Ledger generators memory.1.made memory.2 := by
  rintro directive context ⟨memory, log⟩ - h
  obtain rfl | haside := hhandler
  · simp only [Handler.watched, Handler.generator, Directive.composeMade]
    cases hread : Directive.readMade directive with
    | error fault => exact h.refused rfl
    | ok read =>
        obtain ⟨call, key?⟩ := read
        simp only [Directive.make]
        cases hfind : key?.bind (Entries.find? memory.made) with
        | some v =>
            obtain ⟨key, rfl, hfind⟩ := Option.bind_eq_some_iff.mp hfind
            exact h.again rfl hread hfind rfl
        | none =>
            rcases hcall : generators.generate call.name call.args memory.world with
              ⟨fault | v, world⟩
            · exact h.refused rfl
            · exact h.called rfl hread hfind hcall rfl
  · simp only [Handler.watched, haside.made]
    exact h.aside haside.marker

end Ledger

theorem Handler.made_forgetAll {handlers : List (Handler (Memory σ))}
    (hgenerator : .generator generators ∈ handlers)
    (hhandlers : ∀ handler ∈ handlers, handler = .generator generators ∨ handler.Aside)
    (memory : Memory σ) : (forgetAll handlers memory).made = [] := by
  have hstays : ∀ handlers : List (Handler (Memory σ)),
      (∀ handler ∈ handlers, handler = .generator generators ∨ handler.Aside) →
      ∀ memory : Memory σ, memory.made = [] → (forgetAll handlers memory).made = [] := by
    intro handlers hhandlers
    induction handlers with
    | nil => exact fun _ h => h
    | cons handler handlers ih =>
        intro memory h
        obtain ⟨hhandler, hhandlers⟩ := List.forall_mem_cons.mp hhandlers
        refine ih hhandlers _ ?_
        obtain rfl | haside := hhandler
        · rfl
        · rw [haside.forget, h]
  obtain ⟨before, after, rfl⟩ := List.append_of_mem hgenerator
  simp only [forgetAll, List.foldl_append, List.foldl_cons]
  exact hstays after (fun handler h => hhandlers handler (by simp [h])) _ rfl

namespace Composer

open Composing

variable {composer : Composer (Memory σ)} {memory : Memory σ × List (Asking (Memory σ))}

/-- At every moment the record says what is remembered. -/
theorem Remembers.ledger (hgenerator : .generator generators ∈ composer.handlers)
    (hhandlers : ∀ handler ∈ composer.handlers, handler = .generator generators ∨ handler.Aside)
    (hfresh : composer.memory.made = []) (h : composer.watched.Remembers memory) :
    Ledger generators memory.1.made memory.2 := by
  let Inv (memory : Memory σ × List (Asking (Memory σ))) : Prop :=
    Ledger generators memory.1.made memory.2
  show Inv memory
  refine h.preserved (fun setting handler hmem => ?_) (fun memory _ => ?_) ?_
  · obtain ⟨handler, hhandler, rfl⟩ := List.mem_map.mp hmem
    exact Ledger.preserves_watched (hhandlers handler hhandler)
  · show Ledger generators
      (Handler.forgetAll (composer.handlers.map Handler.watched) memory).1.made _
    rw [Handler.watched_extension.forgetAll, Handler.made_forgetAll hgenerator hhandlers,
      show (Handler.forgetAll composer.watched.handlers memory).2 = [] from
        Handler.forgetAll_watched_record (List.ne_nil_of_mem hgenerator) memory]
    exact .start
  · show Ledger generators composer.memory.made []
    rw [hfresh]
    exact .start

/-- **If no two names and ids that were asked for are joined to the same text, every directive gets
the value that the first successful call for its own name and id has made, and a name that is not
registered is a fault.**  This holds of everything that was asked for since a composer last forgot,
in all documents it composed, those that are composed on their own included, and however far it has
come in the last of them.  A composer comes to the same whether its handlers are watched or not. -/
theorem made_values_shared (hgenerator : .generator generators ∈ composer.handlers)
    (hhandlers : ∀ handler ∈ composer.handlers, handler = .generator generators ∨ handler.Aside)
    (hfresh : composer.memory.made = []) (h : composer.watched.Remembers memory)
    (hapart : Apart memory.2) {newer older : List (Asking (Memory σ))} {asking : Asking (Memory σ)}
    (hlog : memory.2 = newer ++ asking :: older)
    (hmarker : asking.marker = Directive.generatorMarker) {name : String}
    (hname : Directive.payload asking.directive Directive.generatorMarker = .ok name) :
    (∀ requests, (composer.watched.serve requests).map
        (fun watched => watched.unrecorded composer.handlers) = composer.serve requests) ∧
      ((∃ fault, asking.result = .error fault) ∨ ∃ v, asking.Gave v) ∧
      (generators.find? name = none → ∃ fault, asking.result = .error fault) ∧
      ∀ id v, Directive.option? asking.directive "id" = some id → asking.Gave v →
        FirstGave generators (asking :: older) name id v := by
  refine ⟨serve_watched composer, ?_⟩
  have hledger := h.ledger hgenerator hhandlers hfresh
  rw [hlog] at hledger
  obtain ⟨made, hledger⟩ := hledger.of_append
  have hmem : ∀ other ∈ asking :: older, other ∈ memory.2 := fun other hother =>
    hlog ▸ List.mem_append_right newer hother
  generalize hentries : asking :: older = entries at hledger hmem
  cases hledger with
  | start => exact absurd hentries (by simp)
  | aside _ hother =>
      obtain ⟨rfl, rfl⟩ := List.cons.inj hentries
      exact absurd hmarker hother
  | refused _ hresult =>
      obtain ⟨rfl, rfl⟩ := List.cons.inj hentries
      refine ⟨.inl ⟨_, hresult⟩, fun _ => ⟨_, hresult⟩, fun id v _ hgave => ?_⟩
      exact absurd (hresult.symm.trans hgave) (by simp)
  | @again _ _ _ call key w hbefore _ hread hfind hresult =>
      obtain ⟨rfl, rfl⟩ := List.cons.inj hentries
      obtain ⟨-, hname', hkey⟩ := Directive.readMade_eq_ok hread
      obtain rfl := Except.ok.inj (hname.symm.trans hname')
      obtain ⟨id, hid, hjoined⟩ := Directive.sharedKey?_eq_some_iff.mp hkey
      obtain ⟨name', id', hjoined', hfirst⟩ := hbefore.exists_first hfind
      -- The first that was given this value asked for the same name and id, or the texts differ.
      obtain ⟨rfl, rfl⟩ : call.name = name' ∧ id = id' := by
        obtain ⟨newer', first, older', rfl, hfor, -⟩ := hfirst
        exact hapart asking (hmem _ List.mem_cons_self) first (hmem _ (by simp)) _ _ _ _ key
          ⟨hmarker, hname, hid⟩ hfor hjoined hjoined'
      refine ⟨.inr ⟨w, hresult⟩, fun hnone => ?_, fun id' v hid' hgave => ?_⟩
      · obtain ⟨-, -, -, -, -, -, ⟨generator, -, hgenerator, -⟩, -⟩ := hfirst
        exact absurd (hnone.symm.trans hgenerator) (by simp)
      · obtain rfl := Option.some.inj (hid.symm.trans hid')
        obtain rfl := Outcome.success.inj (Except.ok.inj (hresult.symm.trans hgave))
        exact hfirst.cons asking
  | @called _ _ _ call key? w hbefore _ hread hnew hcall hresult =>
      obtain ⟨rfl, rfl⟩ := List.cons.inj hentries
      obtain ⟨-, hname', hkey⟩ := Directive.readMade_eq_ok hread
      obtain rfl := Except.ok.inj (hname.symm.trans hname')
      have hcalled := Asking.called_of_generate hread hcall
      refine ⟨.inr ⟨w, hresult⟩, fun hnone => ?_, fun id v hid hgave => ?_⟩
      · obtain ⟨generator, -, hgenerator, -⟩ := hcalled
        exact absurd (hnone.symm.trans hgenerator) (by simp)
      · obtain rfl := Outcome.success.inj (Except.ok.inj (hresult.symm.trans hgave))
        have hfor : asking.For call.name id := ⟨hmarker, hname, hid⟩
        refine ⟨[], asking, older, rfl, hfor, hresult, hcalled, fun other hother hfor' => ?_⟩
        cases key? with
        | none => exact absurd (hid.symm.trans (Directive.sharedKey?_eq_none_iff.mp hkey)) (by simp)
        | some key =>
            obtain ⟨-, hjoined⟩ := hfor.readMade hread
            exact hbefore.ungiven hnew other hother call.name id hfor' hjoined.symm

/-- Two generators, the name of one of which goes on where that of the other ends. -/
def counters : Generators Nat :=
  ⟨[("Counter", fun _ n => (.ok (.int (n + 1)), n + 1)),
    ("Counter.x", fun _ n => (.ok (.int (n + 101)), n + 1))]⟩

/-- A directive that asks a generator for a value that those with the same id share. -/
def sharing (name id : String) : Value :=
  .map [("!gen", .text name), ("$id", .text id)]

/-- A composer of a document with two directives, with the standard handlers. -/
def sharingComposer (first second : Value) : Composer (Memory Nat) :=
  .standard counters 0 { backend := .direct } (.map [("a", first), ("b", second)])

/-- The state when both directives have got the number one, the first of them from its generator. -/
def gaveBoth (name id name' id' key : String) :
    Progress (Memory Nat × List (Asking (Memory Nat))) :=
  let after : Memory Nat := { Memory.start 1 with made := [(key, .int 1)] }
  ⟨.direct ⟨.map [("a", .int 1), ("b", .int 1)]⟩, [], (after,
    [⟨"!gen", [("!gen", .text name'), ("$id", .text id')], after, .ok (.success (.int 1)), after⟩,
      ⟨"!gen", [("!gen", .text name), ("$id", .text id)], Memory.start 0, .ok (.success (.int 1)),
        after⟩]), [], true⟩

theorem asking_for_sharing {asking : Asking (Memory Nat)} {name id : String}
    (hmarker : asking.marker = "!gen")
    (hdirective : asking.directive = [("!gen", .text name), ("$id", .text id)]) :
    asking.For name (.text id) :=
  ⟨hmarker, by rw [hdirective]; rfl, by rw [hdirective]; rfl⟩

theorem remembers_sharing {first second : Value}
    {q : Progress (Memory Nat × List (Asking (Memory Nat)))}
    (hround : round ((sharingComposer first second).watched.workshop bareSetting) [[]]
      (sharingComposer first second).watched.progress = some (.ended (.ok ()) q)) :
    (sharingComposer first second).watched.Remembers q.memory := by
  have hcompose : (sharingComposer first second).watched.composeAt bareSetting .root = _ :=
    composeAt_of_ran (.ended hround)
  exact .served (serve_compose hcompose)

/-- Two directives of the same name and id get the value that was made for the first of them. -/
theorem made_values_shared_by_two :
    let composer := sharingComposer (sharing "Counter" "x") (sharing "Counter" "x")
    .generator counters ∈ composer.handlers ∧
      (∀ handler ∈ composer.handlers, handler = .generator counters ∨ handler.Aside) ∧
      composer.memory.made = [] ∧ ∃ memory, composer.watched.Remembers memory ∧ Apart memory.2 ∧
        ∃ second first, memory.2 = [] ++ second :: [first] ∧ second.For "Counter" (.text "x") ∧
          second.Gave (.int 1) ∧ FirstGave counters memory.2 "Counter" (.text "x") (.int 1) := by
  intro composer
  have hgenerator : .generator counters ∈ composer.handlers := by
    simp [composer, sharingComposer, Composer.standard, Composer.new, Handler.standard]
  have hhandlers : ∀ handler ∈ composer.handlers, handler = .generator counters ∨ handler.Aside :=
    Handler.generator_or_aside
  have hround : round (composer.watched.workshop bareSetting) [[]] composer.watched.progress =
      some (.ended (.ok ()) (gaveBoth "Counter" "x" "Counter" "x" "Counter.x")) := by
    cbv
  have hremembers := remembers_sharing hround
  have hfor : ∀ asking ∈ (gaveBoth "Counter" "x" "Counter" "x" "Counter.x").memory.2,
      asking.For "Counter" (.text "x") := by
    refine List.forall_mem_cons.mpr ⟨asking_for_sharing rfl rfl, ?_⟩
    exact List.forall_mem_cons.mpr ⟨asking_for_sharing rfl rfl, by simp⟩
  have hapart : Apart (gaveBoth "Counter" "x" "Counter" "x" "Counter.x").memory.2 := by
    intro asking hasking other hother name name' id id' _ hname hname' _ _
    obtain ⟨-, hfirst, hid⟩ := hfor asking hasking
    obtain ⟨-, hsecond, hid'⟩ := hfor other hother
    have hnames : (Except.ok name : Except Fault String) = .ok name' := by
      rw [← hname.name, ← hname'.name, hfirst, hsecond]
    have hids : some id = some id' := by
      rw [← hname.id, ← hname'.id, hid, hid']
    exact ⟨Except.ok.inj hnames, Option.some.inj hids⟩
  obtain ⟨-, -, -, hshared⟩ : _ ∧ (_ ∨ _) ∧ (counters.find? "Counter" = none → _) ∧ _ :=
    made_values_shared hgenerator hhandlers rfl hremembers hapart (List.nil_append _).symm rfl rfl
  exact ⟨hgenerator, hhandlers, rfl, _, hremembers, hapart, _, _, rfl, asking_for_sharing rfl rfl,
    rfl, hshared _ _ rfl rfl⟩

/-- **A directive gets the value that was made for one of another name and another id.**  Its own
generator was not called at all. -/
theorem made_value_strayed :
    ∃ memory, (sharingComposer (sharing "Counter" "x.y")
        (sharing "Counter.x" "y")).watched.Remembers memory ∧
      ∃ second first, memory.2 = [second, first] ∧
        first.For "Counter" (.text "x.y") ∧ first.Gave (.int 1) ∧
        second.For "Counter.x" (.text "y") ∧ second.Gave (.int 1) ∧
        ¬ FirstGave counters memory.2 "Counter.x" (.text "y") (.int 1) := by
  have hround : round ((sharingComposer (sharing "Counter" "x.y")
      (sharing "Counter.x" "y")).watched.workshop bareSetting) [[]]
      (sharingComposer (sharing "Counter" "x.y") (sharing "Counter.x" "y")).watched.progress =
        some (.ended (.ok ()) (gaveBoth "Counter" "x.y" "Counter.x" "y" "Counter.x.y")) := by
    cbv
  refine ⟨_, remembers_sharing hround, _, _, rfl, asking_for_sharing rfl rfl, rfl,
    asking_for_sharing rfl rfl, rfl, ?_⟩
  -- The generator of this name only makes numbers from a hundred and one on.
  rintro ⟨_, first, _, _, _, _, ⟨generator, args, hfind, -, hcall⟩, -⟩
  obtain rfl := Option.some.inj ((show counters.find? "Counter.x" = _ from rfl).symm.trans hfind)
  have hvalue : (first.before.world : Int) + 101 = 1 :=
    Number.integer.inj (Value.number.inj (Except.ok.inj (Prod.mk.inj hcall).1))
  omega

end Composer

end Docweave
