import Docweave.Proofs.Composing.Watching
import Docweave.Proofs.Including.Isolation

/-!
Remembering what was read of files makes no difference.

A handler of files that remembers what it has read and one that reads every time are `Alike`: they
take the same directives, and from memories that the files bear out they come to the same answer
and to such memories again.  So two composers with the standard handlers, of which one remembers
what it reads, go through their runs together and are alike after every request, whether composing
ends, ends in a fault or goes on for ever (`Composer.composeAt_alike`, `Composer.serve_alike`).

The files are the same all the while.  Made values are remembered either way and are not touched
by this: generators are called for the same directives in the same order, since the state that they
draw from is the same at every moment.
-/

namespace Docweave

open Composing

/-- Memories that files bear out, and that differ in what they keep of files alone. -/
structure Memory.Alike {σ : Type} (disk : Files) (m n : Memory σ) : Prop where
  left : m.Coherent disk
  right : n.Coherent disk
  made : m.made = n.made
  world : m.world = n.world

theorem Memory.alike_start {σ : Type} (disk : Files) (world : σ) :
    (Memory.start world).Alike disk (Memory.start world) :=
  ⟨coherent_start disk world, coherent_start disk world, rfl, rfl⟩

/-! ### What reading a file gives -/

namespace Directive

/-- The answer to a file directive that is read now. -/
def freshFile (reader : Reader) (disk : Files) (directive : Fields) : Except Fault Outcome := do
  let raw ← payload directive fileMarker
  let v ← Reader.readAt disk .json (reader.resolve raw)
  .ok (.success v)

/-- The answer to an include directive that is read now. -/
def freshInclusion (reader : Reader) (disk : Files) (directive : Fields) :
    Except Fault Outcome := do
  let inclusion ← Inclusion.read reader directive
  let v ← Reader.readAt disk inclusion.format inclusion.location
  .ok (inclusion.outcome v)

end Directive

namespace Handler

variable {σ : Type} {disk : Files} {generators : Generators σ} {matchers : Matchers}
  {access : FileAccess} {context : Context} {memory : Memory σ}

theorem fst_compose_file (hmemory : memory.Coherent context.setting.files) (directive : Fields) :
    ((file access).compose directive context memory).1 =
      Directive.freshFile access.reader context.setting.files directive := by
  rw [compose_file_of_coherent hmemory, Directive.freshFile]
  cases Directive.payload directive Directive.fileMarker with
  | error fault => rfl
  | ok raw =>
      simp only [bind, Except.bind]
      cases Reader.readAt context.setting.files .json (access.reader.resolve raw) <;> rfl

theorem fst_compose_inclusion (hmemory : memory.Coherent context.setting.files)
    (directive : Fields) :
    ((inclusion access).compose directive context memory).1 =
      Directive.freshInclusion access.reader context.setting.files directive := by
  rw [compose_inclusion_of_coherent hmemory, Directive.freshInclusion]
  cases Directive.Inclusion.read access.reader directive with
  | error fault => rfl
  | ok inclusion =>
      simp only [bind, Except.bind]
      cases Reader.readAt context.setting.files inclusion.format inclusion.location <;> rfl

/-! ### Handlers that answer alike -/

/-- Handlers that take the same directives and answer them alike, as long as what they remember of
files is what reading gives. -/
structure Alike (disk : Files) (handler handler' : Handler (Memory σ)) : Prop where
  marker : handler.marker = handler'.marker
  takes : handler.takes = handler'.takes
  answer : ∀ directive {context m n}, context.setting.files = disk → Memory.Alike disk m n →
    (handler.compose directive context m).1 = (handler'.compose directive context n).1 ∧
      Memory.Alike disk (handler.compose directive context m).2
        (handler'.compose directive context n).2
  forget : ∀ {m n}, Memory.Alike disk m n → Memory.Alike disk (handler.forget m) (handler'.forget n)

/-- A handler that remembers nothing is like itself. -/
theorem alike_stateless (name marker : String)
    (compose : Fields → Context → Except Fault Outcome) :
    Alike disk (stateless name marker compose : Handler (Memory σ))
      (stateless name marker compose) where
  marker := rfl
  takes := rfl
  answer _ _ _ _ _ h := ⟨rfl, h⟩
  forget h := h

/-- What handlers remember of files is what reading gives, so only their answers and what else they
remember have to be compared. -/
theorem alike_of_mem_standard {access' : FileAccess} {handler handler' : Handler (Memory σ)}
    (hmem : handler ∈ standard generators matchers access)
    (hmem' : handler' ∈ standard generators matchers access')
    (hmarker : handler.marker = handler'.marker) (htakes : handler.takes = handler'.takes)
    (hanswer : ∀ directive context m n, Memory.Alike context.setting.files m n →
      (handler.compose directive context m).1 = (handler'.compose directive context n).1 ∧
      (handler.compose directive context m).2.made =
        (handler'.compose directive context n).2.made ∧
      (handler.compose directive context m).2.world =
        (handler'.compose directive context n).2.world)
    (hforget : ∀ m n, Memory.Alike disk m n →
      Memory.Alike disk (handler.forget m) (handler'.forget n)) :
    Alike disk handler handler' where
  marker := hmarker
  takes := htakes
  answer directive context m n hdisk h := by
    subst hdisk
    obtain ⟨hsame, hmade, hworld⟩ := hanswer directive context m n h
    exact ⟨hsame, coherent_of_mem_standard handler hmem directive context m rfl h.left,
      coherent_of_mem_standard handler' hmem' directive context n rfl h.right, hmade, hworld⟩
  forget h := hforget _ _ h

theorem file_keeps (access : FileAccess) (directive : Fields) (context : Context)
    (memory : Memory σ) :
    ((file access).compose directive context memory).2.made = memory.made ∧
      ((file access).compose directive context memory).2.world = memory.world := by
  simp only [file]
  split
  · exact ⟨rfl, rfl⟩
  · split <;> exact ⟨rfl, rfl⟩

theorem inclusion_keeps (access : FileAccess) (directive : Fields) (context : Context)
    (memory : Memory σ) :
    ((inclusion access).compose directive context memory).2.made = memory.made ∧
      ((inclusion access).compose directive context memory).2.world = memory.world := by
  simp only [inclusion]
  split
  · exact ⟨rfl, rfl⟩
  · split <;> exact ⟨rfl, rfl⟩

/-- Making a value has nothing to do with files. -/
theorem make_alike {call : Directive.Call} {key? : Option String} {m n : Memory σ}
    (hmade : m.made = n.made) (hworld : m.world = n.world) :
    (Directive.make generators call key? m).1 = (Directive.make generators call key? n).1 ∧
      (Directive.make generators call key? m).2.made =
        (Directive.make generators call key? n).2.made ∧
      (Directive.make generators call key? m).2.world =
        (Directive.make generators call key? n).2.world := by
  unfold Directive.make
  rw [← hmade, ← hworld]
  cases key?.bind (Entries.find? m.made) with
  | some v => exact ⟨rfl, hmade, hworld⟩
  | none =>
      obtain ⟨fault | v, world⟩ := generators.generate call.name call.args m.world
      · exact ⟨rfl, rfl, rfl⟩
      · exact ⟨rfl, rfl, rfl⟩

theorem composeMade_alike {directive : Fields} {m n : Memory σ} (hmade : m.made = n.made)
    (hworld : m.world = n.world) :
    (Directive.composeMade generators directive m).1 =
        (Directive.composeMade generators directive n).1 ∧
      (Directive.composeMade generators directive m).2.made =
        (Directive.composeMade generators directive n).2.made ∧
      (Directive.composeMade generators directive m).2.world =
        (Directive.composeMade generators directive n).2.world := by
  simp only [Directive.composeMade]
  cases Directive.readMade directive with
  | error fault => exact ⟨rfl, hmade, hworld⟩
  | ok made =>
      obtain ⟨call, key?⟩ := made
      have hmake := @make_alike _ generators call key? m n hmade hworld
      simp only
      generalize Directive.make generators call key? m = x at hmake
      generalize Directive.make generators call key? n = y at hmake
      obtain ⟨xanswer, x⟩ := x
      obtain ⟨yanswer, y⟩ := y
      obtain ⟨rfl, hkept⟩ := hmake
      cases xanswer with
      | error fault => exact ⟨rfl, hkept⟩
      | ok v => exact ⟨rfl, hkept⟩

theorem alike_file (disk : Files) (generators : Generators σ) (matchers : Matchers)
    (reader : Reader) (caching caching' : Bool) :
    Alike disk (file ⟨reader, caching⟩ : Handler (Memory σ)) (file ⟨reader, caching'⟩) := by
  have hmem : ∀ access, file access ∈ standard generators matchers access := by simp [standard]
  refine alike_of_mem_standard (hmem _) (hmem _) rfl rfl (fun directive context m n h => ?_)
    fun m n h => ⟨⟨fun hfind => absurd hfind (by simp [file]), h.left.includes⟩,
      ⟨fun hfind => absurd hfind (by simp [file]), h.right.includes⟩, h.made, h.world⟩
  obtain ⟨hmade, hworld⟩ := file_keeps ⟨reader, caching⟩ directive context m
  obtain ⟨hmade', hworld'⟩ := file_keeps ⟨reader, caching'⟩ directive context n
  rw [fst_compose_file h.left, fst_compose_file h.right, hmade, hmade', hworld, hworld']
  exact ⟨rfl, h.made, h.world⟩

theorem alike_inclusion (disk : Files) (generators : Generators σ) (matchers : Matchers)
    (reader : Reader) (caching caching' : Bool) :
    Alike disk (inclusion ⟨reader, caching⟩ : Handler (Memory σ))
      (inclusion ⟨reader, caching'⟩) := by
  have hmem : ∀ access, inclusion access ∈ standard generators matchers access := by
    simp [standard]
  refine alike_of_mem_standard (hmem _) (hmem _) rfl rfl (fun directive context m n h => ?_)
    fun m n h => ⟨⟨h.left.files, fun hfind => absurd hfind (by simp [inclusion])⟩,
      ⟨h.right.files, fun hfind => absurd hfind (by simp [inclusion])⟩, h.made, h.world⟩
  obtain ⟨hmade, hworld⟩ := inclusion_keeps ⟨reader, caching⟩ directive context m
  obtain ⟨hmade', hworld'⟩ := inclusion_keeps ⟨reader, caching'⟩ directive context n
  rw [fst_compose_inclusion h.left, fst_compose_inclusion h.right, hmade, hmade', hworld, hworld']
  exact ⟨rfl, h.made, h.world⟩

theorem alike_generator (disk : Files) (generators : Generators σ) (matchers : Matchers)
    (access : FileAccess) : Alike disk (generator generators) (generator generators) := by
  have hmem : generator generators ∈ standard generators matchers access := by simp [standard]
  exact alike_of_mem_standard hmem hmem rfl rfl
    (fun directive context m n h => composeMade_alike h.made h.world)
    fun m n h => ⟨⟨h.left.files, h.left.includes⟩, ⟨h.right.files, h.right.includes⟩, rfl, h.world⟩

/-- **Whether the standard handlers remember what they read makes no difference to their
answers.** -/
theorem alike_standard (disk : Files) (generators : Generators σ) (matchers : Matchers)
    (reader : Reader) (caching caching' : Bool) :
    List.Forall₂ (Alike disk) (standard generators matchers ⟨reader, caching⟩)
      (standard generators matchers ⟨reader, caching'⟩) := by
  have hmatcher : Alike disk (matcher matchers : Handler (Memory σ)) (matcher matchers) :=
    alike_stateless "Matcher" Directive.matcherMarker (Directive.composeMatcher matchers)
  simp only [standard, List.forall₂_cons, List.forall₂_nil_left_iff]
  exact ⟨alike_stateless _ _ _, alike_stateless _ _ _,
    alike_file disk generators matchers reader caching caching',
    alike_inclusion disk generators matchers reader caching caching',
    alike_generator disk generators matchers ⟨reader, caching⟩, hmatcher, trivial⟩

/-- Among the standard handlers there is one for each marker. -/
theorem eq_of_marker_eq {handler handler' : Handler (Memory σ)}
    (hmem : handler ∈ standard generators matchers access)
    (hmem' : handler' ∈ standard generators matchers access)
    (hmarker : handler.marker = handler'.marker) : handler = handler' := by
  have hnodup : (markers (standard generators matchers access)).Nodup :=
    show Composer.standardMarkers.Nodup by decide
  exact List.inj_on_of_nodup_map hnodup hmem hmem' hmarker

section

variable {handlers handlers' : List (Handler (Memory σ))}

theorem markers_of_alike (h : List.Forall₂ (Alike disk) handlers handlers') :
    markers handlers' = markers handlers := by
  induction h with
  | nil => rfl
  | cons hhandler _ ih =>
      show _ :: markers _ = _ :: markers _
      rw [ih, hhandler.marker]

/-- A directive is taken by handlers that are alike, or by none. -/
theorem find?_of_alike (h : List.Forall₂ (Alike disk) handlers handlers') (directive : Fields) :
    Option.Rel (Alike disk) (find? handlers directive) (find? handlers' directive) := by
  induction h with
  | nil => exact .none
  | @cons handler handler' rest rest' hhandler _ ih =>
      rw [find?, find?, List.find?_cons, List.find?_cons, ← hhandler.takes]
      cases handler.takes directive with
      | true => exact .some hhandler
      | false => exact ih

theorem forgetAll_of_alike (h : List.Forall₂ (Alike disk) handlers handlers') {m n : Memory σ}
    (hmemory : Memory.Alike disk m n) :
    Memory.Alike disk (forgetAll handlers m) (forgetAll handlers' n) := by
  induction h generalizing m n with
  | nil => exact hmemory
  | cons hhandler _ ih => exact ih (hhandler.forget hmemory)

end

end Handler

/-! ### Composers that come to the same -/

namespace Composer

variable {σ : Type} {disk : Files} {a b : Composer (Memory σ)} {setting : Setting}
  {generators : Generators σ} {world : σ} {options : ComposeOptions} {content : Value}

/-- Composers of one document with handlers that answer alike. -/
structure Alike (disk : Files) (a b : Composer (Memory σ)) : Prop where
  store : a.store = b.store
  completed : a.completed = b.completed
  maxDepth : a.maxDepth = b.maxDepth
  handlers : List.Forall₂ (Handler.Alike disk) a.handlers b.handlers
  memory : Memory.Alike disk a.memory b.memory

theorem alike_standard (disk : Files) (generators : Generators σ) (world : σ)
    (options : ComposeOptions) (caching caching' : Bool) (content : Value) :
    Alike disk (standard generators world { options with caching := caching } content)
      (standard generators world { options with caching := caching' } content) where
  store := rfl
  completed := rfl
  maxDepth := rfl
  handlers := Handler.alike_standard disk generators _ _ caching caching'
  memory := Memory.alike_start disk world

theorem Alike.forget (h : Alike disk a b) : Alike disk a.forget b.forget :=
  ⟨h.store, rfl, h.maxDepth, h.handlers, Handler.forgetAll_of_alike h.handlers h.memory⟩

/-- The runs of composers that are alike go together, each over a document of its own too. -/
theorem Alike.together (h : Alike disk a b) (hsetting : setting.files = disk) (start : Pointer) :
    Together Eq (Agree (Memory.Alike disk)) (a.run setting start).result
      (b.run setting start).result := by
  have hrun : (a.run setting start).exchanged b.handlers b.maxDepth b.memory =
      b.run setting start := by
    simp only [run, Run.exchanged, progress, Progress.withMemory, h.store, h.completed, h.maxDepth]
  rw [← hrun]
  refine Run.together likens_eq ?_ (Handler.markers_of_alike h.handlers) ?_ ?_ h.memory
  · exact congrArg (fun depth => Fault.refused .root (.contextDepth depth)) h.maxDepth
  · intro directive hnone
    have hfind := Handler.find?_of_alike h.handlers directive
    rw [show Handler.find? a.handlers directive = none from hnone] at hfind
    generalize Handler.find? b.handlers directive = found at hfind ⊢
    cases hfind
    rfl
  · intro inner hinner site s directive handler hmeets
    have hhandler : Handler.find? (a.run setting start).handlers directive = some handler :=
      hinner.handlers_eq ▸ hmeets.find
    have hfiles : (contextAt inner.workshop site s).setting.files = disk :=
      (congrArg Setting.files hinner.setting_eq).trans hsetting
    have hfind := Handler.find?_of_alike h.handlers directive
    rw [show Handler.find? a.handlers directive = some handler from hhandler] at hfind
    cases hfind' : Handler.find? b.handlers directive with
    | none => rw [hfind'] at hfind; cases hfind
    | some handler' =>
        rw [hfind'] at hfind
        obtain ⟨halike⟩ := hfind
        refine ⟨handler', hfind', fun n hmemory => ?_⟩
        obtain ⟨hsame, hafter⟩ := halike.answer directive hfiles hmemory
        exact .of_fst_eq likens_eq hsame hafter

/-- **Composing comes to the same result with the same document, or never ends for both.** -/
theorem composeAt_alike (h : Alike disk a b) (hsetting : setting.files = disk) (start : Pointer) :
    Option.Rel (fun x y => x.1 = y.1 ∧ Alike disk x.2 y.2) (a.composeAt setting start)
      (b.composeAt setting start) := by
  have htogether := h.together hsetting start
  show Option.Rel _ ((a.run setting start).result.map _) ((b.run setting start).result.map _)
  generalize (a.run setting start).result = x at htogether
  generalize (b.run setting start).result = y at htogether
  cases htogether with
  | never => exact .none
  | ok hagree =>
      obtain ⟨hmemory⟩ := hagree
      exact .some ⟨rfl, rfl, rfl, h.maxDepth, h.handlers, hmemory⟩
  | fault hfault hagree =>
      obtain ⟨hmemory⟩ := hagree
      exact .some ⟨congrArg Except.error hfault, rfl, rfl, h.maxDepth, h.handlers, hmemory⟩

/-- The request composes over these files, if it does. -/
def Request.Over (disk : Files) : Request → Prop
  | .compose setting _ => setting.files = disk
  | .forget => True

/-- Composers that are alike are alike after every request. -/
theorem serve_alike {requests : List Request} (h : Alike disk a b)
    (hrequests : ∀ request ∈ requests, request.Over disk) :
    Option.Rel (Alike disk) (a.serve requests) (b.serve requests) := by
  induction requests generalizing a b with
  | nil => exact .some h
  | cons request requests ih =>
      obtain ⟨hrequest, hrest⟩ := List.forall_mem_cons.mp hrequests
      cases request with
      | compose setting start =>
          have hcompose := composeAt_alike h hrequest start
          simp only [serve]
          generalize a.composeAt setting start = x at hcompose
          generalize b.composeAt setting start = y at hcompose
          cases hcompose with
          | none => exact .none
          | some hend => exact ih hend.2 hrest
      | forget => exact ih h.forget hrest

/-- What composing at a pointer answers: its result and the document it leaves. -/
def answer? (composer : Composer (Memory σ)) (setting : Setting) (start : Pointer) :
    Option (Except Fault Unit × Store) :=
  (composer.composeAt setting start).map fun end_ => (end_.1, end_.2.store)

theorem answer?_eq (h : Alike disk a b) (hsetting : setting.files = disk) (start : Pointer) :
    a.answer? setting start = b.answer? setting start := by
  have hcompose := composeAt_alike h hsetting start
  unfold answer?
  generalize a.composeAt setting start = x at hcompose
  generalize b.composeAt setting start = y at hcompose
  cases hcompose with
  | none => rfl
  | some hend => simp only [Option.map_some, hend.1, hend.2.store]

theorem composeValue_eq_answer? :
    composeValue setting generators world options content =
      ((standard generators world options content).answer? setting .root).map fun end_ =>
        end_.1.map fun _ => end_.2.content := by
  simp only [composeValue, compose, answer?]
  rcases (standard generators world options content).composeAt setting .root with
    _ | ⟨fault | _, composer⟩ <;> rfl

theorem composeNode_eq_answer? {pointer : Pointer} :
    composeNode setting generators world options content pointer =
      ((standard generators world options content).answer? setting pointer).map fun end_ =>
        end_.1.bind fun _ => end_.2.get pointer := by
  simp only [composeNode, answer?]
  rcases (standard generators world options content).composeAt setting pointer with
    _ | ⟨fault | _, composer⟩ <;> rfl

/-! ### What is answered in the course of a run -/

/-- Whatever of its directives of files a run comes to hand over, in its document or in one that is
composed on its own, is answered with what reading the file gives. -/
def ReadsFresh (run : Run (Memory σ)) (reader : Reader) : Prop :=
  ∀ inner, run.Nests inner → ∀ site s directive handler, inner.Meets site s directive handler →
    (handler.marker = Directive.fileMarker →
      (handler.compose directive (contextAt inner.workshop site s) s.memory).1 =
        Directive.freshFile reader run.setting.files directive) ∧
    (handler.marker = Directive.includeMarker →
      (handler.compose directive (contextAt inner.workshop site s) s.memory).1 =
        Directive.freshInclusion reader run.setting.files directive)

theorem readsFresh_of_coherent {composer : Composer (Memory σ)} {matchers : Matchers}
    {access : FileAccess}
    (hhandlers : composer.handlers = Handler.standard generators matchers access)
    (hmemory : composer.memory.Coherent setting.files) (start : Pointer) :
    ReadsFresh (composer.run setting start) access.reader := by
  intro inner hinner site s directive handler hmeets
  have hstandard : inner.handlers = Handler.standard generators matchers access :=
    hinner.handlers_eq.trans hhandlers
  have hmem : handler ∈ Handler.standard generators matchers access :=
    hstandard ▸ List.mem_of_find?_eq_some hmeets.find
  have hpreserves : ∀ handler ∈ (composer.run setting start).handlers,
      handler.Preserves setting (Memory.Coherent setting.files) := by
    rw [show (composer.run setting start).handlers = _ from hhandlers]
    exact Handler.coherent_of_mem_standard
  have hfiles : (contextAt inner.workshop site s).setting.files = setting.files :=
    congrArg Setting.files hinner.setting_eq
  have hcoherent : s.memory.Coherent (contextAt inner.workshop site s).setting.files := by
    rw [hfiles]
    exact Run.memory_of_meets (hinner.preserves hpreserves)
      (Run.memory_of_nests hpreserves hmemory hinner) hmeets
  rw [show (composer.run setting start).setting.files = setting.files from rfl, ← hfiles]
  constructor
  · intro hmarker
    have hfile : .file access ∈ Handler.standard generators matchers access := by
      simp [Handler.standard]
    obtain rfl := Handler.eq_of_marker_eq hmem hfile hmarker
    exact Handler.fst_compose_file hcoherent directive
  · intro hmarker
    have hinclusion : .inclusion access ∈ Handler.standard generators matchers access := by
      simp [Handler.standard]
    obtain rfl := Handler.eq_of_marker_eq hmem hinclusion hmarker
    exact Handler.fst_compose_inclusion hcoherent directive

/-- **Remembering what was read of files makes no difference.**  Documents, nodes of them and
documents in files are composed to the same value or with the same fault; so are documents that one
composer goes on with after other requests, as long as the files stay as they are, and whatever is
answered to a directive of a file on the way is what reading gives. -/
theorem caching_makes_no_difference (setting : Setting) (generators : Generators σ) (world : σ)
    (options : ComposeOptions) :
    (∀ content,
      composeValue setting generators world { options with caching := true } content =
        composeValue setting generators world { options with caching := false } content) ∧
    (∀ content pointer,
      composeNode setting generators world { options with caching := true } content pointer =
        composeNode setting generators world { options with caching := false } content pointer) ∧
    (∀ location,
      composeFile setting generators world { options with caching := true } location =
        composeFile setting generators world { options with caching := false } location) ∧
    (∀ content requests, (∀ request ∈ requests, Request.Over setting.files request) → ∀ start,
      ((standard generators world { options with caching := true } content).serve requests).bind
          (fun composer => composer.answer? setting start) =
        ((standard generators world { options with caching := false } content).serve requests).bind
          fun composer => composer.answer? setting start) ∧
    (∀ content requests composer, (∀ request ∈ requests, Request.Over setting.files request) →
      (standard generators world options content).serve requests = some composer → ∀ start,
      ReadsFresh (composer.run setting start) ⟨options.base?⟩) := by
  have halike : ∀ content, Alike setting.files
      (standard generators world { options with caching := true } content)
      (standard generators world { options with caching := false } content) := fun content =>
    alike_standard setting.files generators world options true false content
  have hvalue : ∀ content,
      composeValue setting generators world { options with caching := true } content =
        composeValue setting generators world { options with caching := false } content := by
    intro content
    rw [composeValue_eq_answer?, composeValue_eq_answer?, answer?_eq (halike content) rfl]
  refine ⟨hvalue, ?_, ?_, ?_, ?_⟩
  · intro content pointer
    rw [composeNode_eq_answer?, composeNode_eq_answer?, answer?_eq (halike content) rfl]
  · intro location
    unfold composeFile
    cases loadContainer setting.files location with
    | error fault => rfl
    | ok content => exact hvalue content
  · intro content requests hrequests start
    have hserve := serve_alike (halike content) hrequests
    generalize (standard _ _ { options with caching := true } content).serve requests = x
      at hserve ⊢
    generalize (standard _ _ { options with caching := false } content).serve requests = y
      at hserve ⊢
    cases hserve with
    | none => rfl
    | some h => exact answer?_eq h rfl start
  · intro content requests composer hrequests hserve start
    have hsame := serve_alike (alike_standard setting.files generators world options
      options.caching options.caching content) hrequests
    rw [show (standard generators world { options with caching := options.caching } content) =
      standard generators world options content from rfl, hserve] at hsame
    obtain ⟨h⟩ := hsame
    exact readsFresh_of_coherent (handlers_of_serve hserve) h.memory.left start

/-- A composer that remembers what it reads, of a document that includes another. -/
def cachedPart : Composer (Memory Unit) :=
  standard (Generators.standard fun _ => (0, ())) ()
    { partOptions.hosting with caching := true } withPart

/-- A document that includes another comes to the same when what is read is remembered, also when
it has been composed and forgotten before, and the include is answered with what reading gives. -/
theorem caching_makes_no_difference_withPart :
    (∀ request ∈ [Request.compose partSetting .root, .forget], request.Over partSetting.files) ∧
      composeValue partSetting (Generators.standard fun _ => (0, ())) ()
          { partOptions.hosting with caching := true } withPart =
        some (.ok (.map [("a", .map [("x", .text "z"), ("y", .text "z")])])) ∧
      (cachedPart.serve [.compose partSetting .root, .forget]).bind
          (fun composer => composer.answer? partSetting .root) =
        ((including withPart).serve [.compose partSetting .root, .forget]).bind
          (fun composer => composer.answer? partSetting .root) ∧
      ∃ s, (cachedPart.run partSetting .root).Meets ["a"] s (included "part.json")
          (.inclusion ⟨⟨none⟩, true⟩) ∧
        ((Handler.inclusion ⟨⟨none⟩, true⟩).compose (included "part.json")
            (contextAt (cachedPart.run partSetting .root).workshop ["a"] s) s.memory).1 =
          Directive.freshInclusion ⟨none⟩ partSetting.files (included "part.json") := by
  obtain ⟨hvalue, -, -, hserved, -⟩ := caching_makes_no_difference partSetting
    (Generators.standard fun _ => (0, ())) () partOptions.hosting
  obtain ⟨-, -, -, -, hfresh⟩ := caching_makes_no_difference partSetting
    (Generators.standard fun _ => (0, ())) () { partOptions.hosting with caching := true }
  have hrequests : ∀ request ∈ [Request.compose partSetting .root, .forget],
      request.Over partSetting.files := by
    simp [Request.Over]
  refine ⟨hrequests, (hvalue withPart).trans composeValue_withPart, hserved _ _ hrequests .root, ?_⟩
  obtain ⟨s, hscan, hget⟩ : ∃ s : Progress (Memory Unit),
      scanFields (cachedPart.run partSetting .root).workshop ["a"]
        (Value.map (included "part.json")).entries cachedPart.progress.fresh =
          some (.ok false, s) ∧
      s.document.get (.plain ["a"]) = .ok (.map (included "part.json")) :=
    ⟨_, rfl, rfl⟩
  have hmeets : (cachedPart.run partSetting .root).Meets ["a"] s (included "part.json")
      (.inclusion ⟨⟨none⟩, true⟩) :=
    ⟨.now (.first rfl rfl (.inside List.not_mem_nil (by decide)
      (.first (.here List.not_mem_nil rfl (by simp) hscan)))), hget,
      Directive.IncludesComposed.find?_standard (.refl _)⟩
  have hinclude := (hfresh withPart [] cachedPart (by simp) rfl .root _ .self _ _ _ _ hmeets).2
  exact ⟨s, hmeets, hinclude rfl⟩

end Composer

end Docweave
