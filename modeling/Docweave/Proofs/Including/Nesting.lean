import Docweave.Proofs.Composing.Quiet
import Docweave.Proofs.Including.Expanding

/-!
How deep content may be nested.

Every include is handed over once, and then its content is composed on its own, one level further
down.  Nothing is ever noted for later, so at every level there is a single pass, and it ends, since
there are only so many levels (`composesNested`).  So composing ends whatever the files are, and it
comes to what the document is expanded to exactly if includes are nested no deeper than is allowed
(`Composer.composeValue_of_includes`).  Files that include each other in a circle are nested without
end, so composing them fails at any limit.

A document that is an include as a whole cannot be composed at all, however deep it is
(`Composer.composeValue_of_root_directive`).
-/

namespace Docweave

open Relation Composing

/-- A document that is no directive as a whole, and in which there is nothing but includes, as in
everything that it includes. -/
structure Nestable (load : String → Except Fault Value) (v : Value) : Prop where
  wellFormed : v.WellFormed
  plain : isDirective Composer.standardMarkers v = false
  includes : ∀ u, ReflTransGen (Value.Includes load) v u → u.OnlyIncludes load

/-- What composing a document comes to if includes may be nested in it less than so deep. -/
inductive Composed (load : String → Except Fault Value) (n : Nat) (v : Value) :
    Except Fault Value → Prop
  | expanded {w : Value} (hheight : v.height load < n) (h : Expands load v w) :
      Composed load n v (.ok w)
  | tooDeep {fault : Fault} (hheight : ¬ v.height load < n)
      (hkind : fault.rootCause.kind = .refused) : Composed load n v (.error fault)

namespace Composing

variable {σ : Type} {generators : Generators σ} {matchers : Matchers} {access : FileAccess}
  {run : Run (Memory σ)} {load : String → Except Fault Value} {v w c d : Value} {fields : Fields}
  {raw : String} {p q : Progress (Memory σ)} {path : Path} {disk : Files} {n : Nat}

/-- A document in the course of composing: some of its includes are replaced, and in what is there
for good there is no directive. -/
structure Filling (load : String → Except Fault Value) (n : Nat) (disk : Files) (v : Value)
    (p : Progress (Memory σ)) : Prop where
  proper : Proper Memory.WellFormed p
  coherent : p.memory.Coherent disk
  filled : Filled load n v p.document.content
  completed : ∀ done ∈ p.completed, ∀ below d,
    p.document.content.node? (done ++ below) = some d →
      isDirective Composer.standardMarkers d = false

/-- Where everything is done that there is to be done, the document is expanded. -/
theorem Filling.expands {workshop : Workshop (Memory σ)}
    (hmarkers : Handler.markers workshop.handlers = Composer.standardMarkers)
    (hq : Filling load n disk v q) (hrevisit : q.revisit = [])
    (hcovered : CoveredFrom workshop [] (· ∈ q.revisit) q) :
    Expands load v q.document.content ∧ v.height load ≤ n := by
  have hplain : ∀ path d, q.document.content.node? path = some d →
      isDirective Composer.standardMarkers d = false := by
    intro path d hn
    by_contra hdirective
    obtain ⟨done, hdone | htodo, -, below, hpath⟩ :=
      (hcovered q.document.content (Value.node?_nil _)).exists_above hn
        (hmarkers ▸ Bool.of_not_eq_false hdirective)
    · obtain rfl : done ++ below = path := hpath
      exact hdirective (hq.completed done hdone below d hn)
    · rw [hrevisit] at htodo
      exact absurd htodo List.not_mem_nil
  exact (hq.filled.expands hplain).imp id Value.height_le_iff.mpr

/-- One more include is replaced. -/
theorem Filling.put (hp : Filling load n disk v p)
    (hn : p.document.content.node? path = some (.map fields))
    (hincludes : Directive.IncludesComposed fields raw) (hload : load raw = .ok c)
    (hheight : c.height load < n) (hw : Expands load c w)
    (hcontent : q.document.content = p.document.content.put path w) (hmoved : Moved path p q)
    (hproper : Proper Memory.WellFormed q) (hcoherent : q.memory.Coherent disk) :
    Filling load n disk v q where
  proper := hproper
  coherent := hcoherent
  filled := hcontent ▸ hp.filled.put hn hincludes hload hheight hw
  completed := fun done hdone below d hn' => by
    rw [hcontent] at hn'
    by_cases hfront : path <+: done ++ below
    · obtain ⟨r, hr⟩ := hfront
      rw [← hr, Value.node?_put_append (Option.isSome_of_eq_some hn)] at hn'
      exact hw.plain hn'
    · obtain ⟨d', hd', hhead⟩ := Value.head_node?_of_put hfront hn'
      have hbeside : ¬ path <+: done := fun hpath =>
        hfront (hpath.trans (List.prefix_append done below))
      rw [isDirective_of_head_eq hhead]
      exact hp.completed done ((hmoved.completed done hbeside).mp hdone) below d' hd'

/-- Content that is composed on its own, with so many levels left, is expanded or is nested too
deep. -/
def ComposesNested (load : String → Except Fault Value) (run : Run (Memory σ)) (levels : Nat) :
    Prop :=
  ∀ backend c (memory : Memory σ), Nestable load c → memory.WellFormed →
    memory.Coherent run.setting.files → ∃ result memory',
      separately run.handlers run.setting run.maxDepth levels backend c memory =
        some (result, memory') ∧
      memory'.Coherent run.setting.files ∧ Composed load levels c result

/-- The include at a node is answered with content to be composed on its own. -/
structure Asks (load : String → Except Fault Value) (access : FileAccess) (run : Run (Memory σ))
    (path : Path) (p : Progress (Memory σ)) (fields : Fields) (raw : String) (c : Value)
    (memory : Memory σ) : Prop where
  includes : Directive.IncludesComposed fields raw
  content : load raw = .ok c
  nestable : Nestable load c
  find : Handler.find? run.handlers fields = some (.inclusion access)
  answer : (Handler.inclusion access).compose fields (contextAt run.workshop path p) p.memory =
    (.ok (.separate c), memory)
  remembered : memory.WellFormed
  coherent : memory.Coherent run.setting.files

/-- What is read is well-formed. -/
theorem wellFormed_of_load {reader : Reader} {files : Files}
    (hload : load = fun raw => reader.read files raw none) :
    ∀ raw c, load raw = .ok c → c.WellFormed := by
  rintro raw c hc
  rw [hload] at hc
  exact Reader.wellFormed_of_readAt hc

theorem markers_standard (hhandlers : run.handlers = Handler.standard generators matchers access) :
    Handler.markers run.workshop.handlers = Composer.standardMarkers := by
  show Handler.markers run.handlers = _
  rw [hhandlers]
  rfl

section

variable (hhandlers : run.handlers = Handler.standard generators matchers access)
  (hgenerators : generators.Tidy)
  (hload : load = fun raw => access.reader.read run.setting.files raw none)

include hhandlers hgenerators hload

section

variable (hv : ∀ u, ReflTransGen (Value.Includes load) v u → u.OnlyIncludes load)

include hv

/-- Every directive that is left is an include, and is answered as such. -/
theorem Filling.asks (hp : Filling load n run.setting.files v p)
    (hn : p.document.content.node? path = some d)
    (hdirective : isDirective Composer.standardMarkers d = true) :
    ∃ fields raw c memory, d = .map fields ∧ v.Includes load c ∧
      Asks load access run path p fields raw c memory := by
  have hsite := hp.filled.node?_of_directive hn hdirective
  obtain ⟨fields, raw, c, rfl, hincludes, hcontent, hplain⟩ := hv v .refl path d hsite hdirective
  have hincluded : v.Includes load c := ⟨path, fields, raw, hsite, hincludes, hcontent⟩
  have hread : Reader.load run.setting.files (access.reader.resolve raw) = .ok c := by
    rw [hload] at hcontent
    exact hcontent
  have hfind : Handler.find? run.handlers fields = some (.inclusion access) :=
    hhandlers ▸ hincludes.find?_standard
  have hmem := hhandlers ▸ List.mem_of_find?_eq_some hfind
  have hanswer : (Handler.inclusion access).compose fields (contextAt run.workshop path p)
      p.memory = (.ok (.separate c), _) :=
    hincludes.compose_inclusion hp.coherent hread
  have hmemory := (Handler.tidy_of_mem_standard hgenerators _ hmem hincludes.wellFormed
    hp.proper.sound hp.proper.memory hanswer).2
  have hcoherent := Handler.coherent_of_mem_standard _ hmem fields
    (contextAt run.workshop path p) p.memory rfl hp.coherent
  rw [hanswer] at hcoherent
  have hnestable : Nestable load c :=
    ⟨wellFormed_of_load hload raw c hcontent, hplain, fun u hu => hv u (hu.head hincluded)⟩
  exact ⟨fields, raw, c, _, rfl, hincluded, hincludes, hcontent, hnestable, hfind, hanswer, hmemory,
    hcoherent⟩

variable (hnested : ComposesNested load run run.levels)

include hnested

/-- **An include is handed over to the end**, and fails only if includes are nested too deep. -/
theorem Filling.quiet (hroot : path ≠ [])
    (hp : Filling load run.levels run.setting.files v p)
    (hn : p.document.content.node? path = some d)
    (hdirective : isDirective Composer.standardMarkers d = true) :
    Quiet (fun fault => ¬ v.height load < run.levels + 1 ∧ fault.rootCause.kind = .refused) p
      (invoke run.workshop path p) := by
  obtain ⟨fields, raw, c, memory, rfl, hincluded, hasks⟩ :=
    hp.asks hhandlers hgenerators hload hv hn hdirective
  have hget := (Store.get_plain_eq_ok_iff hp.proper.sound).mpr hn
  rw [invoke_of_answer hget hasks.find hasks.answer]
  obtain ⟨result, memory', hseparately, -, hresult⟩ :=
    hnested p.document.backend c memory hasks.nestable hasks.remembered hasks.coherent
  cases hresult with
  | @expanded w hheight hw =>
      have hwell : w.WellFormed :=
        hw.wellFormed (wellFormed_of_load hload) hasks.nestable.wellFormed
      obtain ⟨q, hwrite⟩ : ∃ q, write path w { p with memory := memory' } = some (.ok (), q) :=
        exists_write hp.proper.sound hroot hn hwell
      have hsettle : settle run.workshop path (.separate c) { p with memory } =
          some (.ok false, q.finishing path) :=
        bind_eq_ok.mpr ⟨_, _, rfl, bind_eq_ok.mpr ⟨w, _,
          remembering_eq_ok.mpr ⟨memory', hseparately, rfl⟩, bind_eq_ok.mpr ⟨(), q, hwrite, rfl⟩⟩⟩
      rw [hsettle]
      exact .done (Written.of_write hwrite).revisit_eq
  | @tooDeep fault hheight hkind =>
      have hsettle : settle run.workshop path (.separate c) { p with memory } =
          some (.error (.composition (.plain path) fault), { p with memory := memory' }) :=
        bind_eq_error.mpr (.inr ⟨_, _, rfl, bind_eq_error.mpr (.inl
          (remembering_eq_error.mpr ⟨fault, memory', hseparately, rfl, rfl⟩))⟩)
      rw [hsettle]
      refine .failed ⟨fun hlt => hheight ?_, hkind⟩
      exact Value.height_le_iff.mp (ENat.lt_natCast_add_one_iff.mp hlt) c hincluded

/-- **Handing over an include puts what its content is expanded to in its place.** -/
theorem Filling.kept : Kept run.workshop (Filling load run.levels run.setting.files v) where
  sound hp := hp.proper.sound
  noting hp := ⟨⟨hp.proper.sound, hp.proper.memory⟩, hp.coherent, hp.filled, hp.completed⟩
  fresh hp := ⟨⟨hp.proper.sound, hp.proper.memory⟩, hp.coherent, hp.filled, hp.completed⟩
  effect hroot hp h := (lasting_standard hhandlers hgenerators).effect hroot hp.proper h
  invoked := fun {path p b q} hroot hp h => by
    have hL := lasting_standard hhandlers hgenerators
    have hproper := hL.invoked hroot hp.proper h
    have hmoved := hL.moved_of_invoked hroot hp.proper h
    obtain ⟨-, rfl, -⟩ | ⟨directive, handler, outcome, memory, hn, hfind, hcompose, hsettle⟩ :=
      h.untaken_or_handled hp.proper.sound
    · exact hp
    have hmatches : Handler.MatchesMarkers run.handlers :=
      hhandlers ▸ Handler.matchesMarkers_standard
    have hdirective : isDirective Composer.standardMarkers (.map directive) = true :=
      markers_standard hhandlers ▸ Handler.isDirective_of_find? hmatches hfind
    obtain ⟨fields, raw, c, memory', heq, -, hasks⟩ :=
      hp.asks hhandlers hgenerators hload hv hn hdirective
    obtain rfl := Value.map.inj heq
    obtain rfl := Option.some.inj (hfind.symm.trans hasks.find)
    obtain ⟨houtcome, rfl⟩ := Prod.mk.inj (hcompose.symm.trans hasks.answer)
    obtain rfl := Except.ok.inj houtcome
    obtain ⟨result, memory', hresult, hcoherent, hcomposed⟩ :=
      hnested p.document.backend c memory hasks.nestable hasks.remembered hasks.coherent
    cases hsettle with
    | @separate _ w memory'' q hseparately hwrite =>
        obtain ⟨rfl, rfl⟩ := Prod.mk.inj (Option.some.inj (hresult.symm.trans hseparately))
        obtain ⟨hheight, hw⟩ : c.height load < run.levels ∧ Expands load c w := by
          cases hcomposed with
          | expanded hheight hw => exact ⟨hheight, hw⟩
        have hwell := hw.wellFormed (wellFormed_of_load hload) hasks.nestable.wellFormed
        obtain ⟨w', hcontent, rfl | ⟨hsame, -⟩, -⟩ :=
          hwrite.content_eq hp.proper.sound hroot hn hwell
        · have hmemory : q.memory = memory' := hwrite.memory_eq
          exact hp.put hn hasks.includes hasks.content hheight hw hcontent hmoved hproper
            (hmemory ▸ hcoherent)
        -- What is the same as the include is a directive, and nothing is expanded to one.
        · have hplain := hw.plain (Value.node?_nil w)
          exact absurd ((isDirective_of_same hsame hdirective).symm.trans hplain) (by simp)

end

/-- **A run over a document of its own comes to what the document is expanded to**, if the levels
that are left suffice. -/
theorem result_of_nested (hnested : ComposesNested load run n) (hv : Nestable load v)
    {memory : Memory σ} (hmemory : memory.WellFormed)
    (hcoherent : memory.Coherent run.setting.files) (backend : Backend) :
    ∃ end_, (run.nested n backend v memory).result = some end_ ∧
      Composed load (n + 1) v (outcomeOf end_).1 := by
  let inner := run.nested n backend v memory
  have hcontent : inner.progress.document.content = v := Store.content_wrap _ _
  have hp : Filling load n inner.setting.files v inner.progress :=
    ⟨⟨Store.sound_wrap hv.wellFormed backend, hmemory⟩, hcoherent,
      by rw [hcontent]; exact .refl v (hv.includes v .refl),
      fun done hdone => absurd hdone List.not_mem_nil⟩
  have hhandlers : inner.handlers = Handler.standard generators matchers access := hhandlers
  have hnested : ComposesNested load inner inner.levels := hnested
  have hK : Kept inner.workshop (Filling load n inner.setting.files v) :=
    Filling.kept hhandlers hgenerators hload hv.includes hnested
  have hmarkers : Handler.markers inner.workshop.handlers = Composer.standardMarkers :=
    markers_standard hhandlers
  have hroot : isDirective (Handler.markers inner.workshop.handlers)
      inner.progress.document.content = false := by
    rw [hmarkers, hcontent]
    exact hv.plain
  have hinvoke {path : Path} {p : Progress (Memory σ)} {d : Value} (hroot : path ≠ [])
      (hp : Filling load n inner.setting.files v p)
      (hn : p.document.content.node? path = some d)
      (hdirective : isDirective (Handler.markers inner.workshop.handlers) d = true) :
      Quiet (fun fault => ¬ v.height load < n + 1 ∧ fault.rootCause.kind = .refused) p
        (invoke inner.workshop path p) :=
    Filling.quiet hhandlers hgenerators hload hv.includes hnested hroot hp hn
      (hmarkers ▸ hdirective)
  obtain ⟨q, hpassed, hrevisit, hpasses⟩ | ⟨fault, q, ⟨hheight, hkind⟩, hpasses⟩ :=
    exists_passed_or_fault hK hinvoke hp hroot
  · have htaking : Handler.Taking inner.workshop.handlers := by
      show Handler.Taking run.handlers
      exact Handler.taking_of_matchesMarkers (hhandlers ▸ Handler.matchesMarkers_standard)
    have hcovered : CoveredFrom inner.workshop [] (· ∈ q.revisit) q :=
      hpassed.covers hK htaking (hK.fresh hp) (fun w _ => List.nil_prefix) fun _ _ =>
        .todo (.inl List.mem_cons_self)
    obtain ⟨hexpands, hheight⟩ :=
      (hK.passed hpassed (hK.fresh hp)).expands hmarkers hrevisit hcovered
    exact ⟨_, hpasses, .expanded (ENat.lt_natCast_add_one_iff.mpr hheight) hexpands⟩
  · exact ⟨_, hpasses, .tooDeep hheight hkind⟩

/-- **Content that is composed on its own is expanded or is nested too deep**, however many levels
are left. -/
theorem composesNested (levels : Nat) : ComposesNested load run levels := by
  induction levels with
  | zero =>
      intro backend c memory _ _ hcoherent
      exact ⟨_, memory, rfl, hcoherent, .tooDeep (by simp) rfl⟩
  | succ levels ih =>
      intro backend c memory hc hmemory hcoherent
      obtain ⟨end_, hend, hcomposed⟩ :=
        result_of_nested hhandlers hgenerators hload ih hc hmemory hcoherent backend
      have hseparately := separately_succ run levels backend c memory
      rw [hend, Option.map_some] at hseparately
      have hpreserves : ∀ handler ∈ (run.nested levels backend c memory).handlers,
          handler.Preserves run.setting (Memory.Coherent run.setting.files) :=
        hhandlers ▸ Handler.coherent_of_mem_standard
      exact ⟨_, _, hseparately, Run.memory_of_result hpreserves hcoherent hend, hcomposed⟩

end

end Composing

/-- The content of a file, by how an include names it. -/
def ComposeOptions.load (options : ComposeOptions) (files : Files) (raw : String) :
    Except Fault Value :=
  Reader.read ⟨options.base?⟩ files raw none

namespace Composer

variable {σ : Type} {generators : Generators σ} {world : σ} {options : ComposeOptions}
  {setting : Setting} {v : Value}

/-- **A document that is a directive as a whole cannot be composed.** -/
theorem composeValue_of_root_directive (hv : v.WellFormed)
    (hdirective : isDirective standardMarkers v = true) :
    composeValue setting generators world options v =
      some (.error (.refused .root .rootDirective)) := by
  let composer := Composer.standard generators world options v
  have hcontent : composer.progress.fresh.document.content = v := Store.content_wrap _ _
  have hscan : scan (composer.workshop setting) [] v composer.progress.fresh =
      some (.error (.refused .root .rootDirective), composer.progress.fresh) := by
    have hmarked : isDirective (Handler.markers (composer.workshop setting).handlers) v = true :=
      hdirective
    rw [scan_eq, if_neg (show [] ∉ composer.progress.fresh.completed from List.not_mem_nil),
      if_pos hmarked, if_pos rfl]
  have hn : composer.progress.fresh.document.content.node? [] = some v := by
    rw [hcontent, Value.node?_nil]
  have hpass : pass (composer.workshop setting) [[]] composer.progress.fresh =
      some (.error (.refused .root .rootDirective), composer.progress.fresh) :=
    (pass_cons_of_node (Store.sound_wrap hv options.backend) [] hn).trans
      (bind_eq_error.mpr (.inl hscan))
  exact composeValue_of_round (round_of_fault hpass)

/-- **How deep content may be nested is a limit that is exact, and composing ends at any limit.**
A document in which there is nothing but includes, as in everything that it includes, is composed
exactly if it is no include as a whole and includes are nested in it no deeper than the options
allow.  Then every include is replaced by what the content of its file is expanded to.  Otherwise
the fault at the root is that something is refused. -/
theorem composeValue_of_includes (hgenerators : generators.Tidy) (hv : v.WellFormed)
    (hincludes : ∀ u, ReflTransGen (Value.Includes (options.load setting.files)) v u →
      u.OnlyIncludes (options.load setting.files)) :
    ∃ result, composeValue setting generators world options v = some result ∧
      ((∃ w, result = .ok w) ↔ isDirective standardMarkers v = false ∧
        v.height (options.load setting.files) ≤ options.maxDepth) ∧
      (∀ w, result = .ok w → Expands (options.load setting.files) v w) ∧
      ∀ fault, result = .error fault → fault.rootCause.kind = .refused := by
  cases hroot : isDirective standardMarkers v with
  | true =>
      refine ⟨_, composeValue_of_root_directive hv hroot, by simp, fun w hw => absurd hw (by simp),
        fun fault hfault => ?_⟩
      obtain rfl := Except.error.inj hfault
      rfl
  | false =>
      let run := (Composer.standard generators world options v).run setting .root
      have hhandlers : run.handlers =
          Handler.standard generators Matchers.standard ⟨⟨options.base?⟩, options.caching⟩ := rfl
      have hcoherent : (Memory.start world).Coherent run.setting.files :=
        Memory.coherent_start setting.files world
      have hnestable : Nestable (options.load setting.files) v := ⟨hv, hroot, hincludes⟩
      obtain ⟨end_, hend, hcomposed⟩ := result_of_nested hhandlers hgenerators rfl
        (composesNested hhandlers hgenerators rfl options.maxDepth) hnestable
        (Memory.wellFormed_start world) hcoherent options.backend
      have hresult : composeValue setting generators world options v = some (outcomeOf end_).1 := by
        rw [composeValue_eq_result]
        exact congrArg (Option.map _) hend
      refine ⟨_, hresult, ?_⟩
      generalize (outcomeOf end_).1 = result at hcomposed
      cases hcomposed with
      | @expanded w hheight hw =>
          have hle := ENat.lt_natCast_add_one_iff.mp hheight
          refine ⟨iff_of_true ⟨w, rfl⟩ ⟨rfl, hle⟩, fun w' hw' => ?_, fun fault hfault => ?_⟩
          · exact Except.ok.inj hw' ▸ hw
          · exact absurd hfault (by simp)
      | @tooDeep fault hheight hkind =>
          refine ⟨iff_of_false (by simp) fun ⟨_, hle⟩ => ?_, fun w hw => absurd hw (by simp),
            fun fault' hfault => ?_⟩
          · exact hheight (ENat.lt_natCast_add_one_iff.mpr hle)
          · exact Except.error.inj hfault ▸ hkind

/-- A document without directives. -/
def leaf : Value :=
  .map [("k", .text "x")]

/-- A document that includes another and has nothing else. -/
def nest (raw : String) : Value :=
  .map [("k", .map (included raw))]

/-- A document, one that includes it, and one that includes itself. -/
def nestSetting : Setting where
  files := .ofTexts [("leaf.json", "\x7b\"k\":\"x\"\x7d"),
    ("outer.json",
      "\x7b\"k\":\x7b\"!include\":\"leaf.json\",\"$compose\":true\x7d\x7d"),
    ("self.json", "\x7b\"k\":\x7b\"!include\":\"self.json\",\"$compose\":true\x7d\x7d")]
  now := bareSetting.now

/-- The options that let includes be nested so deep. -/
def nestOptions (maxDepth : Nat) : ComposeOptions :=
  { backend := .direct, maxDepth }

/-- The content of the files. -/
abbrev loadNest : String → Except Fault Value :=
  (nestOptions 0).load nestSetting.files

theorem loadNest_leaf : loadNest "leaf.json" = .ok leaf := by
  with_unfolding_all rfl

theorem loadNest_outer : loadNest "outer.json" = .ok (nest "leaf.json") := by
  with_unfolding_all rfl

theorem loadNest_self : loadNest "self.json" = .ok (nest "self.json") := by
  with_unfolding_all rfl

section

variable {load : String → Except Fault Value} {raw : String} {c w : Value}

theorem wellFormed_nest (raw : String) : (nest raw).WellFormed := by
  simp [nest, included, Directive.includeMarker, Value.wellFormed_map_iff, Entries.Distinct,
    Entries.keys]

theorem child?_nest {token : String} (h : (nest raw).child? token = some c) :
    token = "k" ∧ c = .map (included raw) := by
  have hfind : (if "k" = token then some (Value.map (included raw)) else none) = some c := h
  split at hfind
  · rename_i htoken
    exact ⟨htoken.symm, (Option.some.inj hfind).symm⟩
  · exact absurd hfind (by simp)

theorem includes_nest_iff : (nest raw).Includes load c ↔ load raw = .ok c := by
  have hdirective : Directive.IncludesComposed (included raw) raw := .refl _
  constructor
  · intro h
    obtain ⟨token, u, hu, hc⟩ := h.exists_child rfl
    obtain ⟨-, rfl⟩ := child?_nest hu
    exact hdirective.includes_iff.mp hc
  · intro hload
    have hchild : (nest raw).child? "k" = some (.map (included raw)) := rfl
    exact .of_child hchild (hdirective.includes_iff.mpr hload)

theorem onlyIncludes_nest (hload : load raw = .ok c)
    (hplain : isDirective standardMarkers c = false) : (nest raw).OnlyIncludes load := by
  refine Value.onlyIncludes_of_children rfl fun token u hu => ?_
  obtain ⟨-, rfl⟩ := child?_nest hu
  exact Directive.IncludesComposed.onlyIncludes (.refl _) hload hplain

theorem expands_nest (hload : load raw = .ok c) (h : Expands load c w) :
    Expands load (nest raw) (.map [("k", w)]) := by
  refine .node rfl rfl fun token c' d hc hd => ?_
  obtain ⟨rfl, rfl⟩ := child?_nest hc
  obtain rfl : w = d := by simpa [Value.child?, Entries.find?_cons] using hd
  exact .content (.refl _) hload h

end

section

variable {load : String → Except Fault Value} {read : Except Fault Value} {v c : Value}
  (h : ∀ c', v.Includes load c' ↔ read = .ok c') (hread : read = .ok c)

include h hread

/-- Includes are nested one deeper in a document that includes a single one. -/
theorem height_of_includes_iff : v.height load = c.height load + 1 := by
  rw [Value.height_eq]
  refine le_antisymm (iSup₂_le fun c' hc' => ?_) (le_iSup₂_of_le c ((h c).mpr hread) le_rfl)
  exact Except.ok.inj (hread.symm.trans ((h c').mp hc')) ▸ le_rfl

theorem onlyIncludes_of_includes_iff (hv : v.OnlyIncludes load)
    (hc : ∀ u, ReflTransGen (Value.Includes load) c u → u.OnlyIncludes load) :
    ∀ u, ReflTransGen (Value.Includes load) v u → u.OnlyIncludes load :=
  Value.onlyIncludes_of_includes hv fun c' hc' =>
    Except.ok.inj (hread.symm.trans ((h c').mp hc')) ▸ hc

end

theorem plain_leaf : ∀ path d, leaf.node? path = some d →
    isDirective standardMarkers d = false := by
  intro path d hn
  by_cases hpath : path = []
  · subst hpath
    exact Option.some.inj ((Value.node?_nil leaf).symm.trans hn) ▸ rfl
  · refine isDirective_inside_of_scalars (v := leaf) (fun e he => ?_) path d hpath hn
    obtain rfl := List.mem_singleton.mp he
    rfl

theorem height_leaf : leaf.height loadNest = 0 := by
  rw [Value.height_eq]
  simp [Value.not_includes_of_plain plain_leaf]

theorem onlyIncludes_throughout_leaf :
    ∀ u, ReflTransGen (Value.Includes loadNest) leaf u → u.OnlyIncludes loadNest :=
  Value.onlyIncludes_of_includes (Value.onlyIncludes_of_plain plain_leaf) fun _ hc =>
    absurd hc (Value.not_includes_of_plain plain_leaf)

theorem onlyIncludes_throughout_outer :
    ∀ u, ReflTransGen (Value.Includes loadNest) (nest "outer.json") u →
      u.OnlyIncludes loadNest := by
  have hleaf : ∀ u, ReflTransGen (Value.Includes loadNest) (nest "leaf.json") u →
      u.OnlyIncludes loadNest :=
    onlyIncludes_of_includes_iff (fun _ => includes_nest_iff) loadNest_leaf
      (onlyIncludes_nest loadNest_leaf rfl) onlyIncludes_throughout_leaf
  exact onlyIncludes_of_includes_iff (fun _ => includes_nest_iff) loadNest_outer
    (onlyIncludes_nest loadNest_outer rfl) hleaf

theorem onlyIncludes_throughout_self :
    ∀ u, ReflTransGen (Value.Includes loadNest) (nest "self.json") u →
      u.OnlyIncludes loadNest := by
  intro u hu
  obtain rfl : u = nest "self.json" := by
    induction hu with
    | refl => rfl
    | tail _ hc ih =>
        subst ih
        exact (Except.ok.inj (loadNest_self.symm.trans (includes_nest_iff.mp hc))).symm
  exact onlyIncludes_nest loadNest_self rfl

theorem height_outer : (nest "outer.json").height loadNest = 2 := by
  rw [height_of_includes_iff (fun _ => includes_nest_iff) loadNest_outer,
    height_of_includes_iff (fun _ => includes_nest_iff) loadNest_leaf, height_leaf]
  rfl

/-- Where one include is nested in another, two levels are enough and one is not, and a file that
includes itself is nested too deep at any limit. -/
theorem composeValue_nest :
    (Generators.standard fun _ => (0, ()) : Generators Unit).Tidy ∧ (nest "outer.json").WellFormed ∧
      (∀ u, ReflTransGen (Value.Includes loadNest) (nest "outer.json") u →
        u.OnlyIncludes loadNest) ∧
      (nest "outer.json").height loadNest = 2 ∧
      composeValue nestSetting (Generators.standard fun _ => (0, ())) () (nestOptions 2)
        (nest "outer.json") =
          some (.ok (.map [("k", .map [("k", .map [("k", .text "x")])])])) ∧
      (∃ fault, composeValue nestSetting (Generators.standard fun _ => (0, ())) () (nestOptions 1)
        (nest "outer.json") = some (.error fault) ∧ fault.rootCause.kind = .refused) ∧
      ∀ maxDepth, ∃ fault, composeValue nestSetting (Generators.standard fun _ => (0, ())) ()
        (nestOptions maxDepth) (nest "self.json") = some (.error fault) ∧
          fault.rootCause.kind = .refused := by
  have hgenerators : (Generators.standard fun _ => (0, ()) : Generators Unit).Tidy :=
    Generators.tidy_standard _
  have hcycle : (nest "self.json").height loadNest = ⊤ :=
    Value.height_of_cycle (.single (includes_nest_iff.mpr loadNest_self))
  have hexpands : Expands loadNest (nest "outer.json") (.map [("k", .map [("k", leaf)])]) :=
    expands_nest loadNest_outer (expands_nest loadNest_leaf (expands_of_plain leaf plain_leaf))
  have hfails : ∀ (maxDepth : Nat) raw, (∀ u, ReflTransGen (Value.Includes loadNest) (nest raw) u →
      u.OnlyIncludes loadNest) → ¬ (nest raw).height loadNest ≤ maxDepth →
      ∃ fault, composeValue nestSetting (Generators.standard fun _ => (0, ())) ()
        (nestOptions maxDepth) (nest raw) = some (.error fault) ∧
          fault.rootCause.kind = .refused := by
    intro maxDepth raw hincludes hdeep
    obtain ⟨result, hresult, hiff, -, herror⟩ := @composeValue_of_includes Unit
      (Generators.standard fun _ => (0, ())) () (nestOptions maxDepth) nestSetting (nest raw)
      hgenerators (wellFormed_nest raw) hincludes
    cases result with
    | ok w => exact absurd (hiff.mp ⟨w, rfl⟩).2 hdeep
    | error fault => exact ⟨fault, hresult, herror fault rfl⟩
  refine ⟨hgenerators, wellFormed_nest _, onlyIncludes_throughout_outer, height_outer, ?_, ?_,
    fun maxDepth => ?_⟩
  · obtain ⟨result, hresult, hiff, hok, -⟩ := @composeValue_of_includes Unit
      (Generators.standard fun _ => (0, ())) () (nestOptions 2) nestSetting (nest "outer.json")
      hgenerators (wellFormed_nest _) onlyIncludes_throughout_outer
    obtain ⟨w, rfl⟩ := hiff.mpr ⟨rfl, height_outer.le⟩
    have hload : ∀ raw c, loadNest raw = .ok c → c.WellFormed := wellFormed_of_load rfl
    rw [hresult, (hok w rfl).unique hload (wellFormed_nest _) hexpands]
    rfl
  · exact hfails 1 "outer.json" onlyIncludes_throughout_outer (by rw [height_outer]; decide)
  · exact hfails maxDepth "self.json" onlyIncludes_throughout_self (by simp [hcycle])

/-- An include that is the whole document is not composed, although nothing is nested in its
content. -/
theorem composeValue_include_leaf :
    (Value.map (included "leaf.json")).height loadNest = 1 ∧
      Expands loadNest (.map (included "leaf.json")) leaf ∧
      (∀ u, ReflTransGen (Value.Includes loadNest) (.map (included "leaf.json")) u →
        u.OnlyIncludes loadNest) ∧
      composeValue nestSetting (Generators.standard fun _ => (0, ())) () (nestOptions 1)
        (.map (included "leaf.json")) = some (.error (.refused .root .rootDirective)) := by
  have hdirective : Directive.IncludesComposed (included "leaf.json") "leaf.json" := .refl _
  refine ⟨?_, .content hdirective loadNest_leaf (expands_of_plain leaf plain_leaf), ?_, ?_⟩
  · rw [height_of_includes_iff (fun _ => hdirective.includes_iff) loadNest_leaf, height_leaf]
    rfl
  · exact onlyIncludes_of_includes_iff (fun _ => hdirective.includes_iff) loadNest_leaf
      (hdirective.onlyIncludes loadNest_leaf rfl) onlyIncludes_throughout_leaf
  · exact composeValue_of_root_directive hdirective.wellFormed hdirective.isDirective

end Composer

end Docweave
