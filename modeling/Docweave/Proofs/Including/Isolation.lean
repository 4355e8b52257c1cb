import Docweave.Proofs.Composing.Backends
import Docweave.Proofs.Composing.Ending
import Docweave.Proofs.Composing.Placing
import Docweave.Proofs.Composing.Untouched
import Docweave.Proofs.Including.Contents
import Docweave.Proofs.References.Composing

/-!
Content that is composed on its own.

An include directive whose content is to be composed is isolated from the document it stands in.
The run over its content has the handlers of the host and begins with what they remember, but as
long as no value is made nothing that they remember makes a difference, nor does the store, so it
comes to what composing the content as a document comes to (`separately_eq_composeValue`).  Its
result takes the place of the directive for good and nothing in the host reaches it
(`Placed.exists_final`).

If composing the content fails, the first pass over the host does not come to its end without a
fault.  It need not come to an end at all, since another content may be one whose composing never
ends, and such content before the directive keeps it from being looked at
(`Composer.composeValue_withSwing_eq_none`).
-/

namespace Docweave

open Composing

/-! ### Composing content on its own -/

section

variable {σ : Type} {generators : Generators σ} {world : σ} {options : ComposeOptions}
  {setting : Setting} {v w : Value}

/-- Composing a document is a run over it. -/
theorem composeValue_eq_result :
    composeValue setting generators world options v =
      ((Composer.standard generators world options v).run setting .root).result.map
        fun end_ => (outcomeOf end_).1 := by
  have hcompose : (Composer.standard generators world options v).compose setting =
      ((Composer.standard generators world options v).run setting .root).result.map
        fun end_ => (end_.1, (Composer.standard generators world options v).resume end_.2) := rfl
  simp only [composeValue, hcompose]
  rcases ((Composer.standard generators world options v).run setting .root).result with
    _ | ⟨fault | _, progress⟩ <;> rfl

/-- What composing a document comes to, if one pass is enough. -/
theorem composeValue_of_round {result : Except Fault Unit} {q : Progress (Memory σ)}
    (h : round ((Composer.standard generators world options v).workshop setting) [[]]
      (Composer.standard generators world options v).progress = some (.ended result q)) :
    composeValue setting generators world options v =
      some (result.map fun _ => q.document.content) := by
  have hresult : ((Composer.standard generators world options v).run setting .root).result = _ :=
    passes_eq_some_iff.mpr (.ended h)
  rw [composeValue_eq_result, hresult, Option.map_some, outcomeOf]

/-- As long as no value is made, composing a document goes the same way whatever is remembered of
files. -/
theorem run_together_of_coherent
    (hmakes : ¬ (Composer.standard generators world options v).Hands setting .root
      Directive.generatorMarker)
    {memory : Memory σ} (hcoherent : memory.Coherent setting.files) (maxDepth : Nat) :
    let run := (Composer.standard generators world options v).run setting .root
    Together (fun _ _ => True)
      (Agree fun m n : Memory σ => m.Coherent setting.files ∧ n.Coherent setting.files) run.result
      (run.exchanged run.handlers maxDepth memory).result := by
  intro run
  refine Run.together likens_true trivial rfl (fun _ h => h) ?_
    ⟨Memory.coherent_start setting.files world, hcoherent⟩
  intro inner hinner site s directive handler hmeets
  have hfind := hinner.handlers_eq ▸ hmeets.find
  have hmem := List.mem_of_find?_eq_some hfind
  have hsetting : (contextAt inner.workshop site s).setting = setting := hinner.setting_eq
  have hmarker : handler.marker ≠ Directive.generatorMarker := fun hmarker =>
    hmakes ⟨inner, site, s, directive, handler, hinner, hmeets, hmarker⟩
  refine ⟨handler, hfind, fun n ⟨hm, hn⟩ => .of_fst_eq likens_true ?_ ⟨?_, ?_⟩⟩
  · exact Handler.answer_of_coherent hmem hmarker (hsetting ▸ hm) (hsetting ▸ hn) directive
  · exact Handler.coherent_of_mem_standard handler hmem directive _ _ hsetting hm
  · exact Handler.coherent_of_mem_standard handler hmem directive _ _ hsetting hn

/-- **Content in which no value is made is composed on its own to what it is composed to as a
document**, whatever is remembered of files, behind whichever store and however deep it stands, as
long as there are as many levels left. -/
theorem separately_eq_composeValue (hgenerators : generators.Tidy) (hv : v.WellFormed)
    (hmakes : ¬ (Composer.standard generators world options v).Hands setting .root
      Directive.generatorMarker)
    {memory : Memory σ} (hmemory : memory.WellFormed) (hcoherent : memory.Coherent setting.files)
    (backend : Backend) (maxDepth : Nat) :
    (separately (Handler.standard generators Matchers.standard ⟨⟨options.base?⟩, options.caching⟩)
        setting maxDepth (options.maxDepth + 1) backend v memory).map
        (fun end_ => end_.1.toOption) =
      Option.map Except.toOption (composeValue setting generators world options v) := by
  let run := (Composer.standard generators world options v).run setting .root
  have htogether := run_together_of_coherent hmakes hcoherent maxDepth
  change Together _ _ run.result (run.exchanged run.handlers maxDepth memory).result at htogether
  have hblind : Workshop.Blind Memory.WellFormed ⟨run.handlers, setting,
      separately run.handlers setting maxDepth (options.maxDepth + 1)⟩ :=
    separately_blind (Handler.tidy_of_mem_standard hgenerators) Handler.blind_of_mem_standard _ _ _
  have hbackend : separately run.handlers setting maxDepth (options.maxDepth + 1) backend v memory =
      separately run.handlers setting maxDepth (options.maxDepth + 1) options.backend v memory :=
    (hblind.separately hv hmemory).trans (hblind.separately hv hmemory).symm
  have hnested := separately_succ (run.exchanged run.handlers maxDepth memory) options.maxDepth
    options.backend v memory
  show Option.map _ (separately run.handlers setting maxDepth (options.maxDepth + 1) backend v
    memory) = _
  rw [hbackend, composeValue_eq_result]
  refine (congrArg _ hnested).trans ?_
  show Option.map _ (Option.map outcomeOf (run.exchanged run.handlers maxDepth memory).result) =
    Option.map _ (Option.map _ run.result)
  generalize run.result = x at htogether
  generalize (run.exchanged run.handlers maxDepth memory).result = y at htogether
  cases htogether with
  | never => rfl
  | fault _ _ => rfl
  | ok h =>
      obtain ⟨-⟩ := h
      rfl

/-- What content is composed to on its own it is composed to as a document. -/
theorem composeValue_of_separately (hgenerators : generators.Tidy) (hv : v.WellFormed)
    (hmakes : ¬ (Composer.standard generators world options v).Hands setting .root
      Directive.generatorMarker)
    {memory memory' : Memory σ} (hmemory : memory.WellFormed)
    (hcoherent : memory.Coherent setting.files) {backend : Backend} {maxDepth : Nat}
    (h : separately (Handler.standard generators Matchers.standard
      ⟨⟨options.base?⟩, options.caching⟩) setting maxDepth (options.maxDepth + 1) backend v memory =
        some (.ok w, memory')) :
    composeValue setting generators world options v = some (.ok w) := by
  have hsame := separately_eq_composeValue hgenerators hv hmakes hmemory hcoherent backend maxDepth
  rw [h] at hsame
  obtain ⟨fault | composed, hresult, heq⟩ := Option.map_eq_some_iff.mp hsame.symm
  · exact absurd heq (by simp [Except.toOption])
  · exact Option.some.inj heq ▸ hresult

end

/-! ### In the place of the directive -/

/-- An include is a directive. -/
theorem Directive.IncludesComposed.isDirective {directive : Fields} {raw : String}
    (h : IncludesComposed directive raw) :
    Docweave.isDirective Composer.standardMarkers (.map directive) = true := by
  refine isDirective_map_iff.mpr ⟨includeMarker, by decide, ?_⟩
  rw [Entries.contains, h.find?, if_pos rfl]
  rfl

namespace Composing

variable {μ : Type} {workshop : Workshop μ} {p q : Progress μ}

/-- A pass over a whole document that is a directive ends in a fault. -/
theorem Passed.root_plain (h : Passed workshop [[]] p q) (hsound : p.document.Sound)
    (hdone : [] ∉ p.completed) :
    isDirective (Handler.markers workshop.handlers) p.document.content = false := by
  cases h with
  | gone hgone _ =>
      rw [Store.has_plain hsound, Value.node?_nil] at hgone
      exact absurd hgone (by simp)
  | scanned hget hscan _ =>
      have hn := (Store.get_plain_eq_ok_iff hsound).mp hget
      rw [Value.node?_nil] at hn
      obtain rfl := Option.some.inj hn
      cases Scanned.of_scan hscan with
      | completed h => exact absurd h hdone
      | plain hplain _ => exact hplain
      | waiting _ hroot _ => exact absurd rfl hroot
      | invoked _ hroot _ _ => exact absurd rfl hroot

end Composing

section

variable {σ : Type} {generators : Generators σ} {world : σ} {options : ComposeOptions}
  {setting : Setting} {content v w : Value}

/-- The run over a document that composing ends for without a fault. -/
theorem exists_ended_of_composeValue
    (h : composeValue setting generators world options v = some (.ok w)) :
    ∃ composer, (Composer.standard generators world options v).compose setting =
      some (.ok (), composer) ∧ composer.store.content = w := by
  unfold composeValue at h
  split at h
  · exact absurd h (by simp)
  · obtain rfl := Except.ok.inj (Option.some.inj h)
    exact ⟨_, ‹_›, rfl⟩
  · exact absurd (Option.some.inj h) (by simp)

/-- What a document is composed to is no directive. -/
theorem isDirective_eq_false_of_composeValue (hgenerators : generators.Tidy) (hv : v.WellFormed)
    (h : composeValue setting generators world options v = some (.ok w)) :
    isDirective Composer.standardMarkers w = false := by
  obtain ⟨composer, hcompose, rfl⟩ := exists_ended_of_composeValue h
  obtain ⟨q, hended, -⟩ := Composer.exists_ended_of_composeAt hcompose
  have hsound : (Composer.standard generators world options v).store.Sound :=
    Store.sound_wrap hv options.backend
  have hcontent : (Composer.standard generators world options v).store.content = v :=
    Store.content_wrap _ _
  have hplain : isDirective Composer.standardMarkers v = false := by
    obtain ⟨r, hpass⟩ := hended.exists_passed
    exact hcontent ▸ hpass.root_plain hsound List.not_mem_nil
  have huntouched := (Composer.composeAt_untouched (Handler.tidy_of_mem_standard hgenerators) hsound
    (Memory.wellFormed_start world) hcompose).1 []
  rw [hcontent, Value.node?_nil, Value.node?_nil] at huntouched
  have hhead := Option.some.inj (huntouched fun top _ site directive _ hsite hn => ?_)
  · rwa [isDirective_of_head_eq hhead]
  · obtain rfl := List.prefix_nil.mp hsite
    rw [Value.node?_nil] at hn
    exact Option.some.inj hn ▸ hplain

end

/-- The options of a document that content is included in which is to be composed with these. -/
def ComposeOptions.hosting (options : ComposeOptions) : ComposeOptions :=
  { options with maxDepth := options.maxDepth + 1 }

namespace Composer

variable {σ : Type} {generators : Generators σ} {world world' : σ} {options : ComposeOptions}
  {setting : Setting} {content v : Value} {site : Path} {directive : Fields} {raw : String}

/-- The composer of a document that content is included in. -/
abbrev hosting (generators : Generators σ) (world : σ) (options : ComposeOptions)
    (content : Value) : Composer (Memory σ) :=
  .standard generators world options.hosting content

theorem lasting_hosting (hgenerators : generators.Tidy) :
    Lasting ((hosting generators world options content).workshop setting)
      (Proper Memory.WellFormed) :=
  lasting_workshop (Handler.tidy_of_mem_standard hgenerators) Handler.retains_of_mem_standard
    setting

theorem carried_hosting :
    Carried ((hosting generators world options content).workshop setting)
      fun p => p.memory.Coherent setting.files := by
  show Carried ((hosting generators world options content).run setting .root).workshop _
  exact Run.carried Handler.coherent_of_mem_standard

/-- **Handing over the include puts what its content is composed to in its place for good.** -/
theorem places_included (hgenerators : generators.Tidy) (hsite : site ≠ [])
    (hdirective : Directive.IncludesComposed directive raw)
    (hload : Reader.load setting.files ((⟨options.base?⟩ : Reader).resolve raw) = .ok v)
    (hmakes : ¬ (Composer.standard generators world' options v).Hands setting .root
      Directive.generatorMarker) :
    Places ((hosting generators world options content).workshop setting)
      (fun p => Proper Memory.WellFormed p ∧ p.memory.Coherent setting.files) site
      (.map directive)
      fun w => composeValue setting generators world' options v = some (.ok w) := by
  intro p b q ⟨hp, hcoherent⟩ hn h
  have hv : v.WellFormed := Reader.wellFormed_of_readAt hload
  obtain ⟨-, -, hnone⟩ | ⟨directive', handler, outcome, memory, hn', hfind, hcompose, hsettle⟩ :=
    h.untaken_or_handled hp.sound
  · have hget := (Store.get_plain_eq_ok_iff hp.sound).mpr hn
    exact absurd ((hnone directive hget).symm.trans hdirective.find?_standard) (by simp)
  obtain rfl := Value.map.inj (Option.some.inj (hn'.symm.trans hn))
  obtain rfl := Option.some.inj (hfind.symm.trans hdirective.find?_standard)
  have hmem := List.mem_of_find?_eq_some hfind
  let context := contextAt ((hosting generators world options content).workshop setting) site p
  obtain ⟨-, hmemory⟩ := Handler.tidy_of_mem_standard hgenerators _ hmem
    (hp.sound.wellFormed.of_node? hn) hp.sound hp.memory hcompose
  have hcoherent' : memory.Coherent setting.files := by
    have hkept := Handler.coherent_of_mem_standard _ hmem directive' context p.memory rfl hcoherent
    rwa [hcompose] at hkept
  have hanswer :
      (Handler.inclusion ⟨⟨options.base?⟩, options.caching⟩).compose directive' context p.memory =
        (.ok (.separate v), _) :=
    hdirective.compose_inclusion hcoherent hload
  obtain ⟨houtcome, -⟩ := Prod.mk.inj (hcompose.symm.trans hanswer)
  obtain rfl := Except.ok.inj houtcome
  cases hsettle with
  | @separate _ w memory' q hseparately hwrite =>
      have hw : w.WellFormed := ((workshop_tidy (Handler.tidy_of_mem_standard hgenerators)
        setting).separately hv hmemory hseparately).1
      have hfinal : composeValue setting generators world' options v = some (.ok w) :=
        composeValue_of_separately hgenerators hv hmakes hmemory hcoherent' hseparately
      refine ⟨w, hfinal, ?_, Progress.mem_completed_finishing _ _, hwrite.revisit_eq⟩
      obtain ⟨w', hcontent, rfl | ⟨hsame, rfl⟩, -⟩ := hwrite.content_eq hp.sound hsite hn hw
      · exact hcontent
      -- What is the same as the directive is one, and no document is composed to a directive.
      · have hplain := isDirective_eq_false_of_composeValue hgenerators hv hfinal
        rw [isDirective_of_same hsame hdirective.isDirective] at hplain
        exact absurd hplain (by simp)

section

variable (hgenerators : generators.Tidy) (hcontent : content.WellFormed)
  (hsite : content.node? site = some (.map directive))
  (habove : ∀ above d, above <+: site → above ≠ site → content.node? above = some d →
    isDirective standardMarkers d = false)
  (hdirective : Directive.IncludesComposed directive raw)
  (hload : Reader.load setting.files ((⟨options.base?⟩ : Reader).resolve raw) = .ok v)
  (hmakes : ¬ (Composer.standard generators world' options v).Hands setting .root
    Directive.generatorMarker) {q : Progress (Memory σ)}

include hsite habove

theorem placed_start (Final : Value → Prop) :
    Placed standardMarkers site (.map directive) Final
      (Composer.standard generators world options content).progress where
  above := by
    intro r hr hne
    obtain ⟨u, hu⟩ := Option.isSome_iff_exists.mp
      (Value.node?_isSome_of_prefix hr (Option.isSome_of_eq_some hsite))
    rw [content_standard]
    exact ⟨u, hu, habove r u hr hne hu⟩
  noted := fun _ hr => absurd hr List.not_mem_nil
  here := .inl ⟨content_standard ▸ hsite, fun _ hc => absurd hc List.not_mem_nil⟩

include hgenerators hcontent hdirective hload hmakes

/-- After the first pass the include is what its content is composed to. -/
theorem included_of_passed
    (h : Passed ((hosting generators world options content).workshop setting) [[]]
      (hosting generators world options content).progress q) :
    ∃ w, composeValue setting generators world' options v = some (.ok w) ∧
      q.document.content.node? site = some w := by
  obtain ⟨w, hw, hn, -⟩ := h.exists_final (lasting_hosting hgenerators) carried_hosting
    hdirective.isDirective hdirective.bare
    (fun hne => places_included hgenerators hne hdirective hload hmakes)
    (Handler.taking_of_matchesMarkers Handler.matchesMarkers_standard)
    ⟨Store.sound_wrap hcontent _, Memory.wellFormed_start world⟩
    (Memory.coherent_start setting.files world) List.nil_prefix (placed_start hsite habove _)
  exact ⟨w, hw, hn⟩

/-- When composing ends the include is what its content is composed to. -/
theorem included_of_ended
    (h : Ended ((hosting generators world options content).workshop setting) [[]]
      (hosting generators world options content).progress q) :
    ∃ w, composeValue setting generators world' options v = some (.ok w) ∧
      q.document.content.node? site = some w := by
  obtain ⟨w, hw, hn, -⟩ := h.exists_final (lasting_hosting hgenerators) carried_hosting
    hdirective.isDirective hdirective.bare
    (fun hne => places_included hgenerators hne hdirective hload hmakes)
    (Handler.taking_of_matchesMarkers Handler.matchesMarkers_standard)
    ⟨Store.sound_wrap hcontent _, Memory.wellFormed_start world⟩
    (Memory.coherent_start setting.files world) List.nil_prefix (placed_start hsite habove _)
  exact ⟨w, hw, hn⟩

end

/-- **A composed include is isolated from the document it stands in.**  As long as composing its
content comes to no value that is made, a document that is composed without a fault has at its place
what its content is composed to as a document, with one level less left.  If composing the content
fails, so does composing the document, provided that the first pass over it comes to an end. -/
theorem composeValue_included (hgenerators : generators.Tidy) (hcontent : content.WellFormed)
    (hsite : content.node? site = some (.map directive))
    (habove : ∀ above d, above <+: site → above ≠ site → content.node? above = some d →
      isDirective standardMarkers d = false)
    (hdirective : Directive.IncludesComposed directive raw)
    (hload : Reader.load setting.files ((⟨options.base?⟩ : Reader).resolve raw) = .ok v)
    (hmakes : ¬ (Composer.standard generators world' options v).Hands setting .root
      Directive.generatorMarker) :
    (∀ composed, composeValue setting generators world options.hosting content =
        some (.ok composed) →
      ∃ w, composeValue setting generators world' options v = some (.ok w) ∧
        composed.node? site = some w) ∧
    ∀ fault, composeValue setting generators world' options v = some (.error fault) →
      pass ((hosting generators world options content).workshop setting) [[]]
        (hosting generators world options content).progress ≠ none →
      ∃ fault', composeValue setting generators world options.hosting content =
        some (.error fault') := by
  refine ⟨fun composed h => ?_, fun fault hfault hends => ?_⟩
  · obtain ⟨composer, hcompose, rfl⟩ := exists_ended_of_composeValue h
    obtain ⟨q, hended, rfl⟩ := exists_ended_of_composeAt hcompose
    exact included_of_ended hgenerators hcontent hsite habove hdirective hload hmakes hended
  · rcases hpass : pass ((hosting generators world options content).workshop setting) [[]]
        (hosting generators world options content).progress with _ | ⟨fault' | _, q⟩
    · exact absurd hpass hends
    · have hcompose : (hosting generators world options content).compose setting = _ :=
        composeAt_of_ran (.ended (round_of_fault hpass))
      exact ⟨fault', by rw [composeValue, hcompose]⟩
    · obtain ⟨w, hw, -⟩ := included_of_passed hgenerators hcontent hsite habove hdirective hload
        hmakes (.of_pass hpass)
      exact absurd (Option.some.inj (hfault.symm.trans hw)) (by simp)

/-! ### Documents that include others -/

end Composer

/-- A few files, by location. -/
def Files.ofTexts (texts : Entries String) : Files where
  read location :=
    match Entries.find? texts location with
    | .some text => .ok text
    | .none => .error .missing
  readable := Entries.keys texts
  mem_readable h := by
    split at h
    · rename_i hfind
      exact List.mem_map.mpr ⟨_, Entries.mem_of_find? hfind, rfl⟩
    · exact absurd h (by simp)

namespace Composer

/-- A document with a reference in it, one that is a directive as a whole, and one that composing
never ends for. -/
def partSetting : Setting where
  files := .ofTexts [("part.json", "\x7b\"x\":\x7b\"!ref\":\"/y\"\x7d,\"y\":\"z\"\x7d"),
    ("whole.json", "\x7b\"!ref\":\"/x\"\x7d"),
    ("swing.json", "\x7b\"b\":\x7b\"$extend\":\x7b\"/!xref\":\"/b\"\x7d\x7d," ++
      "\"c\":\x7b\"$extend\":\x7b\"/!xref\":\"/c\"\x7d\x7d," ++
      "\"a\":\x7b\"$extend\":\x7b\"/!xref\":\"/c\"\x7d,\"!xref\":\"/b\"\x7d\x7d")]
  now := bareSetting.now

/-- The content of a file, to be composed on its own. -/
def included (raw : String) : Fields :=
  [(Directive.includeMarker, .text raw), ("$compose", .bool true)]

theorem load_part : Reader.load partSetting.files ((⟨none⟩ : Reader).resolve "part.json") =
    .ok (.map [("x", .map [("!ref", .text "/y")]), ("y", .text "z")]) := by
  with_unfolding_all rfl

theorem load_whole : Reader.load partSetting.files ((⟨none⟩ : Reader).resolve "whole.json") =
    .ok (.map [("!ref", .text "/x")]) := by
  with_unfolding_all rfl

theorem load_swing : Reader.load partSetting.files ((⟨none⟩ : Reader).resolve "swing.json") =
    .ok (swinging (swing "/b" "/c")) := by
  with_unfolding_all rfl

/-- The options that content is composed with, when there is one document around it. -/
def partOptions : ComposeOptions :=
  { backend := .direct, maxDepth := 0 }

/-- A composer of a document that includes others. -/
abbrev including (content : Value) : Composer (Memory Unit) :=
  hosting (Generators.standard fun _ => (0, ())) () partOptions content

/-- An include that stands in the document at first is composed on its own. -/
theorem scan_included {content v : Value} {key raw : String}
    (hget : (including content).store.get (.plain [key]) = .ok (.map (included raw)))
    (hload : Reader.load partSetting.files ((⟨none⟩ : Reader).resolve raw) = .ok v) :
    scan ((including content).workshop partSetting) [key] (.map (included raw))
        (including content).progress =
      settle ((including content).workshop partSetting) [key] (.separate v)
        (including content).progress := by
  have hdirective : Directive.IncludesComposed (included raw) raw := .refl _
  have hscan : scan ((including content).workshop partSetting) [key] (.map (included raw))
      (including content).progress = invoke _ [key] _ :=
    scan_of_bare hdirective.wellFormed List.not_mem_nil hdirective.isDirective (by simp)
      hdirective.bare
  exact hscan.trans (invoke_of_answer hget hdirective.find?_standard
    (hdirective.compose_inclusion (Memory.coherent_start _ ()) hload))

/-- A document of its own, in a document that these options are for. -/
def nestedRun (v : Value) : Run (Memory Unit) :=
  ((including .null).run partSetting .root).nested 0 .direct v (Memory.start ())

theorem separately_eq_nestedRun (v : Value) :
    separately swingingComposer.handlers partSetting 1 1 .direct v (Memory.start ()) =
      (nestedRun v).result.map outcomeOf :=
  separately_succ ((including .null).run partSetting .root) 0 .direct v (Memory.start ())

/-- The reference in the included document is composed in its own document. -/
theorem round_part {workshop : Workshop (Memory Unit)}
    (hhandlers : workshop.handlers = swingingComposer.handlers) :
    round workshop [[]] ⟨.direct ⟨.map [("x", .map [("!ref", .text "/y")]), ("y", .text "z")]⟩, [],
        Memory.start (), [], false⟩ =
      some (.ended (.ok ()) ⟨.direct ⟨.map [("x", .text "z"), ("y", .text "z")]⟩, [],
        Memory.start (), [], true⟩) := by
  obtain ⟨handlers, setting, separately⟩ := workshop
  obtain rfl : handlers = swingingComposer.handlers := hhandlers
  cbv

theorem separately_part :
    separately swingingComposer.handlers partSetting 1 1 .direct
        (.map [("x", .map [("!ref", .text "/y")]), ("y", .text "z")]) (Memory.start ()) =
      some (.ok (.map [("x", .text "z"), ("y", .text "z")]), Memory.start ()) := by
  have hresult :
      (nestedRun (.map [("x", .map [("!ref", .text "/y")]), ("y", .text "z")])).result = _ :=
    passes_eq_some_iff.mpr (.ended (round_part rfl))
  exact (separately_eq_nestedRun _).trans (congrArg (Option.map outcomeOf) hresult)

theorem separately_swing :
    separately swingingComposer.handlers partSetting 1 1 .direct (swinging (swing "/b" "/c"))
      (Memory.start ()) = none := by
  have hresult : (nestedRun (swinging (swing "/b" "/c"))).result = none :=
    passes_eq_none_of_next (Swings.next_of_handlers rfl) .start
  rw [separately_eq_nestedRun, hresult, Option.map_none]

/-- Above a child of the document there is only the document. -/
theorem isDirective_above_child {content : Value} {key : String}
    (hplain : isDirective standardMarkers content = false) :
    ∀ above d, above <+: [key] → above ≠ [key] → content.node? above = some d →
      isDirective standardMarkers d = false := by
  intro above d hfront hne hn
  obtain rfl | rfl : above = [] ∨ above = [key] := by
    simpa [List.prefix_cons_iff] using hfront
  · rw [Value.node?_nil] at hn
    exact Option.some.inj hn ▸ hplain
  · exact absurd rfl hne

/-- A document that includes the one with a reference. -/
def withPart : Value :=
  .map [("a", .map (included "part.json"))]

theorem wellFormed_withPart : withPart.WellFormed := by
  simp [withPart, included, Directive.includeMarker, Value.wellFormed_map_iff, Entries.Distinct,
    Entries.keys]

theorem composeValue_withPart :
    composeValue partSetting (Generators.standard fun _ => (0, ())) () partOptions.hosting
        withPart =
      some (.ok (.map [("a", .map [("x", .text "z"), ("y", .text "z")])])) := by
  let workshop := (including withPart).workshop partSetting
  let q : Progress (Memory Unit) :=
    ⟨.direct ⟨.map [("a", .map [("x", .text "z"), ("y", .text "z")])]⟩, [["a"]],
      Memory.start (), [], true⟩
  have hsettle : settle workshop ["a"] (.separate _) (including withPart).progress =
      some (.ok false, q) :=
    bind_eq_ok.mpr ⟨_, _, rfl, bind_eq_ok.mpr ⟨_, _,
      remembering_eq_ok.mpr ⟨_, separately_part, rfl⟩, by cbv⟩⟩
  have hinclude : scan workshop ["a"] (.map (included "part.json")) (including withPart).progress =
      some (.ok false, q) :=
    (scan_included rfl load_part).trans hsettle
  have hscan : scan workshop [] withPart (including withPart).progress = some (.ok false, q) := by
    rw [scan_of_plain List.not_mem_nil rfl]
    exact scanFields_cons_eq_ok.mpr
      ⟨false, false, q, hinclude, scanFields_nil_eq_ok.mpr ⟨rfl, rfl⟩, rfl⟩
  have hpass : pass workshop [[]] (including withPart).progress.fresh = some (.ok (), q) :=
    (pass_cons_of_node (Store.sound_wrap wellFormed_withPart .direct) [] (Value.node?_nil _)).trans
      (bind_eq_ok.mpr ⟨false, q, hscan, rfl⟩)
  exact composeValue_of_round ((round_of_pass hpass).trans (congrArg some (verdict_of_nothing rfl)))

/-- The only directive in the included document is a reference. -/
theorem not_hands_part :
    ¬ (Composer.standard (Generators.standard fun _ => (0, ())) () partOptions
        (.map [("x", .map [("!ref", .text "/y")]), ("y", .text "z")])).Hands partSetting .root
      Directive.generatorMarker := by
  rintro ⟨run, site, s, directive, handler, hnests, ⟨hmeets, hget, hfind⟩, hmarker⟩
  obtain rfl := hnests.eq_of_levels_eq_zero rfl
  cases hmeets.of_ended (round_part rfl) with
  | gone _ h | later _ _ _ h => cases h
  | first _ hroot h =>
      obtain rfl := Except.ok.inj hroot
      cases h with
      | here _ _ hroot _ => exact absurd rfl hroot
      | inside _ _ h =>
          cases h with
          | later _ h => exact absurd h.exists_container (by simp [Value.isContainer])
          | first h =>
              cases h with
              | inside _ _ h =>
                  exact absurd h.exists_container (by simp [Value.entries, Value.isContainer])
              | here _ _ _ hscan =>
                  obtain ⟨-, rfl⟩ := Prod.mk.inj (Option.some.inj hscan)
                  obtain rfl := Value.map.inj (Except.ok.inj hget)
                  obtain rfl := Option.some.inj hfind
                  exact absurd hmarker (by decide)

/-- The part of the document is what the included document is composed to. -/
theorem composeValue_withPart_included :
    (Generators.standard fun _ => (0, ()) : Generators Unit).Tidy ∧ withPart.WellFormed ∧
      withPart.node? ["a"] = some (.map (included "part.json")) ∧
      (∀ above d, above <+: ["a"] → above ≠ ["a"] → withPart.node? above = some d →
        isDirective standardMarkers d = false) ∧
      Directive.IncludesComposed (included "part.json") "part.json" ∧
      ∃ v composed w,
        Reader.load partSetting.files ((⟨none⟩ : Reader).resolve "part.json") = .ok v ∧
        ¬ (Composer.standard (Generators.standard fun _ => (0, ())) () partOptions v).Hands
          partSetting .root Directive.generatorMarker ∧
        composeValue partSetting (Generators.standard fun _ => (0, ())) () partOptions.hosting
          withPart = some (.ok composed) ∧
        composeValue partSetting (Generators.standard fun _ => (0, ())) () partOptions v =
          some (.ok w) ∧
        composed.node? ["a"] = some w := by
  have hgenerators : (Generators.standard fun _ => (0, ()) : Generators Unit).Tidy :=
    Generators.tidy_standard _
  have hdirective : Directive.IncludesComposed (included "part.json") "part.json" := .refl _
  have habove := @isDirective_above_child withPart "a" rfl
  obtain ⟨w, hw, hn⟩ := (composeValue_included hgenerators wellFormed_withPart rfl habove
    hdirective load_part not_hands_part).1 _ composeValue_withPart
  exact ⟨hgenerators, wellFormed_withPart, rfl, habove, hdirective, _, _, w, load_part,
    not_hands_part, composeValue_withPart, hw, hn⟩

/-- A document that includes one that composing never ends for, and then one that composing fails
for. -/
def withSwing : Value :=
  .map [("a", .map (included "swing.json")), ("p", .map (included "whole.json"))]

/-- A document that is a directive as a whole cannot be composed. -/
theorem round_whole :
    round ((Composer.standard (Generators.standard fun _ => (0, ())) () partOptions
        (.map [("!ref", .text "/x")])).workshop partSetting) [[]]
        (Composer.standard (Generators.standard fun _ => (0, ())) () partOptions
          (.map [("!ref", .text "/x")])).progress =
      some (.ended (.error (.refused .root .rootDirective)) ⟨.direct ⟨.map [("!ref", .text "/x")]⟩,
        [], Memory.start (), [], false⟩) := by
  cbv

/-- In a document that is a directive as a whole nothing is handed over. -/
theorem not_hands_whole :
    ¬ (Composer.standard (Generators.standard fun _ => (0, ())) () partOptions
        (.map [("!ref", .text "/x")])).Hands partSetting .root Directive.generatorMarker := by
  rintro ⟨run, site, s, directive, handler, hnests, ⟨hmeets, -, -⟩, -⟩
  obtain rfl := hnests.eq_of_levels_eq_zero rfl
  cases hmeets.of_ended round_whole with
  | gone _ h | later _ _ _ h => cases h
  | first _ hroot h =>
      obtain rfl := Except.ok.inj hroot
      cases h with
      | here _ _ hroot _ => exact absurd rfl hroot
      | inside _ hroot _ => exact absurd rfl (hroot rfl)

/-- **Composing a document may never end although composing content that is included in it
fails.**  Other content before it keeps the first pass from coming to it. -/
theorem composeValue_withSwing_eq_none :
    withSwing.WellFormed ∧ withSwing.node? ["p"] = some (.map (included "whole.json")) ∧
      (∀ above d, above <+: ["p"] → above ≠ ["p"] → withSwing.node? above = some d →
        isDirective standardMarkers d = false) ∧
      Directive.IncludesComposed (included "whole.json") "whole.json" ∧
      ∃ v fault, Reader.load partSetting.files ((⟨none⟩ : Reader).resolve "whole.json") = .ok v ∧
        ¬ (Composer.standard (Generators.standard fun _ => (0, ())) () partOptions v).Hands
          partSetting .root Directive.generatorMarker ∧
        composeValue partSetting (Generators.standard fun _ => (0, ())) () partOptions v =
          some (.error fault) ∧
        composeValue partSetting (Generators.standard fun _ => (0, ())) () partOptions.hosting
          withSwing = none := by
  have hwell : withSwing.WellFormed := by
    simp [withSwing, included, Directive.includeMarker, Value.wellFormed_map_iff, Entries.Distinct,
      Entries.keys]
  have hinclude : scan ((including withSwing).workshop partSetting) ["a"]
      (.map (included "swing.json")) (including withSwing).progress = none :=
    (scan_included rfl load_swing).trans (bind_eq_none.mpr (.inr ⟨_, _, rfl, bind_eq_none.mpr (.inl
      (remembering_eq_none.mpr separately_swing))⟩))
  have hscan : scan ((including withSwing).workshop partSetting) [] withSwing
      (including withSwing).progress = none := by
    rw [scan_of_plain List.not_mem_nil rfl]
    exact bind_eq_none.mpr (.inl hinclude)
  have hpass : pass ((including withSwing).workshop partSetting) [[]]
      (including withSwing).progress.fresh = none :=
    (pass_cons_of_node (Store.sound_wrap hwell .direct) [] (Value.node?_nil _)).trans
      (bind_eq_none.mpr (.inl hscan))
  have hresult : ((including withSwing).run partSetting .root).result = none :=
    passes_eq_none_of_pass hpass
  refine ⟨hwell, rfl, isDirective_above_child rfl, .refl _, _, _, load_whole, not_hands_whole,
    composeValue_of_round round_whole, ?_⟩
  rw [composeValue_eq_result, hresult, Option.map_none]

end Composer

end Docweave
