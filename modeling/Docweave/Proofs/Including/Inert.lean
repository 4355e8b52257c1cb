import Docweave.Proofs.Composing.Stages
import Docweave.Proofs.Including.Isolation

/-!
Content that is included as it is.

An include directive whose content is not to be composed is answered with the content, which is
there for good from then on.  It stays the directive until it is handed over, and after that it is
never looked through again, since a node at or above it comes first and it is completed.  So
composing leaves it alone, whatever the content holds and whatever refers to it, until a call begins
inside of it or the composer forgets which nodes are completed (`Composer.Spares`).

`Held` is what is the case in between, before and after any pass.  It has two phases: the directive
is there and what is remembered of files is what reading them gives, or its content is there for
good.  One pass keeps it, and never leads back (`Held.pass`).
-/

namespace Docweave

open Composing

namespace Directive

/-- The directive goes to the handler of includes, names content that is to be left as it is, and
has no directive in it. -/
structure IncludesAsIs {σ : Type} (handlers : List (Handler (Memory σ))) (access : FileAccess)
    (directive : Fields) (inclusion : Inclusion) : Prop where
  find : Handler.find? handlers directive = some (.inclusion access)
  read : Inclusion.read access.reader directive = .ok inclusion
  compose : inclusion.compose = false
  bare : ∀ below d, below ≠ [] → (Value.map directive).node? below = some d →
    isDirective (Handler.markers handlers) d = false

/-- An include with nothing but the location of the file. -/
theorem includesAsIs_single {σ : Type} {generators : Generators σ} {matchers : Matchers}
    {access : FileAccess} (raw : String) :
    IncludesAsIs (Handler.standard generators matchers access) access
      [(includeMarker, .text raw)]
      ⟨access.reader.resolve raw, Format.ofLocation (access.reader.resolve raw), false⟩ where
  find := by
    simp [Handler.find?, Handler.standard, Handler.reference, Handler.overlay, Handler.stateless,
      Handler.file, Handler.inclusion, Entries.contains, Entries.find?_cons, includeMarker,
      referenceMarker, overlayMarker, fileMarker]
  read := by
    have hpayload : payload [(includeMarker, .text raw)] includeMarker = .ok raw := by
      simp [payload, Entries.find?_cons]
    have hcompose : wantsCompose [(includeMarker, .text raw)] = .ok false := by
      simp [wantsCompose, option?, Entries.find?_cons, includeMarker]
    have hformat : formatFor [(includeMarker, .text raw)] (access.reader.resolve raw) =
        .ok (Format.ofLocation (access.reader.resolve raw)) := by
      simp [formatFor, option?, Entries.find?_cons, includeMarker]
    exact Except.bind_eq_ok_iff.mpr ⟨_, hpayload, Except.bind_eq_ok_iff.mpr ⟨_, hcompose,
      Except.bind_eq_ok_iff.mpr ⟨_, hformat, rfl⟩⟩⟩
  compose := rfl
  bare := isDirective_inside_of_scalars fun e he => by
    obtain rfl := List.mem_singleton.mp he
    rfl

/-- The answer is the content, if what is remembered is what reading gives. -/
theorem IncludesAsIs.answer {σ : Type} {handlers : List (Handler (Memory σ))}
    {access : FileAccess} {directive : Fields} {inclusion : Inclusion} {context : Context}
    {memory : Memory σ} (h : IncludesAsIs handlers access directive inclusion)
    (hmemory : memory.Coherent context.setting.files) :
    (Handler.inclusion access).compose directive context memory =
      match Reader.readAt context.setting.files inclusion.format inclusion.location with
      | .error fault => (.error fault, memory)
      | .ok v => (.ok (.completed v), { memory with
          includes := keepRead access.caching memory.includes inclusion.key v }) := by
  rw [Handler.compose_inclusion_of_coherent hmemory, h.read]
  dsimp only
  cases Reader.readAt context.setting.files inclusion.format inclusion.location with
  | error fault => rfl
  | ok v =>
      have houtcome : inclusion.outcome v = .completed v := by
        rw [Inclusion.outcome, h.compose, if_neg Bool.false_ne_true]
      show (Except.ok (inclusion.outcome v), _) = _
      rw [houtcome]

/-- What an include comes to: the content of the file, or the directive, should the content be the
directive again with its keys in another order. -/
def IncludedAsIs (disk : Files) (directive : Fields) (inclusion : Inclusion) (w : Value) : Prop :=
  ∃ v, Reader.readAt disk inclusion.format inclusion.location = .ok v ∧
    (w = v ∨ w = .map directive ∧ (Value.map directive).same v = true)

end Directive

namespace Composing

variable {σ : Type} {generators : Generators σ} {matchers : Matchers} {access : FileAccess}
  {workshop : Workshop (Memory σ)} {site : Path} {directive : Fields}
  {inclusion : Directive.Inclusion} {disk : Files} {p q : Progress (Memory σ)}
  {worklist : List Path}

/-- **Handing over the include puts its content in its place for good.** -/
theorem places_inclusion (hfiles : workshop.setting.files = disk) (hroot : site ≠ [])
    (hdirective : Directive.IncludesAsIs workshop.handlers access directive inclusion) :
    Places workshop (fun p => Proper Memory.WellFormed p ∧ p.memory.Coherent disk) site
      (.map directive) (Directive.IncludedAsIs disk directive inclusion) := by
  intro p b q ⟨hp, hcoherent⟩ hn h
  obtain ⟨-, -, hnone⟩ | ⟨directive', handler, outcome, memory, hn', hfind, hcompose, hsettle⟩ :=
    h.untaken_or_handled hp.sound
  · have hget := (Store.get_plain_eq_ok_iff hp.sound).mpr hn
    exact absurd ((hnone directive hget).symm.trans hdirective.find) (by simp)
  obtain rfl := Value.map.inj (Option.some.inj (hn'.symm.trans hn))
  obtain rfl := Option.some.inj (hfind.symm.trans hdirective.find)
  have hcoherent' : p.memory.Coherent (contextAt workshop site p).setting.files :=
    hfiles ▸ hcoherent
  rw [hdirective.answer hcoherent'] at hcompose
  split at hcompose
  · exact absurd (Prod.mk.inj hcompose).1 (by simp)
  rename_i v hread
  obtain rfl := Except.ok.inj (Prod.mk.inj hcompose).1
  have hread' : Reader.readAt disk inclusion.format inclusion.location = .ok v := hfiles ▸ hread
  cases hsettle with
  | completed hwrite =>
      obtain ⟨w, hcontent, hw, -⟩ :=
        hwrite.content_eq hp.sound hroot hn (Reader.wellFormed_of_readAt hread')
      exact ⟨w, ⟨v, hread', hw.imp id And.symm⟩, hcontent, Progress.mem_completed_finishing _ _,
        hwrite.revisit_eq⟩

/-- The include is there and what is remembered of files is what reading them gives, or its content
is there for good. -/
structure Held (markers : List String) (disk : Files) (site : Path) (directive : Fields)
    (inclusion : Directive.Inclusion) (p : Progress (Memory σ)) : Prop where
  proper : Proper Memory.WellFormed p
  placed : Placed markers site (.map directive) (Directive.IncludedAsIs disk directive inclusion) p
  coherent : site ∉ p.completed → p.memory.Coherent disk

namespace Held

variable {markers : List String}

theorem fresh (h : Held markers disk site directive inclusion p) :
    Held markers disk site directive inclusion p.fresh :=
  ⟨⟨h.proper.sound, h.proper.memory⟩, h.placed.fresh, h.coherent⟩

theorem of_sealed {w : Value} (hw : Directive.IncludedAsIs disk directive inclusion w)
    (hsealed : Sealed markers site w p) (hp : Proper Memory.WellFormed p) :
    Held markers disk site directive inclusion p where
  proper := hp
  placed := ⟨hsealed.placed.above, hsealed.placed.noted,
    .inr ⟨w, hw, hsealed.node, hsealed.completed⟩⟩
  coherent hopen := absurd hsealed.completed hopen

/-- Where nothing is completed at or above the site, the directive is there. -/
theorem node_of_open (h : Held markers disk site directive inclusion p)
    (hopen : site ∉ p.completed) :
    p.document.content.node? site = some (.map directive) ∧ ∀ c ∈ p.completed, ¬ c <+: site :=
  h.placed.here.resolve_right fun ⟨_, _, _, hmem⟩ => hopen hmem

/-- What is completed is there for good. -/
theorem exists_sealed (h : Held markers disk site directive inclusion p)
    (hdone : site ∈ p.completed) :
    ∃ w, Directive.IncludedAsIs disk directive inclusion w ∧ Sealed markers site w p := by
  obtain ⟨-, hopen⟩ | ⟨w, hw, hn, hmem⟩ := h.placed.here
  · exact absurd (List.prefix_refl site) (hopen site hdone)
  · exact ⟨w, hw, ⟨h.placed.above, h.placed.noted, .inr ⟨w, rfl, hn, hmem⟩⟩, hn, hmem⟩

end Held

/-- A worklist that does not lead into the site, unless it is one node and nothing is there for good
yet. -/
def KeepsClear (site : Path) (completed worklist : List Path) : Prop :=
  (∀ w ∈ worklist, site <+: w → site = w) ∨
    site ∉ completed ∧ ∃ below, below ≠ [] ∧ worklist = [site ++ below]

variable {run : Run (Memory σ)}

section

variable (hhandlers : run.handlers = Handler.standard generators matchers access)
  (hgenerators : generators.Tidy)
  (hdirective : Directive.IncludesAsIs run.handlers access directive inclusion)

include hhandlers hgenerators hdirective

/-- **A pass leaves the directive or the content of its file**, and content that is there stays. -/
theorem Held.pass {result : Except Fault Unit}
    (hp : Held (Handler.markers run.handlers) disk site directive inclusion p)
    (hworklist : KeepsClear site p.completed worklist)
    (hfiles : site ∉ p.completed → run.setting.files = disk)
    (h : Composing.pass run.workshop worklist p = some (result, q)) :
    Held (Handler.markers run.handlers) disk site directive inclusion q ∧
      ∀ w, Sealed (Handler.markers run.handlers) site w p →
        Sealed (Handler.markers run.handlers) site w q := by
  have hL := lasting_standard hhandlers hgenerators
  by_cases hdone : site ∈ p.completed
  · have hout : ∀ w ∈ worklist, site <+: w → site = w :=
      hworklist.resolve_right fun ⟨hopen, _⟩ => hopen hdone
    have hsealed : ∀ w, Sealed (Handler.markers run.handlers) site w p →
        Sealed (Handler.markers run.handlers) site w q := fun w hw =>
      Sealed.sited.pass hL (P := fun _ => True)
        ⟨fun _ _ => trivial, fun _ => trivial⟩ h hp.proper trivial hout hw
    obtain ⟨w, hw, hthere⟩ := hp.exists_sealed hdone
    exact ⟨.of_sealed hw (hsealed w hthere) (hL.pass h hp.proper), hsealed⟩
  refine ⟨?_, fun w hw => absurd hw.completed hdone⟩
  obtain hout | ⟨-, below, hbelow, rfl⟩ := hworklist
  · obtain rfl := hfiles hdone
    have hcoherent : ∀ handler ∈ run.handlers,
        handler.Preserves run.setting (Memory.Coherent run.setting.files) :=
      hhandlers ▸ Handler.coherent_of_mem_standard
    have hsite : isDirective (Handler.markers run.handlers) (.map directive) = true :=
      Handler.isDirective_of_find? (hhandlers ▸ Handler.matchesMarkers_standard) hdirective.find
    have hplaces (hroot : site ≠ []) : Places run.workshop
        (fun p => Proper Memory.WellFormed p ∧ p.memory.Coherent run.setting.files) site
        (.map directive) (Directive.IncludedAsIs run.setting.files directive inclusion) :=
      places_inclusion (show run.workshop.setting.files = _ from rfl) hroot hdirective
    have hsited := Placed.sited hL hsite hdirective.bare hplaces
    exact ⟨hL.pass h hp.proper,
      hsited.pass hL (Run.carried hcoherent) h hp.proper (hp.coherent hdone) hout hp.placed,
      fun _ => Run.memory_of_pass hcoherent (hp.coherent hdone) h⟩
  · -- In the directive there is nothing to find, so a pass that begins there does nothing.
    have hn := (hp.node_of_open hdone).1
    have hsound := hp.proper.sound
    have hcovered : CoveredFrom run.workshop (site ++ below) (fun _ => False) p := by
      intro v hv
      refine .of_plain fun inside d hd => ?_
      refine hdirective.bare (below ++ inside) d (by simp [hbelow]) ?_
      rw [Value.node?_append, hn, Option.bind_some] at hv
      rw [Value.node?_append, hv, Option.bind_some, hd]
    have hsame := (pass_of_covered hsound hcovered).symm.trans h
    obtain ⟨-, rfl⟩ := Prod.mk.inj (Option.some.inj hsame)
    exact hp

end

end Composing

namespace Composer

/-- Requests that leave an include alone: until its content is there, those over the same files, and
from then on those that begin nowhere inside of it and forget nothing. -/
def Spares {μ : Type} (site : Path) (disk : Files) (composer : Composer μ) : Request → Prop
  | .compose setting start =>
    if site ∈ composer.completed then ∀ top, start.path? = some top → site <+: top → site = top
    else setting.files = disk
  | .forget => site ∉ composer.completed

end Composer

namespace Stage

variable {σ : Type} {generators : Generators σ} {matchers : Matchers} {access : FileAccess}
  {site : Path} {directive : Fields} {inclusion : Directive.Inclusion} {disk : Files}
  {x y : Stage (Memory σ)} {handlers : List (Handler (Memory σ))} {w : Value}

/-- An include, or its content, is there in the course of composing. -/
inductive Holds (handlers : List (Handler (Memory σ))) (disk : Files) (site : Path)
    (directive : Fields) (inclusion : Directive.Inclusion) : Stage (Memory σ) → Prop
  | resting {composer : Composer (Memory σ)} (hhandlers : composer.handlers = handlers)
      (h : Held (Handler.markers handlers) disk site directive inclusion composer.progress) :
      Holds handlers disk site directive inclusion (.resting composer)
  | working {composer : Composer (Memory σ)} {setting : Setting} {worklist : List Path}
      {p : Progress (Memory σ)} (hhandlers : composer.handlers = handlers)
      (hworklist : KeepsClear site p.completed worklist)
      (hfiles : site ∉ p.completed → setting.files = disk)
      (h : Held (Handler.markers handlers) disk site directive inclusion p) :
      Holds handlers disk site directive inclusion (.working composer setting worklist p)

theorem Holds.held (h : Holds handlers disk site directive inclusion x) :
    Held (Handler.markers handlers) disk site directive inclusion x.progress := by
  cases h with
  | resting _ h => exact h
  | working _ _ _ h => exact h

theorem keepsClear_startWorklist {start : Pointer} {composer : Composer (Memory σ)}
    {setting : Setting} (h : composer.Spares site disk (.compose setting start)) :
    KeepsClear site composer.completed (Composer.startWorklist start) := by
  by_cases hinside : ∃ below, below ≠ [] ∧ start.path? = some (site ++ below)
  · obtain ⟨below, hbelow, hpath⟩ := hinside
    refine .inr ⟨fun hdone => ?_, below, hbelow, by rw [Composer.startWorklist, hpath]⟩
    rw [Composer.Spares, if_pos hdone] at h
    have heq := h _ hpath (List.prefix_append site below)
    exact hbelow (by simpa using heq)
  · refine .inl fun top htop hfront => ?_
    obtain ⟨below, rfl⟩ := hfront
    by_contra hne
    exact hinside ⟨below, fun hnil => hne (by simp [hnil]), Composer.mem_startWorklist_iff.mp htop⟩

section

variable (hhandlers : handlers = Handler.standard generators matchers access)

include hhandlers

/-- Forgetting leaves an include whose content is not there yet. -/
theorem held_forget {composer : Composer (Memory σ)} (heq : composer.handlers = handlers)
    (hopen : site ∉ composer.completed)
    (hheld : Held (Handler.markers handlers) disk site directive inclusion composer.progress) :
    Held (Handler.markers handlers) disk site directive inclusion composer.forget.progress := by
  have hmemory : composer.forget.progress.memory = Memory.start composer.memory.world := by
    show Handler.forgetAll composer.handlers composer.memory = _
    rw [heq, hhandlers, Handler.forgetAll_standard]
  refine ⟨⟨hheld.proper.sound, hmemory ▸ Memory.wellFormed_start _⟩, ⟨hheld.placed.above, ?_, ?_⟩,
    fun _ => hmemory ▸ Memory.coherent_start disk _⟩
  · exact fun _ hr => absurd hr List.not_mem_nil
  · exact .inl ⟨(hheld.node_of_open hopen).1, fun _ hc => absurd hc List.not_mem_nil⟩

variable (hgenerators : generators.Tidy)
  (hdirective : Directive.IncludesAsIs handlers access directive inclusion)

include hgenerators hdirective

/-- A pass of a composer keeps the include or its content, and content that is there stays. -/
theorem held_pass {composer : Composer (Memory σ)} {setting : Setting} {worklist : List Path}
    {p q : Progress (Memory σ)} {result : Except Fault Unit} (heq : composer.handlers = handlers)
    (hworklist : KeepsClear site p.completed worklist)
    (hfiles : site ∉ p.completed → setting.files = disk)
    (hheld : Held (Handler.markers handlers) disk site directive inclusion p)
    (hpass : Composing.pass (composer.workshop setting) worklist p.fresh = some (result, q)) :
    Held (Handler.markers handlers) disk site directive inclusion q ∧
      ∀ w, Sealed (Handler.markers handlers) site w p →
        Sealed (Handler.markers handlers) site w q := by
  subst heq
  have hfiles' : site ∉ p.completed → (composer.run setting .root).setting.files = disk := hfiles
  obtain ⟨hq, hsealed⟩ := Held.pass (p := p.fresh) hhandlers hgenerators hdirective hheld.fresh
    hworklist hfiles' hpass
  exact ⟨hq, fun w hw => hsealed w hw.fresh⟩

/-- **A step keeps the include or its content**, and content that is there stays. -/
theorem Holds.step (hx : Holds handlers disk site directive inclusion x)
    (h : Step (Composer.Spares site disk) x y) :
    Holds handlers disk site directive inclusion y ∧
      (Sealed (Handler.markers handlers) site w x.progress →
        Sealed (Handler.markers handlers) site w y.progress) := by
  cases h with
  | @compose composer setting start hspares =>
      cases hx with
      | resting heq hheld =>
          refine ⟨.working heq (keepsClear_startWorklist hspares) (fun hopen => ?_) hheld, id⟩
          have hopen' : site ∉ composer.completed := hopen
          rwa [Composer.Spares, if_neg hopen'] at hspares
  | @forget composer hopen =>
      cases hx with
      | resting heq hheld =>
          exact ⟨.resting heq (held_forget hhandlers heq hopen hheld), fun hsealed =>
            absurd hsealed.completed hopen⟩
  | @pass composer setting worklist next p q hround =>
      cases hx with
      | working heq hworklist hfiles hheld =>
          obtain ⟨hq, hsealed⟩ := held_pass hhandlers hgenerators hdirective heq hworklist hfiles
            hheld (pass_of_round_next hround)
          obtain ⟨-, rfl, -, -⟩ := round_eq_next hround
          refine ⟨.working heq (.inl fun w hw hfront => ?_)
            (fun hopen => hfiles fun hdone => ?_) hq, hsealed w⟩
          · exact absurd hfront (hq.placed.noted w (mem_revisit_of_mem_leftOver hw)).1
          · obtain ⟨w, -, hw⟩ := hheld.exists_sealed hdone
            exact hopen (hsealed w hw).completed
  | @last composer setting worklist p q result hround =>
      cases hx with
      | working heq hworklist hfiles hheld =>
          obtain ⟨result, hpass⟩ := exists_pass_of_round_ended hround
          obtain ⟨hq, hsealed⟩ :=
            held_pass hhandlers hgenerators hdirective heq hworklist hfiles hheld hpass
          exact ⟨.resting heq hq.fresh, fun hw => (hsealed w hw).fresh⟩

/-- **Steps keep the include or its content**, and content that is there stays. -/
theorem Holds.reaches (hx : Holds handlers disk site directive inclusion x)
    (h : Reaches (Composer.Spares site disk) x y) :
    Holds handlers disk site directive inclusion y ∧
      (Sealed (Handler.markers handlers) site w x.progress →
        Sealed (Handler.markers handlers) site w y.progress) := by
  induction h with
  | refl => exact ⟨hx, id⟩
  | tail _ hstep ih =>
      obtain ⟨hy, hsealed⟩ := Holds.step hhandlers hgenerators hdirective ih.1 hstep
      exact ⟨hy, hsealed ∘ ih.2⟩

end

end Stage

namespace Composer

variable {σ : Type} {generators : Generators σ} {world : σ} {options : ComposeOptions}
  {content : Value} {site : Path} {directive : Fields} {inclusion : Directive.Inclusion}
  {disk : Files} {x : Stage (Memory σ)}

/-- Composing that ends without a fault, and begins at or above the include, has come to it. -/
theorem completed_of_composeAt {composer composer' : Composer (Memory σ)} {setting : Setting}
    {start : Pointer} {top : Path} {matchers : Matchers} {access : FileAccess}
    (hhandlers : composer.handlers = Handler.standard generators matchers access)
    (hgenerators : generators.Tidy)
    (hdirective : Directive.IncludesAsIs composer.handlers access directive inclusion)
    (hheld : Held (Handler.markers composer.handlers) disk site directive inclusion
      composer.progress)
    (hspares : composer.Spares site disk (.compose setting start))
    (htop : start.path? = some top) (hfront : top <+: site)
    (h : composer.composeAt setting start = some (.ok (), composer')) :
    site ∈ composer'.completed := by
  by_cases hdone : site ∈ composer.completed
  · obtain ⟨w, -, hsealed⟩ := hheld.exists_sealed hdone
    exact ((Stage.Holds.resting rfl hheld).reaches hhandlers hgenerators hdirective
      (Stage.reaches_of_composeAt hspares h)).2 hsealed |>.completed
  rw [Spares, if_neg hdone] at hspares
  obtain ⟨q, hended, rfl⟩ := exists_ended_of_composeAt h
  rw [startWorklist, htop] at hended
  subst hspares
  have hcoherent : ∀ handler ∈ (composer.run setting start).handlers,
      handler.Preserves setting (Memory.Coherent setting.files) := by
    show ∀ handler ∈ composer.handlers, _
    exact hhandlers ▸ Handler.coherent_of_mem_standard
  have hL : Lasting (composer.run setting start).workshop (Proper Memory.WellFormed) :=
    lasting_standard hhandlers hgenerators
  have hP : Carried (composer.run setting start).workshop
      fun p => p.memory.Coherent setting.files := Run.carried hcoherent
  have hmatches : Handler.MatchesMarkers composer.handlers :=
    hhandlers ▸ Handler.matchesMarkers_standard
  have hsite : isDirective (Handler.markers composer.handlers) (.map directive) = true :=
    Handler.isDirective_of_find? hmatches hdirective.find
  have hplaces (hroot : site ≠ []) : Places (composer.workshop setting)
      (fun p => Proper Memory.WellFormed p ∧ p.memory.Coherent setting.files) site
      (.map directive) (Directive.IncludedAsIs setting.files directive inclusion) :=
    places_inclusion (show (composer.workshop setting).setting.files = _ from rfl) hroot hdirective
  obtain ⟨w, -, -, hmem⟩ := hended.exists_final hL hP hsite hdirective.bare hplaces
    (Handler.taking_of_matchesMarkers hmatches) hheld.proper (hheld.coherent hdone) hfront
    hheld.placed
  exact hmem

/-- **Included content is inert.**  Whatever is composed, and after every pass, there is at the
place of an include either the directive still, or the content of the file, and content that is
there stays, until composing begins inside of it or the composer forgets.  What it holds and what
refers to it makes no difference.  Composing that begins at or above the include and ends without a
fault has put the content there. -/
theorem included_stays (hgenerators : generators.Tidy) (hcontent : content.WellFormed)
    (hsite : content.node? site = some (.map directive))
    (habove : ∀ above d, above <+: site → above ≠ site → content.node? above = some d →
      isDirective standardMarkers d = false)
    (hdirective : Directive.IncludesAsIs (Composer.standard generators world options
      content).handlers ⟨⟨options.base?⟩, options.caching⟩ directive inclusion)
    (hx : Stage.Reaches (Spares site disk)
      (.resting (Composer.standard generators world options content)) x) :
    ((site ∉ x.progress.completed ∧
        x.progress.document.content.node? site = some (.map directive)) ∨
      site ∈ x.progress.completed ∧ ∃ v w,
        Reader.readAt disk inclusion.format inclusion.location = .ok v ∧
        (w = v ∨ w = .map directive ∧ (Value.map directive).same v = true) ∧
        x.progress.document.content.node? site = some w ∧
        ∀ y, Stage.Reaches (Spares site disk) x y →
          site ∈ y.progress.completed ∧ y.progress.document.content.node? site = some w) ∧
      ∀ composer composer' setting start top, x = .resting composer →
        composer.Spares site disk (.compose setting start) → start.path? = some top →
        top <+: site → composer.composeAt setting start = some (.ok (), composer') →
        site ∈ composer'.completed := by
  have hstart : Stage.Holds (Composer.standard generators world options content).handlers disk site
      directive inclusion (.resting (Composer.standard generators world options content)) :=
    .resting rfl ⟨⟨Store.sound_wrap hcontent _, Memory.wellFormed_start world⟩,
      placed_start hsite habove _, fun _ => Memory.coherent_start disk world⟩
  obtain ⟨hholds, -⟩ := hstart.reaches (w := .null) rfl hgenerators hdirective hx
  refine ⟨?_, ?_⟩
  · by_cases hdone : site ∈ x.progress.completed
    · obtain ⟨w, ⟨v, hread, hw⟩, hsealed⟩ := hholds.held.exists_sealed hdone
      refine .inr ⟨hdone, v, w, hread, hw, hsealed.node, fun y hy => ?_⟩
      have hthere := (hholds.reaches rfl hgenerators hdirective hy).2 hsealed
      exact ⟨hthere.completed, hthere.node⟩
    · exact .inl ⟨hdone, (hholds.held.node_of_open hdone).1⟩
  · rintro composer composer' setting start top rfl hspares htop hfront h
    cases hholds with
    | resting heq hheld =>
        exact completed_of_composeAt heq hgenerators (heq ▸ hdirective) (heq ▸ hheld) hspares htop
          hfront h

/-- A document that includes another as it is, and refers to a part of it. -/
def quoting : Value :=
  .map [("a", .map [(Directive.includeMarker, .text "part.json")]),
    ("b", .map [(Directive.referenceMarker, .text "/a/y")])]

/-- A composer of the document. -/
abbrev quotingComposer : Composer (Memory Unit) :=
  .standard (Generators.standard fun _ => (0, ())) () partOptions quoting

theorem includesAsIs_quoting : Directive.IncludesAsIs quotingComposer.handlers ⟨⟨none⟩, false⟩
    [(Directive.includeMarker, .text "part.json")]
    ⟨(⟨none⟩ : Reader).resolve "part.json",
      Format.ofLocation ((⟨none⟩ : Reader).resolve "part.json"), false⟩ :=
  Directive.includesAsIs_single "part.json"

theorem wellFormed_quoting : quoting.WellFormed := by
  simp [quoting, Directive.includeMarker, Value.wellFormed_map_iff, Entries.Distinct, Entries.keys]

/-- Composing the document puts the content in its place, and copies the part. -/
theorem compose_quoting :
    ∃ composer, quotingComposer.composeAt partSetting .root = some (.ok (), composer) ∧
      composer.store.content.node? ["b"] = some (.text "z") := by
  let workshop := quotingComposer.workshop partSetting
  let part : Value := .map [("x", .map [("!ref", .text "/y")]), ("y", .text "z")]
  let p : Progress (Memory Unit) :=
    ⟨.direct ⟨.map [("a", part), ("b", .map [("!ref", .text "/a/y")])]⟩, [["a"]], .start (), [],
      true⟩
  let q : Progress (Memory Unit) :=
    ⟨.direct ⟨.map [("a", part), ("b", .text "z")]⟩, [["a"]], .start (), [], true⟩
  have hanswer : (Handler.inclusion ⟨⟨none⟩, false⟩).compose
      [(Directive.includeMarker, .text "part.json")]
      (contextAt workshop ["a"] quotingComposer.progress) (Memory.start ()) =
        (.ok (.completed part), .start ()) := by
    have hread : Reader.readAt (contextAt workshop ["a"] quotingComposer.progress).setting.files
        (Format.ofLocation ((⟨none⟩ : Reader).resolve "part.json"))
        ((⟨none⟩ : Reader).resolve "part.json") = .ok part := load_part
    rw [includesAsIs_quoting.answer (Memory.coherent_start _ ()), hread]
    rfl
  have hinclude : scan workshop ["a"] (.map [(Directive.includeMarker, .text "part.json")])
      quotingComposer.progress = some (.ok false, p) := by
    rw [scan_of_bare (by simp) List.not_mem_nil rfl (by simp) includesAsIs_quoting.bare,
      invoke_of_answer rfl includesAsIs_quoting.find hanswer]
    cbv
  have hrefer : scan workshop ["b"] (.map [(Directive.referenceMarker, .text "/a/y")]) p =
      some (.ok false, q) := by
    cbv
  have hscan : scan workshop [] quoting quotingComposer.progress = some (.ok false, q) := by
    rw [scan_of_plain List.not_mem_nil rfl]
    exact scanFields_cons_eq_ok.mpr ⟨false, false, p, hinclude, scanFields_cons_eq_ok.mpr
      ⟨false, false, q, hrefer, scanFields_nil_eq_ok.mpr ⟨rfl, rfl⟩, rfl⟩, rfl⟩
  have hpass : pass workshop [[]] quotingComposer.progress.fresh = some (.ok (), q) :=
    (pass_cons_of_node (Store.sound_wrap wellFormed_quoting .direct) [] (Value.node?_nil _)).trans
      (bind_eq_ok.mpr ⟨false, q, hscan, rfl⟩)
  have hround : round workshop [[]] quotingComposer.progress = some (.ended (.ok ()) q) :=
    (round_of_pass hpass).trans (congrArg some (verdict_of_nothing rfl))
  exact ⟨quotingComposer.resume q, composeAt_of_ran (.ended hround), rfl⟩

/-- The content holds a reference and is referred to, and stays whatever is composed later. -/
theorem included_stays_quoting :
    (Generators.standard fun _ => (0, ()) : Generators Unit).Tidy ∧ quoting.WellFormed ∧
      quoting.node? ["a"] = some (.map [(Directive.includeMarker, .text "part.json")]) ∧
      (∀ above d, above <+: ["a"] → above ≠ ["a"] → quoting.node? above = some d →
        isDirective standardMarkers d = false) ∧
      ∃ composer part, quotingComposer.composeAt partSetting .root = some (.ok (), composer) ∧
        composer.store.content.node? ["b"] = some (.text "z") ∧
        part = .map [("x", .map [("!ref", .text "/y")]), ("y", .text "z")] ∧
        composer.store.content.node? ["a"] = some part ∧
        ∀ y, Stage.Reaches (Spares ["a"] partSetting.files) (.resting composer) y →
          y.progress.document.content.node? ["a"] = some part := by
  have hgenerators : (Generators.standard fun _ => (0, ()) : Generators Unit).Tidy :=
    Generators.tidy_standard _
  have habove := @isDirective_above_child quoting "a" rfl
  obtain ⟨composer, hcompose, hpart⟩ := compose_quoting
  have hspares : quotingComposer.Spares ["a"] partSetting.files (.compose partSetting .root) := by
    rw [Spares, if_neg (show ["a"] ∉ quotingComposer.completed from List.not_mem_nil)]
  have hreaches := Stage.reaches_of_composeAt hspares hcompose
  have hcompleted := (included_stays hgenerators wellFormed_quoting rfl habove includesAsIs_quoting
    .refl).2 quotingComposer composer partSetting .root [] rfl hspares rfl List.nil_prefix hcompose
  refine ⟨hgenerators, wellFormed_quoting, rfl, habove, composer, _, hcompose, hpart, rfl, ?_⟩
  obtain ⟨⟨hopen, -⟩ | ⟨-, v, w, hread, hw, hn, hstays⟩, -⟩ := included_stays hgenerators
    wellFormed_quoting rfl habove includesAsIs_quoting hreaches
  · exact absurd hcompleted hopen
  obtain rfl := Except.ok.inj ((show Reader.readAt _ _ _ = _ from load_part).symm.trans hread)
  obtain rfl | ⟨-, hsame⟩ := hw
  · exact ⟨hn, fun y hy => (hstays y hy).2⟩
  · exact absurd hsame (by decide)

end Composer

end Docweave
