import Docweave.Composition
import Docweave.Generator.Builtin
import Docweave.Proofs.Composing.Tidy
import Docweave.Proofs.Reading.Yaml
import Docweave.Proofs.References.Following
import Docweave.Proofs.Registry

/-!
The standard handlers are tidy.

Whatever a standard handler answers has no key twice in a map (`tidy_of_mem_standard`).  A copy is a
node of the document, with changes that are updates and removals; content of a file is what a
reader gives; a made value is chosen from arguments, which are written in the directive; and a
descriptor is built entry by entry.  What a handler remembers is what it has answered before, so
the invariant of the memory is that all of it is well-formed (`Memory.WellFormed`).
-/

namespace Docweave

namespace Value

theorem WellFormed.ofPairs {pairs : List (String × Value)} (h : ∀ e ∈ pairs, e.2.WellFormed) :
    (map (Entries.ofPairs pairs)).WellFormed := by
  have hfold : ∀ es : Fields, (map es).WellFormed →
      (map (pairs.foldl (fun es e => Entries.insert es e.1 e.2) es)).WellFormed := by
    induction pairs with
    | nil => exact fun es hes => hes
    | cons e pairs ih =>
        obtain ⟨he, hpairs⟩ := List.forall_mem_cons.mp h
        exact fun es hes => ih hpairs _ (hes.insert he e.1)
  exact hfold [] wellFormed_map_nil

theorem WellFormed.of_find? {fields : Fields} {key : String} {v : Value}
    (h : (map fields).WellFormed) (hfind : Entries.find? fields key = some v) : v.WellFormed :=
  (wellFormed_map_iff.mp h).2 _ (Entries.mem_of_find? hfind)

theorem WellFormed.of_mem {items : List Value} {v : Value} (h : (list items).WellFormed)
    (hv : v ∈ items) : v.WellFormed :=
  wellFormed_list_iff.mp h v hv

end Value

/-! ### Copies -/

theorem Direct.wellFormed_update {store updated : Direct} {pointer : Pointer} {new : Value}
    (hstore : store.content.WellFormed) (hnew : new.WellFormed)
    (h : store.update pointer new = .ok updated) : updated.content.WellFormed := by
  have hwritten : store.content.written pointer new = .ok updated.content := by
    rw [← Direct.update_mapError, h]
    rfl
  exact hstore.written hnew hwritten

theorem Direct.wellFormed_delete? {store rest : Direct} {pointer : Pointer}
    (hstore : store.content.WellFormed) (h : store.delete? pointer = some rest) :
    rest.content.WellFormed := by
  have hremoved : store.content.removed? pointer = some rest.content := by
    rw [← Direct.delete?_map, h]
    rfl
  exact hstore.removed? hremoved

namespace Directive

theorem wellFormed_of_option? {directive : Fields} {name : String} {v : Value}
    (hdirective : (Value.map directive).WellFormed) (h : option? directive name = some v) :
    v.WellFormed := by
  simp only [option?] at h
  split at h
  · exact Option.some.inj h ▸ hdirective.of_find? ‹_›
  · exact hdirective.of_find? h

theorem wellFormed_of_followFrom {context : Context} (hsound : context.document.Sound) {fuel : Nat}
    {visited : List Path} {links : List Link} {node path : Path} {v : Value}
    (h : followFrom context fuel visited links node path = .ok (.found v)) : v.WellFormed := by
  obtain ⟨last, hlast⟩ := exists_node_of_followFrom hsound h
  exact hsound.wellFormed.of_node? hlast

theorem wellFormed_of_composeReference {directive : Fields} {context : Context} {outcome : Outcome}
    (hsound : context.document.Sound) (h : composeReference directive context = .ok outcome) :
    outcome.WellFormed := by
  rcases composeReference_eq_ok h with rfl | ⟨first, v, -, hfollow, rfl⟩
  · trivial
  · exact wellFormed_of_followFrom hsound hfollow

theorem wellFormed_of_mapM {fields : Fields} {extensions : List (Pointer × Value)}
    (hfields : (Value.map fields).WellFormed)
    (h : fields.mapM (fun entry => do
      let pointer ← Pointer.plainOfText entry.1
      Except.ok (pointer, entry.2)) = Except.ok extensions) :
    ∀ e ∈ extensions, e.2.WellFormed := by
  have hvalues := (Value.wellFormed_map_iff.mp hfields).2
  clear hfields
  induction fields generalizing extensions with
  | nil =>
      obtain rfl := Except.ok.inj h
      exact fun e he => absurd he List.not_mem_nil
  | cons entry fields ih =>
      obtain ⟨hentry, hvalues⟩ := List.forall_mem_cons.mp hvalues
      rw [List.mapM_cons] at h
      obtain ⟨extension, hextension, h⟩ := Except.bind_eq_ok_iff.mp h
      obtain ⟨pointer, -, hpointer⟩ := Except.bind_eq_ok_iff.mp hextension
      obtain ⟨rest, hrest, h⟩ := Except.bind_eq_ok_iff.mp h
      obtain rfl := Except.ok.inj hpointer
      obtain rfl := Except.ok.inj h
      exact List.forall_mem_cons.mpr ⟨hentry, ih hrest hvalues⟩

theorem wellFormed_of_extensions {directive : Fields} {extend : List (Pointer × Value)}
    (hdirective : (Value.map directive).WellFormed) (h : extensions directive = .ok extend) :
    ∀ e ∈ extend, e.2.WellFormed := by
  simp only [extensions] at h
  split at h
  · obtain rfl := Except.ok.inj h
    exact fun e he => absurd he List.not_mem_nil
  · exact wellFormed_of_mapM (wellFormed_of_option? hdirective ‹_›) h
  · exact absurd h (by simp)

theorem wellFormed_of_extended {extend : List (Pointer × Value)} {copy changed : Direct}
    (hcopy : copy.content.WellFormed) (hextend : ∀ e ∈ extend, e.2.WellFormed)
    (h : extended extend copy = .ok changed) : changed.content.WellFormed := by
  induction extend generalizing copy with
  | nil => exact Except.ok.inj h ▸ hcopy
  | cons e extend ih =>
      obtain ⟨he, hextend⟩ := List.forall_mem_cons.mp hextend
      simp only [extended] at h
      split at h
      · exact absurd h (by simp)
      · exact ih (Direct.wellFormed_update hcopy he ‹_›) hextend h

theorem wellFormed_trimmed {pointers : List Pointer} {copy : Direct}
    (hcopy : copy.content.WellFormed) : (trimmed pointers copy).content.WellFormed := by
  unfold trimmed
  induction pointers generalizing copy with
  | nil => exact hcopy
  | cons pointer pointers ih =>
      refine ih ?_
      show ((copy.delete? pointer).getD copy).content.WellFormed
      cases hdelete : copy.delete? pointer with
      | none => exact hcopy
      | some rest => exact Direct.wellFormed_delete? hcopy hdelete

theorem Overlay.wellFormed_of_apply {overlay : Overlay} {v w : Value} (hv : v.WellFormed)
    (hextend : ∀ e ∈ overlay.extend, e.2.WellFormed) (h : overlay.apply v = .ok w) :
    w.WellFormed := by
  simp only [Overlay.apply] at h
  split at h
  · exact Except.ok.inj h ▸ hv
  split at h
  · obtain ⟨copy, hcopy, h⟩ := Except.bind_eq_ok_iff.mp h
    obtain rfl := Except.ok.inj h
    exact wellFormed_trimmed (wellFormed_of_extended hv hextend hcopy)
  · exact absurd h (by simp)

theorem Overlay.wellFormed_of_read {directive : Fields} {overlay : Overlay}
    (hdirective : (Value.map directive).WellFormed) (h : Overlay.read directive = .ok overlay) :
    ∀ e ∈ overlay.extend, e.2.WellFormed := by
  obtain ⟨path, -, h⟩ := Except.bind_eq_ok_iff.mp h
  obtain ⟨present, -, h⟩ := Except.bind_eq_ok_iff.mp h
  obtain ⟨missing, -, h⟩ := Except.bind_eq_ok_iff.mp h
  obtain ⟨extend, hextend, h⟩ := Except.bind_eq_ok_iff.mp h
  obtain ⟨delete, -, h⟩ := Except.bind_eq_ok_iff.mp h
  obtain rfl := Except.ok.inj h
  exact wellFormed_of_extensions hdirective hextend

theorem wellFormed_of_composeOverlay {directive : Fields} {context : Context} {outcome : Outcome}
    (hdirective : (Value.map directive).WellFormed) (hsound : context.document.Sound)
    (h : composeOverlay directive context = .ok outcome) : outcome.WellFormed := by
  obtain ⟨overlay, hoverlay, h⟩ := Except.bind_eq_ok_iff.mp h
  obtain ⟨found, hfollow, h⟩ := Except.bind_eq_ok_iff.mp h
  cases found with
  | missing | pending => exact Except.ok.inj h ▸ trivial
  | found v =>
      simp only at h
      split at h
      · obtain ⟨copy, hcopy, h⟩ := Except.bind_eq_ok_iff.mp h
        obtain rfl := Except.ok.inj h
        exact Overlay.wellFormed_of_apply (wellFormed_of_followFrom hsound hfollow)
          (Overlay.wellFormed_of_read hdirective hoverlay) hcopy
      · exact Except.ok.inj h ▸ trivial

end Directive

/-! ### Content of files -/

/-- What is remembered has no key twice. -/
structure Memory.WellFormed {σ : Type} (memory : Memory σ) : Prop where
  files : (Value.map memory.files).WellFormed
  includes : (Value.map memory.includes).WellFormed
  made : (Value.map memory.made).WellFormed

theorem Memory.wellFormed_start {σ : Type} (world : σ) : (Memory.start world).WellFormed :=
  ⟨Value.wellFormed_map_nil, Value.wellFormed_map_nil, Value.wellFormed_map_nil⟩

theorem wellFormed_of_remembered {caching : Bool} {entries entries' : Entries Value} {key : String}
    {read : Except Fault Value} {v : Value} (hentries : (Value.map entries).WellFormed)
    (hread : ∀ v, read = .ok v → v.WellFormed)
    (h : remembered caching entries key read = .ok (v, entries')) :
    v.WellFormed ∧ (Value.map entries').WellFormed := by
  simp only [remembered] at h
  split at h
  · rename_i hfind
    obtain ⟨rfl, rfl⟩ := Prod.mk.inj (Except.ok.inj h)
    split at hfind
    · exact ⟨hentries.of_find? hfind, hentries⟩
    · exact absurd hfind (by simp)
  · split at h
    · obtain ⟨rfl, rfl⟩ := Prod.mk.inj (Except.ok.inj h)
      have hv := hread _ rfl
      refine ⟨hv, ?_⟩
      split
      · exact hentries.insert hv key
      · exact hentries
    · exact absurd h (by simp)

theorem Format.wellFormed_of_parse {format : Format} {content : String} {v : Value}
    (h : format.parse content = .ok v) : v.WellFormed := by
  cases format with
  | json =>
      simp only [Format.parse] at h
      split at h
      · exact absurd h (by simp)
      split at h
      · exact Except.ok.inj h ▸ Json.wellFormed_of_read ‹_›
      · exact absurd h (by simp)
  | yaml =>
      simp only [Format.parse] at h
      split at h
      · exact Except.ok.inj h ▸ Yaml.wellFormed_of_read ‹_›
      · exact absurd h (by simp)
  | text => exact Except.ok.inj h ▸ Value.wellFormed_text content

theorem Reader.wellFormed_of_readAt {files : Files} {format : Format} {location : String}
    {v : Value} (h : Reader.readAt files format location = .ok v) : v.WellFormed := by
  simp only [Reader.readAt] at h
  split at h
  · exact absurd h (by simp)
  split at h
  · exact Except.ok.inj h ▸ Format.wellFormed_of_parse ‹_›
  · exact absurd h (by simp)

/-! ### Made values and matchers -/

/-- Arguments without a key that comes twice in one of them. -/
structure Arguments.WellFormed (args : Arguments) : Prop where
  positional : (Value.list args.positional).WellFormed
  keywords : ∀ e ∈ args.keywords, e.2.WellFormed

/-- The generator makes well-formed values of well-formed arguments. -/
def Generator.Tidy {σ : Type} (generator : Generator σ) : Prop :=
  ∀ {args state v state'}, args.WellFormed → generator args state = (.ok v, state') → v.WellFormed

/-- All generators that are registered are tidy. -/
def Generators.Tidy {σ : Type} (generators : Generators σ) : Prop :=
  ∀ {name generator}, generators.find? name = some generator → generator.Tidy

/-- A template that chooses from well-formed values. -/
def Template.WellFormed : Template → Prop
  | .oneOf first rest => first.WellFormed ∧ ∀ v ∈ rest, v.WellFormed
  | _ => True

theorem Template.wellFormed_draw {σ : Type} (chance : Chance σ) {template : Template}
    (h : template.WellFormed) (state : σ) : (template.draw chance state).1.WellFormed := by
  cases template with
  | oneOf first rest =>
      show ((first :: rest).getD ((chance state).1 % (rest.length + 1)) first).WellFormed
      rw [List.getD_eq_getElem?_getD]
      cases hget : (first :: rest)[(chance state).1 % (rest.length + 1)]? with
      | none => exact h.1
      | some v => exact List.forall_mem_cons.mpr h v (List.mem_of_getElem? hget)
  | integers min more => exact Value.wellFormed_number _
  | letters beginning length => exact Value.wellFormed_text _
  | identifier => exact Value.wellFormed_text _

namespace Generator.Builtin

theorem wellFormed_oneText (first : String) (rest : List String) :
    (oneText first rest).WellFormed := by
  refine ⟨Value.wellFormed_text first, fun v hv => ?_⟩
  obtain ⟨s, -, rfl⟩ := List.mem_map.mp hv
  exact Value.wellFormed_text s

theorem wellFormed_of_get? {p : Params} {i : Nat} {v : Value} (hargs : p.args.WellFormed)
    (h : p.get? i = some v) : v.WellFormed := by
  obtain ⟨h, -⟩ := Option.filter_eq_some_iff.mp h
  simp only [Params.given?] at h
  split at h
  · exact Option.some.inj h ▸ hargs.positional.of_mem (List.mem_of_getElem? ‹_›)
  · obtain ⟨name, -, hfind⟩ := Option.bind_eq_some_iff.mp h
    exact hargs.keywords _ (Entries.mem_of_find? hfind)

theorem wellFormed_of_ofParams {b : Builtin} {p : Params} {template : Template}
    (hargs : p.args.WellFormed) (h : ofParams p b = .ok template) : template.WellFormed := by
  cases b with
  | firstName =>
      obtain ⟨gender, -, h⟩ := Except.bind_eq_ok_iff.mp h
      simp only at h
      split at h <;> exact Except.ok.inj h ▸ wellFormed_oneText _ _
  | lastName => exact Except.ok.inj h ▸ wellFormed_oneText _ _
  | number =>
      obtain ⟨min, -, h⟩ := Except.bind_eq_ok_iff.mp h
      obtain ⟨max, -, h⟩ := Except.bind_eq_ok_iff.mp h
      simp only at h
      split at h
      · exact absurd h (by simp)
      · exact Except.ok.inj h ▸ trivial
  | identifier => exact Except.ok.inj h ▸ trivial
  | text =>
      obtain ⟨length, -, h⟩ := Except.bind_eq_ok_iff.mp h
      obtain ⟨beginning, -, h⟩ := Except.bind_eq_ok_iff.mp h
      exact Except.ok.inj h ▸ trivial
  | choice =>
      simp only [ofParams, options] at h
      split at h
      · exact absurd h (by simp)
      · rename_i first rest hrequire
        obtain rfl := Except.ok.inj h
        have hlist := wellFormed_of_get? hargs (Params.get?_of_require hrequire)
        obtain ⟨hfirst, hrest⟩ := Value.wellFormed_list_cons_iff.mp hlist
        exact ⟨hfirst, Value.wellFormed_list_iff.mp hrest⟩
      · exact absurd h (by simp)
  | bool =>
      obtain rfl := Except.ok.inj h
      exact ⟨Value.wellFormed_bool false,
        fun v hv => List.mem_singleton.mp hv ▸ Value.wellFormed_bool true⟩

theorem tidy_generator {σ : Type} (chance : Chance σ) (b : Builtin) :
    (b.generator chance).Tidy := by
  intro args state v state' hargs h
  simp only [generator] at h
  split at h
  · exact absurd (Prod.mk.inj h).1 (by simp)
  · rename_i template htemplate
    obtain ⟨hv, -⟩ := Prod.mk.inj h
    obtain rfl := Except.ok.inj hv
    refine Template.wellFormed_draw chance ?_ state
    simp only [Builtin.template] at htemplate
    split at htemplate
    · exact absurd htemplate (by simp)
    · rename_i p hbind
      refine wellFormed_of_ofParams ?_ htemplate
      rwa [Params.args_of_bind hbind]

end Generator.Builtin

theorem Generators.tidy_standard {σ : Type} (chance : Chance σ) :
    (Generators.standard chance).Tidy := by
  intro name generator h
  obtain ⟨b, -, rfl⟩ := Generators.find?_standard_iff.mp h
  exact Generator.Builtin.tidy_generator chance b

namespace Directive

theorem Call.wellFormed_of_read {directive : Fields} {marker : String} {options : List String}
    {call : Call} (hdirective : (Value.map directive).WellFormed)
    (h : Call.read directive marker options = .ok call) : call.args.WellFormed := by
  obtain ⟨name, -, h⟩ := Except.bind_eq_ok_iff.mp h
  obtain ⟨positional, hpositional, h⟩ := Except.bind_eq_ok_iff.mp h
  obtain rfl := Except.ok.inj h
  refine ⟨?_, fun e he => ?_⟩
  · simp only [Directive.positional] at hpositional
    split at hpositional
    · exact Except.ok.inj hpositional ▸ Value.wellFormed_list_nil
    · exact Except.ok.inj hpositional ▸ Value.wellFormed_list_nil
    · exact Except.ok.inj hpositional ▸ wellFormed_of_option? hdirective ‹_›
    · exact absurd hpositional (by simp)
  · exact (Value.wellFormed_map_iff.mp hdirective).2 e (List.mem_filter.mp he).1

theorem wellFormed_of_make {σ : Type} {generators : Generators σ} (hgenerators : generators.Tidy)
    {call : Call} {key? : Option String} {memory memory' : Memory σ} {v : Value}
    (hargs : call.args.WellFormed) (hmemory : memory.WellFormed)
    (h : make generators call key? memory = (.ok v, memory')) :
    v.WellFormed ∧ memory'.WellFormed := by
  simp only [make] at h
  split at h
  · rename_i hfind
    obtain ⟨hv, rfl⟩ := Prod.mk.inj h
    obtain rfl := Except.ok.inj hv
    obtain ⟨key, -, hfind⟩ := Option.bind_eq_some_iff.mp hfind
    exact ⟨hmemory.made.of_find? hfind, hmemory⟩
  · split at h
    · exact absurd (Prod.mk.inj h).1 (by simp)
    · rename_i w world hgenerate
      obtain ⟨hv, rfl⟩ := Prod.mk.inj h
      obtain rfl := Except.ok.inj hv
      simp only [Generators.generate] at hgenerate
      split at hgenerate
      · have hw := hgenerators ‹_› hargs hgenerate
        refine ⟨hw, hmemory.files, hmemory.includes, ?_⟩
        cases key? with
        | none => exact hmemory.made
        | some key => exact hmemory.made.insert hw key
      · exact absurd (Prod.mk.inj hgenerate).1 (by simp)

theorem wellFormed_of_composeMatcher {matchers : Matchers} {directive : Fields} {context : Context}
    {outcome : Outcome} (hdirective : (Value.map directive).WellFormed)
    (h : composeMatcher matchers directive context = .ok outcome) : outcome.WellFormed := by
  obtain ⟨call, hcall, h⟩ := Except.bind_eq_ok_iff.mp h
  obtain ⟨matcher, -, h⟩ := Except.bind_eq_ok_iff.mp h
  obtain rfl := Except.ok.inj h
  have hargs := Call.wellFormed_of_read hdirective hcall
  refine Value.WellFormed.ofPairs fun e he => ?_
  rcases List.mem_append.mp he with he | he
  · rcases List.mem_cons.mp he with rfl | he
    · exact Value.wellFormed_text _
    · split at he
      · exact absurd he List.not_mem_nil
      · exact List.mem_singleton.mp he ▸ hargs.positional
  · exact hargs.keywords e he

end Directive

/-! ### All of them -/

namespace Handler

variable {σ : Type} {generators : Generators σ} {matchers : Matchers} {access : FileAccess}

theorem tidy_reference : (reference : Handler (Memory σ)).Tidy Memory.WellFormed := by
  intro directive context memory outcome memory' _ hsound hmemory h
  obtain ⟨houtcome, rfl⟩ := Prod.mk.inj h
  exact ⟨Directive.wellFormed_of_composeReference hsound houtcome, hmemory⟩

theorem tidy_overlay : (overlay : Handler (Memory σ)).Tidy Memory.WellFormed := by
  intro directive context memory outcome memory' hdirective hsound hmemory h
  obtain ⟨houtcome, rfl⟩ := Prod.mk.inj h
  exact ⟨Directive.wellFormed_of_composeOverlay hdirective hsound houtcome, hmemory⟩

theorem tidy_file : (file access : Handler (Memory σ)).Tidy Memory.WellFormed := by
  intro directive context memory outcome memory' _ _ hmemory h
  simp only [file] at h
  split at h
  · exact absurd (Prod.mk.inj h).1 (by simp)
  split at h
  · obtain ⟨houtcome, rfl⟩ := Prod.mk.inj h
    obtain rfl := Except.ok.inj houtcome
    obtain ⟨hv, hfiles⟩ := wellFormed_of_remembered hmemory.files
      (fun _ h => Reader.wellFormed_of_readAt h) ‹_›
    exact ⟨hv, hfiles, hmemory.includes, hmemory.made⟩
  · exact absurd (Prod.mk.inj h).1 (by simp)

theorem tidy_inclusion : (inclusion access : Handler (Memory σ)).Tidy Memory.WellFormed := by
  intro directive context memory outcome memory' _ _ hmemory h
  simp only [inclusion] at h
  split at h
  · exact absurd (Prod.mk.inj h).1 (by simp)
  split at h
  · obtain ⟨houtcome, rfl⟩ := Prod.mk.inj h
    obtain rfl := Except.ok.inj houtcome
    obtain ⟨hv, hincludes⟩ := wellFormed_of_remembered hmemory.includes
      (fun _ h => Reader.wellFormed_of_readAt h) ‹_›
    refine ⟨?_, hmemory.files, hincludes, hmemory.made⟩
    unfold Directive.Inclusion.outcome
    split <;> exact hv
  · exact absurd (Prod.mk.inj h).1 (by simp)

theorem tidy_generator (hgenerators : generators.Tidy) :
    (generator generators).Tidy Memory.WellFormed := by
  intro directive context memory outcome memory' hdirective _ hmemory h
  simp only [generator, Directive.composeMade] at h
  split at h
  · exact absurd (Prod.mk.inj h).1 (by simp)
  rename_i call key? hread
  split at h
  · exact absurd (Prod.mk.inj h).1 (by simp)
  · obtain ⟨houtcome, rfl⟩ := Prod.mk.inj h
    obtain rfl := Except.ok.inj houtcome
    obtain ⟨call', hcall, hread⟩ := Except.bind_eq_ok_iff.mp hread
    obtain ⟨key', -, hread⟩ := Except.bind_eq_ok_iff.mp hread
    obtain ⟨rfl, rfl⟩ := Prod.mk.inj (Except.ok.inj hread)
    exact Directive.wellFormed_of_make hgenerators
      (Directive.Call.wellFormed_of_read hdirective hcall) hmemory ‹_›

theorem tidy_matcher : (matcher matchers : Handler (Memory σ)).Tidy Memory.WellFormed := by
  intro directive context memory outcome memory' hdirective _ hmemory h
  obtain ⟨houtcome, rfl⟩ := Prod.mk.inj h
  exact ⟨Directive.wellFormed_of_composeMatcher hdirective houtcome, hmemory⟩

/-- **The standard handlers answer with documents, and what they remember stays well-formed.** -/
theorem tidy_of_mem_standard (hgenerators : generators.Tidy) :
    ∀ handler ∈ standard generators matchers access, handler.Tidy Memory.WellFormed := by
  intro handler hmem
  simp only [standard, List.mem_cons, List.not_mem_nil, or_false] at hmem
  rcases hmem with rfl | rfl | rfl | rfl | rfl | rfl
  · exact tidy_reference
  · exact tidy_overlay
  · exact tidy_file
  · exact tidy_inclusion
  · exact tidy_generator hgenerators
  · exact tidy_matcher

end Handler

end Docweave
