import Docweave.Proofs.Composing.Together
import Docweave.Proofs.Handlers

/-!
What is remembered of files.

As long as files stay as they are, whatever is remembered of a file is what reading it gives
(`Memory.Coherent`), also for included content, since the text that it is remembered under tells the
format from the location.  So no handler but that of made values can tell one such memory from
another: it answers as if nothing were remembered (`Handler.answer_of_coherent`).

An include directive whose content is to be composed on its own (`Directive.IncludesComposed`) is
read the same in whatever order its two entries stand, and is answered with the content.
-/

namespace Docweave

/-! ### Under which texts included content is remembered -/

/-- The name of a format and the location behind it can be taken apart again. -/
theorem Format.label_append_inj {format format' : Format} {location location' : String}
    (h : format.label ++ ":" ++ location = format'.label ++ ":" ++ location') :
    format = format' ∧ location = location' := by
  have hchars := congrArg String.toList h
  simp only [String.toList_append] at hchars
  cases format <;> cases format' <;> simp [label] at hchars <;>
    exact ⟨rfl, String.toList_inj.mp hchars⟩

/-! ### Memories that files bear out -/

/-- What is remembered of files is what reading them gives. -/
structure Memory.Coherent {σ : Type} (disk : Files) (memory : Memory σ) : Prop where
  files : ∀ {location v}, Entries.find? memory.files location = some v →
    Reader.readAt disk .json location = .ok v
  includes : ∀ {format : Format} {location v},
    Entries.find? memory.includes (format.label ++ ":" ++ location) = some v →
    Reader.readAt disk format location = .ok v

theorem Memory.coherent_start {σ : Type} (disk : Files) (world : σ) :
    (Memory.start world).Coherent disk :=
  ⟨fun h => absurd h (by simp [start]), fun h => absurd h (by simp [start])⟩

/-- What is remembered once something was read. -/
def keepRead (caching : Bool) (entries : Entries Value) (key : String) (v : Value) :
    Entries Value :=
  if caching then Entries.insert entries key v else entries

theorem of_find?_keepRead {caching : Bool} {entries : Entries Value} {key other : String}
    {v w : Value} (h : Entries.find? (keepRead caching entries key v) other = some w) :
    key = other ∧ v = w ∨ Entries.find? entries other = some w := by
  simp only [keepRead] at h
  split at h
  · rw [Entries.find?_insert] at h
    split at h
    · exact .inl ⟨‹_›, Option.some.inj h⟩
    · exact .inr h
  · exact .inr h

/-- What is remembered makes no difference if it is what reading gives. -/
theorem remembered_eq {caching : Bool} {entries : Entries Value} {key : String}
    {read : Except Fault Value} (h : ∀ v, Entries.find? entries key = some v → read = .ok v) :
    remembered caching entries key read =
      read.map fun v => (v, keepRead caching entries key v) := by
  cases caching with
  | false => cases read <;> rfl
  | true =>
      cases hfind : Entries.find? entries key with
      | none =>
          simp only [remembered, if_true, hfind]
          cases read <;> rfl
      | some v =>
          simp only [remembered, if_true, hfind, h v hfind, Except.map, keepRead,
            Entries.insert_self hfind]

namespace Handler

variable {σ : Type} {generators : Generators σ} {matchers : Matchers} {access : FileAccess}
  {setting : Setting} {context : Context} {memory memory' : Memory σ}

/-- The answer to a file directive, if what is remembered is what reading gives. -/
theorem compose_file_of_coherent (hmemory : memory.Coherent context.setting.files)
    (directive : Fields) :
    (file access).compose directive context memory =
      match Directive.payload directive Directive.fileMarker with
      | .error fault => (.error fault, memory)
      | .ok raw =>
        match Reader.readAt context.setting.files .json (access.reader.resolve raw) with
        | .error fault => (.error fault, memory)
        | .ok v => (.ok (.success v), { memory with
            files := keepRead access.caching memory.files (access.reader.resolve raw) v }) := by
  cases hpayload : Directive.payload directive Directive.fileMarker with
  | error fault => simp only [file, hpayload]
  | ok raw =>
      simp only [file, hpayload, Reader.read, Option.getD_some]
      rw [remembered_eq fun v hfind => hmemory.files hfind]
      cases Reader.readAt context.setting.files .json (access.reader.resolve raw) <;> rfl

/-- The answer to an include directive, if what is remembered is what reading gives. -/
theorem compose_inclusion_of_coherent (hmemory : memory.Coherent context.setting.files)
    (directive : Fields) :
    (inclusion access).compose directive context memory =
      match Directive.Inclusion.read access.reader directive with
      | .error fault => (.error fault, memory)
      | .ok inclusion =>
        match Reader.readAt context.setting.files inclusion.format inclusion.location with
        | .error fault => (.error fault, memory)
        | .ok v => (.ok (inclusion.outcome v), { memory with
            includes := keepRead access.caching memory.includes inclusion.key v }) := by
  cases hinclusion : Directive.Inclusion.read access.reader directive with
  | error fault => simp only [inclusion, hinclusion]
  | ok read =>
      have hread : ∀ v, Entries.find? memory.includes read.key = some v →
          Reader.readAt context.setting.files read.format read.location = .ok v :=
        fun v hfind => hmemory.includes hfind
      simp only [inclusion, hinclusion]
      rw [remembered_eq hread]
      cases Reader.readAt context.setting.files read.format read.location <;> rfl

/-- **What handlers remember of files stays what reading them gives.** -/
theorem coherent_of_mem_standard : ∀ handler ∈ standard generators matchers access,
    handler.Preserves setting (Memory.Coherent setting.files) := by
  intro handler hmem directive context memory hsetting hmemory
  subst hsetting
  simp only [standard, List.mem_cons, List.not_mem_nil, or_false] at hmem
  rcases hmem with rfl | rfl | rfl | rfl | rfl | rfl
  · exact hmemory
  · exact hmemory
  · rw [compose_file_of_coherent hmemory]
    split
    · exact hmemory
    split
    · exact hmemory
    · rename_i v hread
      refine ⟨fun {location w} hfind => ?_, hmemory.includes⟩
      obtain ⟨rfl, rfl⟩ | hfind := of_find?_keepRead hfind
      · exact hread
      · exact hmemory.files hfind
  · rw [compose_inclusion_of_coherent hmemory]
    split
    · exact hmemory
    split
    · exact hmemory
    · rename_i inclusion _ v hread
      refine ⟨hmemory.files, fun {format location w} hfind => ?_⟩
      obtain ⟨hkey, rfl⟩ | hfind := of_find?_keepRead hfind
      · obtain ⟨rfl, rfl⟩ := Format.label_append_inj hkey
        exact hread
      · exact hmemory.includes hfind
  · have hmade : ∀ call key?, (Directive.make generators call key? memory).2.Coherent
        context.setting.files := by
      intro call key?
      simp only [Directive.make]
      split
      · exact hmemory
      · split <;> exact ⟨hmemory.files, hmemory.includes⟩
    simp only [generator, Directive.composeMade]
    split
    · exact hmemory
    · rename_i call key? _
      have hmake := hmade call key?
      split <;> rename_i heq <;> rw [heq] at hmake <;> exact hmake
  · exact hmemory

/-- **No handler but that of made values can tell what is remembered of files.** -/
theorem answer_of_coherent {handler : Handler (Memory σ)}
    (hhandler : handler ∈ standard generators matchers access)
    (hmarker : handler.marker ≠ Directive.generatorMarker)
    (hmemory : memory.Coherent context.setting.files)
    (hmemory' : memory'.Coherent context.setting.files) (directive : Fields) :
    (handler.compose directive context memory).1 =
      (handler.compose directive context memory').1 := by
  simp only [standard, List.mem_cons, List.not_mem_nil, or_false] at hhandler
  rcases hhandler with rfl | rfl | rfl | rfl | rfl | rfl
  · rfl
  · rfl
  · rw [compose_file_of_coherent hmemory, compose_file_of_coherent hmemory']
    split
    · rfl
    · split <;> rfl
  · rw [compose_inclusion_of_coherent hmemory, compose_inclusion_of_coherent hmemory']
    split
    · rfl
    · split <;> rfl
  · exact absurd rfl hmarker
  · rfl

end Handler

/-! ### Directives that include content to be composed on its own -/

namespace Directive

/-- The directive includes the content of a file and has it composed on its own. -/
def IncludesComposed (directive : Fields) (raw : String) : Prop :=
  directive.Perm [(includeMarker, .text raw), ("$compose", .bool true)]

namespace IncludesComposed

variable {directive : Fields} {raw : String}

theorem find? (h : IncludesComposed directive raw) (key : String) :
    Entries.find? directive key =
      if includeMarker = key then some (.text raw)
      else if "$compose" = key then some (.bool true) else none := by
  have hdistinct : Entries.Distinct directive := by
    have hkeys : (Entries.keys directive).Perm [includeMarker, "$compose"] := h.map Prod.fst
    exact hkeys.nodup_iff.mpr (by decide)
  rw [hdistinct.find?_of_perm h, Entries.find?_cons, Entries.find?_cons, Entries.find?_nil]

theorem read (h : IncludesComposed directive raw) (reader : Reader) :
    Inclusion.read reader directive =
      .ok ⟨reader.resolve raw, Format.ofLocation (reader.resolve raw), true⟩ := by
  have hpayload : payload directive includeMarker = .ok raw := by
    simp only [payload, h.find?, if_true]
  have hcompose : wantsCompose directive = .ok true := by
    simp [wantsCompose, option?, h.find?, includeMarker]
  have hformat : formatFor directive (reader.resolve raw) =
      .ok (Format.ofLocation (reader.resolve raw)) := by
    simp [formatFor, option?, h.find?, includeMarker]
  exact Except.bind_eq_ok_iff.mpr ⟨_, hpayload, Except.bind_eq_ok_iff.mpr ⟨_, hcompose,
    Except.bind_eq_ok_iff.mpr ⟨_, hformat, rfl⟩⟩⟩

theorem find?_standard {σ : Type} {generators : Generators σ} {matchers : Matchers}
    {access : FileAccess} (h : IncludesComposed directive raw) :
    Handler.find? (Handler.standard generators matchers access) directive =
      some (.inclusion access) := by
  have hnot : ∀ marker, includeMarker ≠ marker → "$compose" ≠ marker →
      Entries.contains directive marker = false := by
    intro marker hinclude hcompose
    rw [Entries.contains, h.find?, if_neg hinclude, if_neg hcompose]
    rfl
  have hreference : (Handler.reference : Handler (Memory σ)).takes directive = false :=
    hnot referenceMarker (by decide) (by decide)
  have hoverlay : (Handler.overlay : Handler (Memory σ)).takes directive = false :=
    hnot overlayMarker (by decide) (by decide)
  have hfile : (Handler.file access : Handler (Memory σ)).takes directive = false :=
    hnot fileMarker (by decide) (by decide)
  have hinclude : (Handler.inclusion access : Handler (Memory σ)).takes directive = true := by
    show Entries.contains directive includeMarker = true
    rw [Entries.contains, h.find?, if_pos rfl]
    rfl
  rw [Handler.find?, Handler.standard, List.find?_cons, hreference, List.find?_cons, hoverlay,
    List.find?_cons, hfile, List.find?_cons, hinclude]

/-- The handler answers with the content, to be composed on its own. -/
theorem compose_inclusion {σ : Type} {access : FileAccess} {context : Context} {memory : Memory σ}
    {v : Value} (h : IncludesComposed directive raw)
    (hmemory : memory.Coherent context.setting.files)
    (hload : Reader.load context.setting.files (access.reader.resolve raw) = .ok v) :
    (Handler.inclusion access).compose directive context memory =
      (.ok (.separate v), { memory with
        includes := keepRead access.caching memory.includes
          ((Format.ofLocation (access.reader.resolve raw)).label ++ ":" ++
            access.reader.resolve raw) v }) := by
  change Reader.readAt _ (Format.ofLocation (access.reader.resolve raw)) _ = _ at hload
  rw [Handler.compose_inclusion_of_coherent hmemory, h.read]
  simp only [hload]
  rfl

theorem wellFormed (h : IncludesComposed directive raw) : (Value.map directive).WellFormed := by
  have hkeys : (Entries.keys directive).Perm [includeMarker, "$compose"] := h.map Prod.fst
  refine Value.wellFormed_map_iff.mpr ⟨hkeys.nodup_iff.mpr (by decide), fun e he => ?_⟩
  have hmem : e ∈ [(includeMarker, Value.text raw), ("$compose", .bool true)] := h.mem_iff.mp he
  simp only [List.mem_cons, List.not_mem_nil, or_false] at hmem
  rcases hmem with rfl | rfl <;> simp

/-- There is no directive in an include. -/
theorem bare (h : IncludesComposed directive raw) {markers : List String} : ∀ below d,
    below ≠ [] → (Value.map directive).node? below = some d → isDirective markers d = false := by
  refine isDirective_inside_of_scalars fun e he => ?_
  have hmem : e ∈ [(includeMarker, Value.text raw), ("$compose", .bool true)] := h.mem_iff.mp he
  simp only [List.mem_cons, List.not_mem_nil, or_false] at hmem
  rcases hmem with rfl | rfl <;> rfl

end IncludesComposed

end Directive

end Docweave
