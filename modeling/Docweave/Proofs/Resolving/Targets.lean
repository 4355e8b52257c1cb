import Docweave.Proofs.Node
import Docweave.Proofs.Pairing
import Docweave.Proofs.Pointer
import Docweave.Resolver
import Mathlib.Logic.Relation

/-!
What directive texts stand for.

A directive text names a target: a node of the document, or a file by its location in normal form.
However it is spelled, a target is one.  The content of a target may hold directive texts itself, so
targets lead to targets, and a value can be resolved exactly if no text on the way is malformed, no
target is missing, and no target leads back to itself (`Sources.Resolvable`).

`Sources.Resolves` says what becomes of a value: every directive text gives way to what the content
of its target becomes, and everything else stays.  There is at most one such value, and no directive
text is left in it.
-/

namespace Docweave

namespace Value

mutual

/-- The texts in a document, in their order. -/
def texts : Value → List String
  | .text s => [s]
  | .list items => textsOfItems items
  | .map fields => textsOfFields fields
  | _ => []

/-- The texts in the elements of a list. -/
def textsOfItems : List Value → List String
  | [] => []
  | v :: vs => texts v ++ textsOfItems vs

/-- The texts in the values of a map. -/
def textsOfFields : List (String × Value) → List String
  | [] => []
  | (_, v) :: es => texts v ++ textsOfFields es

end

theorem mem_textsOfItems {raw : String} {items : List Value} :
    raw ∈ textsOfItems items ↔ ∃ v ∈ items, raw ∈ v.texts := by
  induction items with
  | nil => simp [textsOfItems]
  | cons v vs ih => simp [textsOfItems, ih]

theorem mem_textsOfFields {raw : String} {fields : Fields} :
    raw ∈ textsOfFields fields ↔ ∃ e ∈ fields, raw ∈ e.2.texts := by
  induction fields with
  | nil => simp [textsOfFields]
  | cons e es ih =>
      obtain ⟨key, v⟩ := e
      simp only [textsOfFields, List.mem_append, ih, List.exists_mem_cons_iff]

@[simp] theorem mem_texts_list {raw : String} {items : List Value} :
    raw ∈ (list items).texts ↔ ∃ v ∈ items, raw ∈ v.texts := by
  rw [texts, mem_textsOfItems]

@[simp] theorem mem_texts_map {raw : String} {fields : Fields} :
    raw ∈ (map fields).texts ↔ ∃ e ∈ fields, raw ∈ e.2.texts := by
  rw [texts, mem_textsOfFields]

/-! ### Lists and maps whose children are related one by one -/

theorem child?_of_forall₂_items {R : Value → Value → Prop} {vs ws : List Value}
    (h : List.Forall₂ R vs ws) {token : String} {c : Value}
    (hc : (list vs).child? token = some c) : ∃ d, (list ws).child? token = some d ∧ R c d := by
  obtain ⟨i, hi, hitem⟩ := Option.bind_eq_some_iff.mp hc
  obtain ⟨hlt, rfl⟩ := List.getElem?_eq_some_iff.mp hitem
  have hlt' : i < ws.length := h.length_eq ▸ hlt
  refine ⟨ws[i], ?_, h.get hlt hlt'⟩
  rw [child?, hi, Option.bind_some, List.getElem?_eq_getElem hlt']

theorem child?_of_forall₂_fields {R : Value → Value → Prop} {es fs : Fields}
    (h : List.Forall₂ (fun e f => e.1 = f.1 ∧ R e.2 f.2) es fs) {token : String} {c : Value}
    (hc : (map es).child? token = some c) : ∃ d, (map fs).child? token = some d ∧ R c d := by
  replace hc : Entries.find? es token = some c := hc
  show ∃ d, Entries.find? fs token = some d ∧ R c d
  induction h with
  | nil => exact absurd hc (by simp)
  | @cons e f es fs hef _ ih =>
      obtain ⟨key, v⟩ := e
      obtain ⟨key', w⟩ := f
      obtain ⟨rfl, hvw⟩ := hef
      rw [Entries.find?_cons] at hc ⊢
      split at hc
      · next hkey =>
          obtain rfl := Option.some.inj hc
          exact ⟨w, if_pos hkey, hvw⟩
      · next hkey =>
          rw [if_neg hkey]
          exact ih hc

end Value

/-- What a directive text stands for.  The whole document is no target. -/
inductive Target where
  | node (first : String) (rest : Path)
  /-- A file, by its location in normal form. -/
  | file (location : String)
deriving DecidableEq

/-- The text that a target is known by while it is in progress. -/
def Target.text : Target → String
  | .node first rest => Pointer.referenceMark ++ Pointer.textOfPath (first :: rest)
  | .file location => Pointer.fileMark ++ location

theorem Target.text_inj {t t' : Target} (h : t.text = t'.text) : t = t' := by
  have hchars := congrArg String.toList h
  cases t with
  | node first rest =>
      cases t' with
      | node first' rest' =>
          have hpath := Pointer.textOfPath_inj (String.append_right_inj _ |>.mp h)
          obtain ⟨rfl, rfl⟩ := List.cons.inj hpath
          rfl
      | file location =>
          simp [text, Pointer.referenceMark, Pointer.fileMark, String.toList_append] at hchars
  | file location =>
      cases t' with
      | node first rest =>
          simp [text, Pointer.referenceMark, Pointer.fileMark, String.toList_append] at hchars
      | file location' => rw [String.append_right_inj _ |>.mp h]

/-- Whether a text is written as a directive. -/
def isDirectiveText (raw : String) : Bool :=
  Pointer.isReferenceText raw || Pointer.isFileText raw

/-- The directive texts in a value. -/
def Value.directiveTexts (v : Value) : List String :=
  v.texts.filter isDirectiveText

/-- What directive texts are resolved against. -/
structure Sources where
  document : Value
  files : Files
  reader : Reader

namespace Sources

open Value (directiveTexts)

/-- The target that a directive text names, unless it is malformed. -/
def target? (s : Sources) (raw : String) : Option Target :=
  match Pointer.parse raw with
  | .ok (.reference first rest) => some (.node first rest)
  | .ok (.file path _) => some (.file (s.reader.resolve path))
  | _ => none

/-- The content of a target, if there is such a node, or a file that can be read. -/
def content? (s : Sources) : Target → Option Value
  | .node first rest => s.document.node? (first :: rest)
  | .file location => (Reader.load s.files location).toOption

/-- One target leads to another if a directive text in its content stands for that. -/
def Leads (s : Sources) (t t' : Target) : Prop :=
  ∃ v, s.content? t = some v ∧ ∃ raw ∈ v.directiveTexts, s.target? raw = some t'

/-- The directive texts that following directive texts from a value comes to. -/
inductive Reached (s : Sources) : Value → String → Prop
  | here {v : Value} {raw : String} (h : raw ∈ v.directiveTexts) : Reached s v raw
  | there {v w : Value} {raw raw' : String} {t : Target} (h : raw ∈ v.directiveTexts)
      (ht : s.target? raw = some t) (hw : s.content? t = some w) (hrest : Reached s w raw') :
      Reached s v raw'

/-- Every directive text that is reached is well-formed, its target exists, and no target leads back
to itself. -/
def Resolvable (s : Sources) (v : Value) : Prop :=
  ∀ raw, s.Reached v raw → ∃ t, s.target? raw = some t ∧ (s.content? t).isSome = true ∧
    ¬ Relation.TransGen s.Leads t t

mutual

/-- What becomes of a value: directive texts give way to what the content of their targets becomes,
and everything else stays. -/
inductive Resolves (s : Sources) : Value → Value → Prop
  | null : Resolves s .null .null
  | bool (b : Bool) : Resolves s (.bool b) (.bool b)
  | number (n : Number) : Resolves s (.number n) (.number n)
  | text {raw : String} (h : isDirectiveText raw = false) : Resolves s (.text raw) (.text raw)
  | directive {raw : String} {t : Target} {v w : Value} (h : isDirectiveText raw = true)
      (ht : s.target? raw = some t) (hv : s.content? t = some v) (hw : Resolves s v w) :
      Resolves s (.text raw) w
  | list {items items' : List Value} (h : ResolvesItems s items items') :
      Resolves s (.list items) (.list items')
  | map {fields fields' : List (String × Value)} (h : ResolvesFields s fields fields') :
      Resolves s (.map fields) (.map fields')

/-- The same for the elements of a list, one by one. -/
inductive ResolvesItems (s : Sources) : List Value → List Value → Prop
  | nil : ResolvesItems s [] []
  | cons {v w : Value} {vs ws : List Value} (h : Resolves s v w) (hs : ResolvesItems s vs ws) :
      ResolvesItems s (v :: vs) (w :: ws)

/-- The same for the values of a map, under their keys. -/
inductive ResolvesFields (s : Sources) : List (String × Value) → List (String × Value) → Prop
  | nil : ResolvesFields s [] []
  | cons {key : String} {v w : Value} {es fs : List (String × Value)} (h : Resolves s v w)
      (hs : ResolvesFields s es fs) : ResolvesFields s ((key, v) :: es) ((key, w) :: fs)

end

variable {s : Sources}

/-- A text that names a target is written as a directive. -/
theorem isDirectiveText_of_target? {raw : String} {t : Target} (h : s.target? raw = some t) :
    isDirectiveText raw = true := by
  by_contra hplain
  obtain ⟨hreference, hfile⟩ := Bool.or_eq_false_iff.mp (Bool.eq_false_iff.mpr hplain)
  have hreference' := Option.isNone_iff_eq_none.mp (Option.isSome_eq_false_iff.mp hreference)
  have hfile' := Option.isNone_iff_eq_none.mp (Option.isSome_eq_false_iff.mp hfile)
  rw [target?, Pointer.parse, hreference'] at h
  dsimp only at h
  rw [hfile'] at h
  dsimp only [Pointer.parsePlain] at h
  cases hpath : Pointer.pathOfChars raw.toList <;> rw [hpath] at h <;>
    exact absurd h (by simp [Except.map])

/-! ### Directive texts of a value and of its parts -/

theorem directiveTexts_text {raw : String} (h : isDirectiveText raw = true) :
    (Value.text raw).directiveTexts = [raw] := by
  rw [directiveTexts, Value.texts, List.filter_singleton, h]
  rfl

theorem mem_directiveTexts_list {raw : String} {items : List Value} :
    raw ∈ (Value.list items).directiveTexts ↔ ∃ v ∈ items, raw ∈ v.directiveTexts := by
  simp only [directiveTexts, List.mem_filter, Value.mem_texts_list]
  grind

theorem mem_directiveTexts_map {raw : String} {fields : Fields} :
    raw ∈ (Value.map fields).directiveTexts ↔ ∃ e ∈ fields, raw ∈ e.2.directiveTexts := by
  simp only [directiveTexts, List.mem_filter, Value.mem_texts_map]
  grind

/-! ### What can be resolved -/

theorem Reached.mono {v w : Value} {raw : String} (h : s.Reached v raw)
    (hsub : v.directiveTexts ⊆ w.directiveTexts) : s.Reached w raw := by
  cases h with
  | here h => exact .here (hsub h)
  | there h ht hw hrest => exact .there (hsub h) ht hw hrest

theorem Resolvable.mono {v w : Value} (h : s.Resolvable w)
    (hsub : v.directiveTexts ⊆ w.directiveTexts) : s.Resolvable v :=
  fun raw hraw => h raw (hraw.mono hsub)

theorem resolvable_of_directiveTexts_eq_nil {v : Value} (h : v.directiveTexts = []) :
    s.Resolvable v := by
  intro raw hraw
  cases hraw with
  | here hmem => exact absurd (h ▸ hmem) List.not_mem_nil
  | there hmem => exact absurd (h ▸ hmem) List.not_mem_nil

/-- A value can be resolved if whatever its directive texts are in can be. -/
theorem resolvable_of_parts {v : Value} {parts : List Value}
    (hparts : ∀ raw ∈ v.directiveTexts, ∃ c ∈ parts, raw ∈ c.directiveTexts)
    (h : ∀ c ∈ parts, s.Resolvable c) : s.Resolvable v := by
  intro raw hraw
  cases hraw with
  | here hmem =>
      obtain ⟨c, hc, hmem⟩ := hparts _ hmem
      exact h c hc raw (.here hmem)
  | there hmem ht hw hrest =>
      obtain ⟨c, hc, hmem⟩ := hparts _ hmem
      exact h c hc raw (.there hmem ht hw hrest)

theorem resolvable_list_iff {items : List Value} :
    s.Resolvable (.list items) ↔ ∀ v ∈ items, s.Resolvable v := by
  constructor
  · exact fun h v hv => h.mono fun raw hraw => mem_directiveTexts_list.mpr ⟨v, hv, hraw⟩
  · exact resolvable_of_parts fun raw hraw => mem_directiveTexts_list.mp hraw

theorem resolvable_map_iff {fields : Fields} :
    s.Resolvable (.map fields) ↔ ∀ e ∈ fields, s.Resolvable e.2 := by
  constructor
  · exact fun h e he => h.mono fun raw hraw => mem_directiveTexts_map.mpr ⟨e, he, hraw⟩
  · intro h
    have hvalues : ∀ c ∈ fields.map Prod.snd, s.Resolvable c := by
      intro c hc
      obtain ⟨e, he, rfl⟩ := List.mem_map.mp hc
      exact h e he
    refine resolvable_of_parts (fun raw hraw => ?_) hvalues
    obtain ⟨e, he, hraw⟩ := mem_directiveTexts_map.mp hraw
    exact ⟨e.2, List.mem_map.mpr ⟨e, he, rfl⟩, hraw⟩

/-- What a target leads to is reached from its content. -/
theorem reached_of_transGen {t t' : Target} (h : Relation.TransGen s.Leads t t') :
    ∃ v, s.content? t = some v ∧ ∃ raw, s.Reached v raw ∧ s.target? raw = some t' := by
  induction h using Relation.TransGen.head_induction_on with
  | single h =>
      obtain ⟨v, hv, raw, hraw, ht⟩ := h
      exact ⟨v, hv, raw, .here hraw, ht⟩
  | head h hrest ih =>
      obtain ⟨v, hv, raw, hraw, ht⟩ := h
      obtain ⟨w, hw, raw', hraw', ht'⟩ := ih
      exact ⟨v, hv, raw', .there hraw ht hw hraw', ht'⟩

/-- A directive text can be resolved if the content of its target can be: if the target led back to
itself, it would be reached from there. -/
theorem resolvable_text_iff {raw : String} (h : isDirectiveText raw = true) :
    s.Resolvable (.text raw) ↔
      ∃ t v, s.target? raw = some t ∧ s.content? t = some v ∧ s.Resolvable v := by
  have hself : raw ∈ (Value.text raw).directiveTexts := by
    rw [directiveTexts_text h]
    exact List.mem_singleton_self raw
  constructor
  · intro hresolvable
    obtain ⟨t, ht, hv, -⟩ := hresolvable raw (.here hself)
    obtain ⟨v, hv⟩ := Option.isSome_iff_exists.mp hv
    exact ⟨t, v, ht, hv, fun raw' hraw' => hresolvable raw' (.there hself ht hv hraw')⟩
  · rintro ⟨t, v, ht, hv, hresolvable⟩ raw' hraw'
    cases hraw' with
    | here hmem =>
        rw [directiveTexts_text h] at hmem
        obtain rfl := List.mem_singleton.mp hmem
        refine ⟨t, ht, Option.isSome_of_eq_some hv, fun hback => ?_⟩
        obtain ⟨w, hw, raw'', hraw'', ht''⟩ := reached_of_transGen hback
        obtain rfl := Option.some.inj (hv.symm.trans hw)
        obtain ⟨t', ht', -, hnot⟩ := hresolvable raw'' hraw''
        obtain rfl := Option.some.inj (ht''.symm.trans ht')
        exact hnot hback
    | there hmem ht' hw hrest =>
        rw [directiveTexts_text h] at hmem
        obtain rfl := List.mem_singleton.mp hmem
        obtain rfl := Option.some.inj (ht.symm.trans ht')
        obtain rfl := Option.some.inj (hv.symm.trans hw)
        exact hresolvable raw' hrest

/-! ### What a value becomes -/

theorem resolvesItems_iff {vs ws : List Value} :
    s.ResolvesItems vs ws ↔ List.Forall₂ s.Resolves vs ws := by
  constructor
  · intro h
    induction vs generalizing ws with
    | nil => cases h; exact .nil
    | cons v vs ih => cases h with | cons h hs => exact .cons h (ih hs)
  · intro h
    induction h with
    | nil => exact .nil
    | cons h _ ih => exact .cons h ih

theorem resolvesFields_iff {es fs : List (String × Value)} :
    s.ResolvesFields es fs ↔ List.Forall₂ (fun e f => e.1 = f.1 ∧ s.Resolves e.2 f.2) es fs := by
  constructor
  · intro h
    induction es generalizing fs with
    | nil => cases h; exact .nil
    | cons e es ih => cases h with | cons h hs => exact .cons ⟨rfl, h⟩ (ih hs)
  · intro h
    induction h with
    | nil => exact .nil
    | @cons e f es fs h _ ih =>
        obtain ⟨key, v⟩ := e
        obtain ⟨rfl, h⟩ := h
        exact .cons h ih

/-- Induction over what becomes of a value. -/
@[elab_as_elim]
theorem Resolves.induction {motive : ∀ v w, s.Resolves v w → Prop} (null : motive _ _ .null)
    (bool : ∀ b, motive _ _ (.bool b)) (number : ∀ n, motive _ _ (.number n))
    (text : ∀ raw (h : isDirectiveText raw = false), motive _ _ (.text h))
    (directive : ∀ raw t v w (h : isDirectiveText raw = true) (ht : s.target? raw = some t)
      (hv : s.content? t = some v) (hw : s.Resolves v w), motive v w hw →
      motive _ _ (.directive h ht hv hw))
    (list : ∀ vs ws (h : s.ResolvesItems vs ws),
      List.Forall₂ (fun v w => ∃ h : s.Resolves v w, motive v w h) vs ws → motive _ _ (.list h))
    (map : ∀ es fs (h : s.ResolvesFields es fs),
      List.Forall₂ (fun e f => e.1 = f.1 ∧ ∃ h : s.Resolves e.2 f.2, motive e.2 f.2 h) es fs →
      motive _ _ (.map h))
    {v w : Value} (h : s.Resolves v w) : motive v w h := by
  refine @Resolves.rec s motive
    (fun vs ws _ => List.Forall₂ (fun v w => ∃ h : s.Resolves v w, motive v w h) vs ws)
    (fun es fs _ =>
      List.Forall₂ (fun e f => e.1 = f.1 ∧ ∃ h : s.Resolves e.2 f.2, motive e.2 f.2 h) es fs)
    null bool number (fun h => text _ h) (fun h ht hv hw ih => directive _ _ _ _ h ht hv hw ih)
    (fun h ih => list _ _ h ih) (fun h ih => map _ _ h ih) .nil ?_ .nil ?_ v w h
  · exact fun h _ ih ihs => .cons ⟨h, ih⟩ ihs
  · intro key v w es fs h _ ih ihs
    exact .cons ⟨rfl, h, ih⟩ ihs

/-- A value becomes one value only. -/
theorem Resolves.unique {v w w' : Value} (h : s.Resolves v w) (h' : s.Resolves v w') : w = w' := by
  induction h using Resolves.induction generalizing w' with
  | null | bool | number => cases h'; rfl
  | text raw hplain =>
      cases h' with
      | text => rfl
      | directive hdirective => exact absurd (hplain.symm.trans hdirective) (by simp)
  | directive raw t v w hdirective ht hv hw ih =>
      cases h' with
      | text hplain => exact absurd (hplain.symm.trans hdirective) (by simp)
      | directive _ ht' hv' hw' =>
          obtain rfl := Option.some.inj (ht.symm.trans ht')
          obtain rfl := Option.some.inj (hv.symm.trans hv')
          exact ih hw'
  | list vs ws hvs hitems =>
      clear hvs
      cases h' with
      | @list _ ws' h' =>
          rw [resolvesItems_iff] at h'
          congr 1
          induction hitems generalizing ws' with
          | nil => cases h'; rfl
          | cons h _ ih =>
              obtain ⟨-, hunique⟩ := h
              cases h' with | cons h' hs' => rw [hunique h', ih hs']
  | map es fs hes hfields =>
      clear hes
      cases h' with
      | @map _ fs' h' =>
          rw [resolvesFields_iff] at h'
          congr 1
          induction hfields generalizing fs' with
          | nil => cases h'; rfl
          | cons h _ ih =>
              obtain ⟨hkey, -, hunique⟩ := h
              cases h' with
              | cons h' hs' =>
                  rw [ih hs', Prod.ext (hkey.symm.trans h'.1) (hunique h'.2)]

/-- A value that becomes something can be resolved. -/
theorem Resolves.resolvable {v w : Value} (h : s.Resolves v w) : s.Resolvable v := by
  induction h using Resolves.induction with
  | null | bool | number =>
      exact resolvable_of_directiveTexts_eq_nil (by simp [directiveTexts, Value.texts])
  | text raw hplain =>
      exact resolvable_of_directiveTexts_eq_nil (by simp [directiveTexts, Value.texts, hplain])
  | directive raw t v w hdirective ht hv _ ih =>
      exact (resolvable_text_iff hdirective).mpr ⟨t, v, ht, hv, ih⟩
  | list vs ws _ hitems =>
      refine resolvable_list_iff.mpr fun v hv => ?_
      obtain ⟨w, -, -, hresolvable⟩ := exists_of_mem_left hitems hv
      exact hresolvable
  | map es fs _ hfields =>
      refine resolvable_map_iff.mpr fun e he => ?_
      obtain ⟨f, -, -, -, hresolvable⟩ := exists_of_mem_left hfields he
      exact hresolvable

/-- In what a value becomes no directive text is left. -/
theorem Resolves.directiveTexts_eq_nil {v w : Value} (h : s.Resolves v w) :
    w.directiveTexts = [] := by
  refine List.eq_nil_iff_forall_not_mem.mpr fun raw hraw => ?_
  induction h using Resolves.induction with
  | null | bool | number => exact absurd hraw (by simp [directiveTexts, Value.texts])
  | text raw hplain => exact absurd hraw (by simp [directiveTexts, Value.texts, hplain])
  | directive _ t v w hdirective ht hv hw ih => exact ih hraw
  | list vs ws _ hitems =>
      obtain ⟨w, hw, hraw⟩ := mem_directiveTexts_list.mp hraw
      obtain ⟨v, -, -, hnot⟩ := exists_of_mem_right hitems hw
      exact hnot hraw
  | map es fs _ hfields =>
      obtain ⟨f, hf, hraw⟩ := mem_directiveTexts_map.mp hraw
      obtain ⟨e, -, -, -, hnot⟩ := exists_of_mem_right hfields hf
      exact hnot hraw

/-- A value without directive texts stays as it is. -/
theorem resolves_self {v : Value} (h : v.directiveTexts = []) : s.Resolves v v := by
  rw [List.eq_nil_iff_forall_not_mem] at h
  induction v using Value.induction with
  | null => exact .null
  | bool b => exact .bool b
  | number n => exact .number n
  | text raw =>
      refine .text (Bool.eq_false_iff.mpr fun hdirective => h raw ?_)
      rw [directiveTexts_text hdirective]
      exact List.mem_singleton_self raw
  | list items ih =>
      refine .list (resolvesItems_iff.mpr (List.forall₂_same.mpr fun v hv => ih v hv ?_))
      exact fun raw hraw => h raw (mem_directiveTexts_list.mpr ⟨v, hv, hraw⟩)
  | map fields ih =>
      refine .map (resolvesFields_iff.mpr (List.forall₂_same.mpr fun e he => ⟨rfl, ih e he ?_⟩))
      exact fun raw hraw => h raw (mem_directiveTexts_map.mpr ⟨e, he, hraw⟩)

end Sources

end Docweave
