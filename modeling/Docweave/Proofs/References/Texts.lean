import Docweave.Proofs.References.Values
import Docweave.Proofs.Resolving.Targets

/-!
Two ways to write a reference.

A resolver takes references that are written as texts, `!ref /a/b`, and composing takes those that
are written as maps with a marker.  `Value.structured` goes from the first way to the second.  The
two name the same target (`Directive.target_of_parse`), and apart from the text inside each of the
maps a document keeps its nodes: whatever stands at a path before stands there afterwards,
structured (`Value.node?_structured`).

`TextsOnly` says that a document has directives of the first kind only.  Then all that composing
finds in the structured document are references (`TextsOnly.refsOnly`).
-/

namespace Docweave

/-! ### Targets -/

/-- The target of a reference that is written as a text. -/
def Pointer.referenceTarget? (raw : String) : Option String :=
  (Text.afterMark? referenceMark.toList raw.toList).map String.ofList

theorem Pointer.referenceTarget?_isSome (raw : String) :
    (referenceTarget? raw).isSome = isReferenceText raw :=
  Option.isSome_map

/-- A text is read as a reference to the node that its target is read as. -/
theorem Directive.target_of_parse {raw payload first : String} {rest : Path}
    (hpayload : Pointer.referenceTarget? raw = some payload)
    (h : Pointer.parse raw = .ok (.reference first rest)) :
    target [(referenceMarker, .text payload)] referenceMarker = .ok (first :: rest) := by
  obtain ⟨cs, hcs, rfl⟩ := Option.map_eq_some_iff.mp hpayload
  have hpath : Pointer.pathOfChars cs = .ok (first :: rest) := by
    rw [Pointer.parse, hcs] at h
    dsimp only at h
    split at h
    · exact absurd h (by simp)
    · exact absurd h (by simp)
    · next hpath =>
        obtain ⟨rfl, rfl⟩ := Pointer.reference.inj (Except.ok.inj h)
        exact hpath
  have hplain : Pointer.plainOfText (String.ofList cs) = .ok (.plain (first :: rest)) := by
    rw [Pointer.plainOfText, Pointer.parsePlain, String.toList_ofList, hpath]
    rfl
  have hread : Directive.payload [(referenceMarker, .text (String.ofList cs))] referenceMarker =
      .ok (String.ofList cs) := by
    rw [Directive.payload, Entries.find?_cons, if_pos rfl]
  simp only [target, hread, hplain]
  rfl

namespace Entries

variable {α β : Type}

theorem find?_map (f : α → β) (es : Entries α) (key : String) :
    find? (es.map fun e => (e.1, f e.2)) key = (find? es key).map f := by
  induction es with
  | nil => rfl
  | cons e es ih =>
      rw [List.map_cons, find?_cons, find?_cons, ih]
      split <;> rfl

theorem keys_map (f : α → β) (es : Entries α) : keys (es.map fun e => (e.1, f e.2)) = keys es := by
  rw [keys, List.map_map]
  rfl

theorem insert_map (f : α → β) (es : Entries α) (key : String) (v : α) :
    insert (es.map fun e => (e.1, f e.2)) key (f v) =
      (insert es key v).map fun e => (e.1, f e.2) := by
  induction es with
  | nil => rfl
  | cons e es ih =>
      rw [List.map_cons, insert, insert, ih]
      split <;> rfl

end Entries

/-! ### From texts to maps -/

namespace Value

mutual

/-- The document with the references that are written as texts written as maps. -/
def structured : Value → Value
  | .text raw =>
    match Pointer.referenceTarget? raw with
    | some target => .reference target
    | none => .text raw
  | .list items => .list (structuredItems items)
  | .map fields => .map (structuredFields fields)
  | v => v

/-- The same for the elements of a list. -/
def structuredItems : List Value → List Value
  | [] => []
  | v :: vs => structured v :: structuredItems vs

/-- The same for the values of a map. -/
def structuredFields : List (String × Value) → List (String × Value)
  | [] => []
  | (key, v) :: es => (key, structured v) :: structuredFields es

end

theorem structured_list (items : List Value) :
    (list items).structured = .list (items.map structured) := by
  rw [structured]
  congr 1
  induction items with
  | nil => rfl
  | cons v vs ih => rw [structuredItems, ih, List.map_cons]

theorem structured_map (fields : Fields) :
    (map fields).structured = .map (fields.map fun e => (e.1, e.2.structured)) := by
  rw [structured]
  congr 1
  induction fields with
  | nil => rfl
  | cons e es ih => rw [structuredFields, ih, List.map_cons]

theorem head_structured_map (fields : Fields) :
    (map fields).structured.head = (map fields).head := by
  rw [structured_map, head, Entries.keys_map, head]

theorem structured_text {raw target : String}
    (h : Pointer.referenceTarget? raw = some target) :
    (text raw).structured = .reference target := by
  rw [structured, h]

/-- A text that is no reference stays. -/
theorem structured_text_of_plain {raw : String} (h : Pointer.isReferenceText raw = false) :
    (text raw).structured = .text raw := by
  rw [← Pointer.referenceTarget?_isSome, Option.isSome_eq_false_iff, Option.isNone_iff_eq_none] at h
  rw [structured, h]

/-- A value without directive texts stays as it is. -/
theorem structured_of_directiveTexts_eq_nil {v : Value} (h : v.directiveTexts = []) :
    v.structured = v := by
  rw [List.eq_nil_iff_forall_not_mem] at h
  induction v using Value.induction with
  | text raw =>
      refine structured_text_of_plain (Bool.eq_false_iff.mpr fun hreference => h raw ?_)
      rw [Sources.directiveTexts_text (by rw [isDirectiveText, hreference, Bool.true_or])]
      exact List.mem_singleton_self raw
  | list items ih =>
      rw [structured_list]
      congr 1
      refine (List.map_congr_left fun v hv => ih v hv fun raw hraw => ?_).trans (List.map_id _)
      exact h raw (Sources.mem_directiveTexts_list.mpr ⟨v, hv, hraw⟩)
  | map fields ih =>
      rw [structured_map]
      congr 1
      refine (List.map_congr_left fun e he => ?_).trans (List.map_id _)
      rw [ih e he fun raw hraw => h raw (Sources.mem_directiveTexts_map.mpr ⟨e, he, hraw⟩)]
      rfl
  | _ => rfl

/-! ### Nodes -/

variable {v c : Value} {token : String} {p : Path}

theorem child?_structured (htoken : token ≠ Directive.referenceMarker) (v : Value) :
    v.structured.child? token = (v.child? token).map structured := by
  cases v with
  | text raw =>
      rw [structured]
      split
      · show Entries.find? [(Directive.referenceMarker, _)] token = none
        rw [Entries.find?_cons, if_neg (Ne.symm htoken)]
        rfl
      · rfl
  | list items =>
      rw [structured_list]
      simp only [child?, List.getElem?_map, Option.map_bind]
      rfl
  | map fields =>
      rw [structured_map]
      exact Entries.find?_map structured fields token
  | _ => rfl

/-- **Outside of references every node of the structured document is a node of the document,
structured.** -/
theorem node?_structured (hfree : Directive.referenceMarker ∉ p) (v : Value) :
    v.structured.node? p = (v.node? p).map structured := by
  induction p generalizing v with
  | nil => simp
  | cons token p ih =>
      rw [List.mem_cons, not_or] at hfree
      rw [node?_cons, node?_cons, child?_structured (Ne.symm hfree.1), Option.bind_map,
        Option.map_bind]
      exact Option.bind_congr fun c _ => ih hfree.2 c

theorem isContainer_of_child? (h : v.child? token = some c) : v.isContainer = true := by
  cases v <;> first | rfl | exact absurd h (by simp [child?])

/-- Exchanging a child and writing the references as maps can be done in either order. -/
theorem structured_setChild (h : v.child? token = some c) (new : Value) :
    (setChild token new v).structured = setChild token new.structured v.structured := by
  cases v with
  | list items =>
      obtain ⟨i, hi, -⟩ := Option.bind_eq_some_iff.mp h
      simp only [setChild, hi, structured_list, List.map_set]
  | map fields =>
      rw [structured_map, setChild, setChild, structured_map, Entries.insert_map]
  | _ => exact absurd h (by simp [child?])

theorem WellFormed.structured (h : v.WellFormed) : v.structured.WellFormed := by
  induction v using Value.induction with
  | text raw =>
      rw [Value.structured]
      split
      · simp [reference]
      · exact h
  | list items ih =>
      rw [wellFormed_list_iff] at h
      rw [structured_list, wellFormed_list_iff, List.forall_mem_map]
      exact fun v hv => ih v hv (h v hv)
  | map fields ih =>
      rw [wellFormed_map_iff] at h
      rw [structured_map, wellFormed_map_iff, Entries.Distinct, Entries.keys_map,
        List.forall_mem_map]
      exact ⟨h.1, fun e he => ih e he (h.2 e he)⟩
  | _ => exact h

end Value

/-! ### Documents with references as texts -/

/-- The only directives of a document are texts: no map has a marker, and no text names a file.  A
list is no longer than a machine word counts, which goes for every list in memory. -/
inductive TextsOnly (markers : List String) : Value → Prop
  | null : TextsOnly markers .null
  | bool (b : Bool) : TextsOnly markers (.bool b)
  | number (n : Number) : TextsOnly markers (.number n)
  | text {raw : String} (hfile : Pointer.isFileText raw = false) : TextsOnly markers (.text raw)
  | list {items : List Value} (hlength : items.length ≤ 0x10000000000000000)
      (h : ∀ v ∈ items, TextsOnly markers v) : TextsOnly markers (.list items)
  | map {fields : Fields} (hplain : isDirective markers (.map fields) = false)
      (h : ∀ e ∈ fields, TextsOnly markers e.2) : TextsOnly markers (.map fields)

namespace TextsOnly

variable {markers : List String} {v w c : Value} {token : String} {p : Path}

theorem plain (h : TextsOnly markers v) : isDirective markers v = false := by
  cases h with
  | map hplain _ => exact hplain
  | _ => rfl

/-- The structured document is no reference itself, unless the document is a text. -/
theorem plain_structured (h : TextsOnly markers v) (hcontainer : v.isContainer = true) :
    isDirective markers v.structured = false := by
  cases h with
  | list => rw [Value.structured_list]; rfl
  | @map fields hplain =>
      rw [isDirective_of_head_eq (Value.head_structured_map fields), hplain]
  | _ => exact absurd hcontainer (by simp [Value.isContainer])

/-- What has no directive text in any child has none. -/
theorem directiveTexts_eq_nil (h : TextsOnly markers v) (hwell : v.WellFormed)
    (hcontainer : v.isContainer = true)
    (hchildren : ∀ token c, v.child? token = some c → c.directiveTexts = []) :
    v.directiveTexts = [] := by
  refine List.eq_nil_iff_forall_not_mem.mpr fun raw hraw => ?_
  cases h with
  | @list items hlength =>
      obtain ⟨c, hc, hraw⟩ := Sources.mem_directiveTexts_list.mp hraw
      obtain ⟨i, hi⟩ := List.getElem?_of_mem hc
      have hlt : i < 0x10000000000000000 :=
        Nat.lt_of_lt_of_le (List.getElem?_eq_some_iff.mp hi).1 hlength
      have hchild : (Value.list items).child? (toString i) = some c := by
        rw [Value.child?, index?_eq_some_iff.mpr ⟨rfl, hlt⟩]
        exact hi
      exact absurd (hchildren _ c hchild ▸ hraw) List.not_mem_nil
  | map =>
      obtain ⟨e, he, hraw⟩ := Sources.mem_directiveTexts_map.mp hraw
      have hchild := (Value.wellFormed_map_iff.mp hwell).1.find?_of_mem he
      exact absurd (hchildren _ e.2 hchild ▸ hraw) List.not_mem_nil
  | _ => exact absurd hcontainer (by simp [Value.isContainer])

theorem of_child? (h : TextsOnly markers v) (hc : v.child? token = some c) :
    TextsOnly markers c := by
  cases h with
  | list _ h =>
      obtain ⟨i, -, hi⟩ := Option.bind_eq_some_iff.mp hc
      exact h c (List.mem_of_getElem? hi)
  | map _ h => exact h _ (Entries.mem_of_find? hc)
  | _ => exact absurd hc (by simp [Value.child?])

theorem of_node? (h : TextsOnly markers v) (hn : v.node? p = some w) : TextsOnly markers w := by
  induction p generalizing v with
  | nil => exact Option.some.inj ((Value.node?_nil v).symm.trans hn) ▸ h
  | cons token p ih =>
      rw [Value.node?_cons] at hn
      obtain ⟨c, hc, hn⟩ := Option.bind_eq_some_iff.mp hn
      exact ih (h.of_child? hc) hn

theorem setChild (h : TextsOnly markers v) (hc : v.child? token = some c) {new : Value}
    (hnew : TextsOnly markers new) : TextsOnly markers (Value.setChild token new v) := by
  cases h with
  | list hlength h =>
      obtain ⟨i, hi, -⟩ := Option.bind_eq_some_iff.mp hc
      simp only [Value.setChild, hi]
      refine .list (by rwa [List.length_set]) fun w hw => ?_
      rcases List.mem_or_eq_of_mem_set hw with hw | rfl
      · exact h w hw
      · exact hnew
  | @map fields hplain h =>
      refine .map ?_ fun e he => ?_
      · rw [← hplain]
        exact isDirective_of_head_eq (Value.head_setChild hc new)
      · rcases Entries.mem_insert he with rfl | he
        · exact hnew
        · exact h e he
  | _ => exact absurd hc (by simp [Value.child?])

/-- No path to a node leads through a marker. -/
theorem marker_not_mem (hmarker : Directive.referenceMarker ∈ markers) (h : TextsOnly markers v)
    (hn : (v.node? p).isSome = true) : Directive.referenceMarker ∉ p := by
  induction p using List.reverseRecOn with
  | nil => exact List.not_mem_nil
  | append_singleton p token ih =>
      rw [← Path.child, Value.node?_concat] at hn
      obtain ⟨c, hc⟩ := Option.isSome_iff_exists.mp hn
      obtain ⟨above, habove, hc⟩ := Option.bind_eq_some_iff.mp hc
      exact not_mem_child hmarker (ih (Option.isSome_of_eq_some habove))
        (h.of_node? habove).plain (Option.isSome_of_eq_some hc)

/-- A list in such a document has nothing beyond what tokens name. -/
theorem head_list {items : List Value} (hlength : items.length ≤ 0x10000000000000000) :
    (Value.list items).head = .list items.length [] := by
  rw [Value.head, List.drop_eq_nil_of_le hlength]

/-- **The structured document has references only, if no target leads into one.** -/
theorem refsOnly (h : TextsOnly markers v)
    (htargets : ∀ raw ∈ v.directiveTexts, ∀ payload, Pointer.referenceTarget? raw = some payload →
      ∀ target, Directive.target [(Directive.referenceMarker, .text payload)]
        Directive.referenceMarker = .ok target → Directive.referenceMarker ∉ target) :
    RefsOnly markers v.structured := by
  induction h with
  | null | bool | number => exact .scalar rfl
  | @text raw _ =>
      cases hpayload : Pointer.referenceTarget? raw with
      | none =>
          rw [Value.structured, hpayload]
          exact .scalar rfl
      | some payload =>
          have hreference : Pointer.isReferenceText raw = true := by
            rw [← Pointer.referenceTarget?_isSome, hpayload, Option.isSome_some]
          have hmem : raw ∈ (Value.text raw).directiveTexts := by
            rw [Sources.directiveTexts_text (by rw [isDirectiveText, hreference, Bool.true_or])]
            exact List.mem_singleton_self raw
          rw [Value.structured_text hpayload]
          refine .node (fun _ => ⟨payload, rfl, htargets raw hmem payload hpayload⟩) fun e he => ?_
          obtain rfl := List.mem_singleton.mp he
          exact .scalar rfl
  | @list items _ _ ih =>
      rw [Value.structured_list]
      refine .node (fun hd => absurd hd (by simp [isDirective])) fun e he => ?_
      obtain ⟨j, -, hj⟩ := Value.mem_numbered_iff.mp he
      obtain ⟨w, hw, heq⟩ := List.mem_map.mp (List.mem_of_getElem? hj)
      rw [← heq]
      refine ih w hw fun raw hraw => htargets raw ?_
      exact Sources.mem_directiveTexts_list.mpr ⟨w, hw, hraw⟩
  | @map fields hplain _ ih =>
      rw [Value.structured_map]
      refine .node (fun hd => ?_) fun e he => ?_
      · rw [← Value.structured_map, isDirective_of_head_eq (Value.head_structured_map fields),
          hplain] at hd
        exact absurd hd Bool.false_ne_true
      · obtain ⟨f, hf, rfl⟩ := List.mem_map.mp he
        refine ih f hf fun raw hraw => htargets raw ?_
        exact Sources.mem_directiveTexts_map.mpr ⟨f, hf, hraw⟩

end TextsOnly

end Docweave
