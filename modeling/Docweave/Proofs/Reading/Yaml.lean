import Docweave.Proofs.Reading.Json
import Docweave.Yaml.Reader
import Mathlib.Tactic.Common

/-!
What reading YAML text gives.

Whatever the text is, no map that is read has a key twice (`wellFormed_of_read`).  An alias stands
for a node that was read before, so the invariant of reading is that every node with an anchor is
as it should be (`Cursor.Anchored`).  What reads characters only keeps it because it moves the
cursor and nothing else.  What reads nodes keeps it by induction on the fuel, for all functions
that call each other at once (`flowReads`, `blockReads`).
-/

namespace Docweave

open Std.Do

set_option mvcgen.warning false

namespace Yaml

/-- If the node can be read, no map of its value has a key twice. -/
def Node.WellFormed (node : Node) : Prop :=
  ∀ v, node.value = .ok v → v.WellFormed

/-- The nodes with anchors are as they should be. -/
def Cursor.Anchored (cursor : Cursor) : Prop :=
  ∀ e ∈ cursor.anchors, e.2.WellFormed

@[simp] theorem Cursor.anchored_next (cursor : Cursor) :
    cursor.next.Anchored ↔ cursor.Anchored := by
  unfold Cursor.next
  split <;> rfl

theorem Cursor.Anchored.lookup {anchors : List (String × Node)} {name : String} {node : Node}
    (h : ∀ e ∈ anchors, e.2.WellFormed) (hlookup : anchors.lookup name = some node) :
    node.WellFormed := by
  induction anchors with
  | nil => exact absurd hlookup (by simp)
  | cons e anchors ih =>
      obtain ⟨he, hrest⟩ := List.forall_mem_cons.mp h
      rw [List.lookup_cons] at hlookup
      split at hlookup
      · exact Option.some.inj hlookup ▸ he
      · exact ih hrest hlookup

/-- The shape of what can be said about a reader: it has a cursor and may find a flaw. -/
abbrev Shape : PostShape := .arg Cursor (.except Flaw .pure)

/-- Before reading, the nodes with anchors are as they should be. -/
abbrev anchoring : Assertion Shape :=
  fun cursor => ⌜cursor.Anchored⌝

/-- If it ends without a flaw, reading gives something with a property, and the nodes with anchors
are as they should be. -/
abbrev yields {α : Type} (P : α → Prop) : PostCond α Shape :=
  ⇓? a cursor => ⌜P a ∧ cursor.Anchored⌝

/-- If it ends without a flaw, the nodes with anchors are as they should be. -/
abbrev moves {α : Type} : PostCond α Shape :=
  ⇓? _ cursor => ⌜cursor.Anchored⌝

@[spec high] theorem throw_spec {α : Type} (flaw : Flaw) (Q : PostCond α Shape) :
    ⦃fun _ => Q.2.1 flaw⦄ (throw flaw : Scan α) ⦃Q⦄ :=
  Triple.iff.mpr fun _ h => h

/-! ### What reads characters -/

@[spec] theorem skipChars_moves (n : Nat) : ⦃anchoring⦄ skipChars n ⦃moves⦄ := by
  induction n with
  | zero => mvcgen [skipChars]
  | succ n ih =>
      mvcgen [skipChars, ih]
      simp_all +zetaDelta

@[spec] theorem skipBlanks_moves (block : Bool) (fuel : Nat) (keyAllowed comment : Bool) :
    ⦃anchoring⦄ skipBlanks block fuel keyAllowed comment ⦃moves⦄ := by
  induction fuel generalizing keyAllowed comment with
  | zero => mvcgen [skipBlanks]
  | succ fuel ih => mvcgen [skipBlanks, ih] <;> simp_all

@[spec] theorem skip_moves (block keyAllowed : Bool) :
    ⦃anchoring⦄ skip block keyAllowed ⦃moves⦄ := by
  mvcgen [skip]

@[spec] theorem skipSpaces_moves (fuel : Nat) : ⦃anchoring⦄ skipSpaces fuel ⦃moves⦄ := by
  induction fuel with
  | zero => mvcgen [skipSpaces]
  | succ fuel ih =>
      mvcgen [skipSpaces, ih]
      simp_all

@[spec] theorem plainFrom_moves (block : Bool) (indent : Int) (fuel : Nat)
    (read spaces : List Char) (breaks : Nat) :
    ⦃anchoring⦄ plainFrom block indent fuel read spaces breaks ⦃moves⦄ := by
  induction fuel generalizing read spaces breaks with
  | zero => mvcgen [plainFrom]
  | succ fuel ih => mvcgen [plainFrom, ih] <;> simp_all

@[spec] theorem plainText_moves (block : Bool) (indent : Int) :
    ⦃anchoring⦄ plainText block indent ⦃moves⦄ := by
  mvcgen [plainText]

@[spec] theorem codeEscape_moves (digits : Nat) : ⦃anchoring⦄ codeEscape digits ⦃moves⦄ := by
  mvcgen [codeEscape]

@[spec] theorem escaped_moves : ⦃anchoring⦄ escaped ⦃moves⦄ := by
  mvcgen [escaped] <;> simp_all

@[spec] theorem quotedFrom_moves (double : Bool) (fuel : Nat) (read spaces : List Char)
    (breaks : Nat) (joined : Bool) :
    ⦃anchoring⦄ quotedFrom double fuel read spaces breaks joined ⦃moves⦄ := by
  induction fuel generalizing read spaces breaks joined with
  | zero => mvcgen [quotedFrom]
  | succ fuel ih => mvcgen [quotedFrom, ih] <;> simp_all +zetaDelta

@[spec] theorem quotedText_moves (double : Bool) : ⦃anchoring⦄ quotedText double ⦃moves⦄ := by
  mvcgen [quotedText]
  simp_all +zetaDelta

@[spec] theorem blockHeader_moves (fuel : Nat) (chomp : Option Chomp) (indent : Option Nat) :
    ⦃anchoring⦄ blockHeader fuel chomp indent ⦃moves⦄ := by
  induction fuel generalizing chomp indent with
  | zero => mvcgen [blockHeader]
  | succ fuel ih => mvcgen [blockHeader, ih] <;> simp_all

@[spec] theorem skipLine_moves (fuel : Nat) (comment : Bool) :
    ⦃anchoring⦄ skipLine fuel comment ⦃moves⦄ := by
  induction fuel generalizing comment with
  | zero => mvcgen [skipLine]
  | succ fuel ih => mvcgen [skipLine, ih] <;> simp_all

@[spec] theorem blockBreaks_moves (indent : Option Nat) (fuel breaks widest : Nat) :
    ⦃anchoring⦄ blockBreaks indent fuel breaks widest ⦃moves⦄ := by
  induction fuel generalizing breaks widest with
  | zero => mvcgen [blockBreaks]
  | succ fuel ih => mvcgen [blockBreaks, ih] <;> simp_all

@[spec] theorem blockLines_moves (literal : Bool) (chomp : Chomp) (indent fuel : Nat)
    (read : List Char) (ended : Bool) (breaks : Nat) (wasBlank : Bool) :
    ⦃anchoring⦄ blockLines literal chomp indent fuel read ended breaks wasBlank ⦃moves⦄ := by
  induction fuel generalizing read ended breaks wasBlank with
  | zero => mvcgen [blockLines]
  | succ fuel ih =>
      mvcgen [blockLines, ih]
      simp_all +zetaDelta

@[spec] theorem blockText_moves (parent : Int) : ⦃anchoring⦄ blockText parent ⦃moves⦄ := by
  mvcgen [blockText]
  simp_all

@[spec] theorem anchorName_moves : ⦃anchoring⦄ anchorName ⦃moves⦄ := by
  unfold anchorName
  -- As a list of characters the text would be computed at every step.
  generalize "?:,]\x7d%@`".toList = marks
  mvcgen
  simp_all +zetaDelta

@[spec] theorem tagName_moves (block : Bool) : ⦃anchoring⦄ tagName block ⦃moves⦄ := by
  mvcgen [tagName]

@[spec] theorem properties_moves (block : Bool) (fuel : Nat) (keyAllowed : Bool)
    (read : Properties) : ⦃anchoring⦄ properties block fuel keyAllowed read ⦃moves⦄ := by
  induction fuel generalizing keyAllowed read with
  | zero => mvcgen [properties]
  | succ fuel ih => mvcgen [properties, ih]

@[spec] theorem flowColon_moves (line : Nat) : ⦃anchoring⦄ flowColon line ⦃moves⦄ := by
  mvcgen [flowColon]
  simp_all

@[spec] theorem blockColon_moves (line : Nat) : ⦃anchoring⦄ blockColon line ⦃moves⦄ := by
  mvcgen [blockColon]
  simp_all

@[spec] theorem keyOf_moves (node : Node) : ⦃anchoring⦄ keyOf node ⦃moves⦄ := by
  mvcgen [keyOf]

@[spec] theorem documentStart_moves (fuel : Nat) (directed : Bool) :
    ⦃anchoring⦄ documentStart fuel directed ⦃moves⦄ := by
  induction fuel generalizing directed with
  | zero => mvcgen [documentStart]
  | succ fuel ih => mvcgen [documentStart, ih]

@[spec] theorem documentEnd_moves (fuel : Nat) : ⦃anchoring⦄ documentEnd fuel ⦃moves⦄ := by
  induction fuel with
  | zero => mvcgen [documentEnd]
  | succ fuel ih => mvcgen [documentEnd, ih]

/-! ### Nodes -/

theorem wellFormed_ofFloat (d : Option Double) : (ofFloat d).WellFormed := by
  cases d <;> simp [ofFloat]

theorem wellFormed_of_ofInteger? {i : Int} {v : Value} (h : ofInteger? i = some (.ok v)) :
    v.WellFormed := by
  simp only [ofInteger?] at h
  split at h
  · obtain rfl := Except.ok.inj (Option.some.inj h)
    simp [Value.int]
  · split at h <;> exact absurd h (by simp)

theorem wellFormed_of_resolve {s : String} {v : Value} (h : resolve s = .ok v) : v.WellFormed := by
  simp only [resolve] at h
  split at h
  · exact Except.ok.inj h ▸ Value.wellFormed_null
  split at h
  · exact Except.ok.inj h ▸ Value.wellFormed_bool _
  split at h
  · rename_i result hinteger
    obtain ⟨i, -, hi⟩ := Option.bind_eq_some_iff.mp hinteger
    exact wellFormed_of_ofInteger? (h ▸ hi)
  split at h
  · exact Except.ok.inj h ▸ Value.wellFormed_text _
  split at h
  · exact Except.ok.inj h ▸ wellFormed_ofFloat _
  · exact Except.ok.inj h ▸ Value.wellFormed_text _

theorem wellFormed_of_resolveTagged {tag : Option Tag} {plain : Bool} {s : String} {v : Value}
    (h : resolveTagged tag plain s = .ok v) : v.WellFormed := by
  simp only [resolveTagged] at h
  split at h
  · split at h
    · exact wellFormed_of_resolve h
    · exact Except.ok.inj h ▸ Value.wellFormed_text _
  · split at h
    · exact Except.ok.inj h ▸ Value.wellFormed_bool _
    · exact absurd h (by simp)
  · split at h
    · rename_i result hinteger
      obtain ⟨i, -, hi⟩ := Option.bind_eq_some_iff.mp hinteger
      exact wellFormed_of_ofInteger? (h ▸ hi)
    · exact absurd h (by simp)
  · split at h
    · exact Except.ok.inj h ▸ wellFormed_ofFloat _
    · exact absurd h (by simp)
  · split at h
    · exact Except.ok.inj h ▸ Value.wellFormed_null
    · exact absurd h (by simp)
  · exact Except.ok.inj h ▸ Value.wellFormed_text _
  · exact absurd h (by simp)

theorem anchored_yields (props : Properties) {node : Node} (h : node.WellFormed) :
    ⦃anchoring⦄ anchored props node ⦃yields Node.WellFormed⦄ := by
  mvcgen [anchored]
  rename_i name hname cursor hcursor after
  exact ⟨h, List.forall_mem_cons.mpr ⟨h, hcursor⟩⟩

@[spec] theorem scalarNode_yields (props : Properties) (plain : Bool) (s : String) :
    ⦃anchoring⦄ scalarNode props plain s ⦃yields Node.WellFormed⦄ :=
  anchored_yields props fun _ h => wellFormed_of_resolveTagged h

@[spec] theorem collectionNode_yields (props : Properties) (v : Value) (hv : v.WellFormed) :
    ⦃anchoring⦄ collectionNode props v ⦃yields Node.WellFormed⦄ := by
  refine anchored_yields props fun w h => ?_
  simp only at h
  split at h
  · exact absurd h (by simp)
  · exact Except.ok.inj h ▸ hv

@[spec] theorem aliasNode_yields (props : Properties) :
    ⦃anchoring⦄ aliasNode props ⦃yields Node.WellFormed⦄ := by
  mvcgen [aliasNode]
  rename_i hcursor node hlookup
  exact ⟨Cursor.Anchored.lookup hcursor hlookup, hcursor⟩

@[spec] theorem valueOf_yields (node : Node) (h : node.WellFormed) :
    ⦃anchoring⦄ valueOf node ⦃yields Value.WellFormed⦄ := by
  mvcgen [valueOf]
  rename_i v hv cursor hcursor
  exact ⟨h v hv, hcursor⟩

/-! ### Flow collections -/

/-- What readers of flow collections give with so much fuel. -/
structure FlowReads (fuel : Nat) : Prop where
  content : ∀ block indent props room,
    ⦃anchoring⦄ flowContent block indent props fuel room ⦃yields Node.WellFormed⦄
  node : ∀ room, ⦃anchoring⦄ flowNode fuel room ⦃yields Node.WellFormed⦄
  items : ∀ room read, (Value.list read).WellFormed →
    ⦃anchoring⦄ flowItems fuel room read ⦃yields fun items => (Value.list items).WellFormed⦄
  fields : ∀ room read, (Value.map read).WellFormed →
    ⦃anchoring⦄ flowFields fuel room read ⦃yields fun fields => (Value.map fields).WellFormed⦄
  value : ∀ room, ⦃anchoring⦄ flowValue fuel room ⦃yields Value.WellFormed⦄

namespace FlowReads

variable {fuel : Nat}

theorem content_succ (h : FlowReads fuel) (block : Bool) (indent : Int) (props : Properties)
    (room : Nat) :
    ⦃anchoring⦄ flowContent block indent props (fuel + 1) room ⦃yields Node.WellFormed⦄ := by
  have hitems := h.items
  have hfields := h.fields
  mvcgen [flowContent, hitems, hfields]
  all_goals simp_all +zetaDelta

theorem node_succ (h : FlowReads fuel) (room : Nat) :
    ⦃anchoring⦄ flowNode (fuel + 1) room ⦃yields Node.WellFormed⦄ := by
  have hcontent := h.content
  mvcgen [flowNode, hcontent]

theorem items_succ (h : FlowReads fuel) (room : Nat) (read : List Value)
    (hread : (Value.list read).WellFormed) :
    ⦃anchoring⦄ flowItems (fuel + 1) room read
    ⦃yields fun items => (Value.list items).WellFormed⦄ := by
  have hnode := h.node
  have hvalue := h.value
  have hitems := h.items
  mvcgen [flowItems, hnode, hvalue, hitems]
  all_goals simp_all +zetaDelta

theorem fields_succ (h : FlowReads fuel) (room : Nat) (read : Fields)
    (hread : (Value.map read).WellFormed) :
    ⦃anchoring⦄ flowFields (fuel + 1) room read
    ⦃yields fun fields => (Value.map fields).WellFormed⦄ := by
  have hnode := h.node
  have hvalue := h.value
  have hfields := h.fields
  mvcgen [flowFields, hnode, hvalue, hfields]
  all_goals simp_all +zetaDelta [Value.WellFormed.insert]

theorem value_succ (h : FlowReads fuel) (room : Nat) :
    ⦃anchoring⦄ flowValue (fuel + 1) room ⦃yields Value.WellFormed⦄ := by
  have hnode := h.node
  mvcgen [flowValue, hnode]
  all_goals simp_all +zetaDelta

end FlowReads

theorem flowReads (fuel : Nat) : FlowReads fuel := by
  induction fuel with
  | zero =>
      refine ⟨fun _ _ _ _ => ?_, fun _ => ?_, fun _ _ _ => ?_, fun _ _ _ => ?_, fun _ => ?_⟩
      · mvcgen [flowContent]
      · mvcgen [flowNode]
      · mvcgen [flowItems]
      · mvcgen [flowFields]
      · mvcgen [flowValue]
  | succ fuel ih =>
      exact ⟨ih.content_succ, ih.node_succ, ih.items_succ, ih.fields_succ, ih.value_succ⟩

@[spec] theorem flowContent_yields (block : Bool) (indent : Int) (props : Properties)
    (fuel room : Nat) :
    ⦃anchoring⦄ flowContent block indent props fuel room ⦃yields Node.WellFormed⦄ :=
  (flowReads fuel).content block indent props room

/-! ### Block collections -/

/-- What readers of block collections give with so much fuel. -/
structure BlockReads (fuel : Nat) : Prop where
  node : ∀ room indent keyAllowed,
    ⦃anchoring⦄ blockNode fuel room indent keyAllowed ⦃yields Node.WellFormed⦄
  value : ∀ room column, ⦃anchoring⦄ blockValue fuel room column ⦃yields Value.WellFormed⦄
  fields : ∀ room column read, (Value.map read).WellFormed →
    ⦃anchoring⦄ blockFields fuel room column read
    ⦃yields fun fields => (Value.map fields).WellFormed⦄
  items : ∀ room column read, (Value.list read).WellFormed →
    ⦃anchoring⦄ blockItems fuel room column read
    ⦃yields fun items => (Value.list items).WellFormed⦄

namespace BlockReads

variable {fuel : Nat}

theorem node_succ (h : BlockReads fuel) (room : Nat) (indent : Int) (keyAllowed : Bool) :
    ⦃anchoring⦄ blockNode (fuel + 1) room indent keyAllowed ⦃yields Node.WellFormed⦄ := by
  have hvalue := h.value
  have hfields := h.fields
  have hitems := h.items
  mvcgen [blockNode, hvalue, hfields, hitems]
  all_goals simp_all +zetaDelta

theorem value_succ (h : BlockReads fuel) (room column : Nat) :
    ⦃anchoring⦄ blockValue (fuel + 1) room column ⦃yields Value.WellFormed⦄ := by
  have hnode := h.node
  have hitems := h.items
  mvcgen [blockValue, hnode, hitems]
  all_goals simp_all +zetaDelta

theorem fields_succ (h : BlockReads fuel) (room column : Nat) (read : Fields)
    (hread : (Value.map read).WellFormed) :
    ⦃anchoring⦄ blockFields (fuel + 1) room column read
    ⦃yields fun fields => (Value.map fields).WellFormed⦄ := by
  have hvalue := h.value
  have hfields := h.fields
  mvcgen [blockFields, hvalue, hfields]
  all_goals simp_all +zetaDelta [Value.WellFormed.insert]

theorem items_succ (h : BlockReads fuel) (room column : Nat) (read : List Value)
    (hread : (Value.list read).WellFormed) :
    ⦃anchoring⦄ blockItems (fuel + 1) room column read
    ⦃yields fun items => (Value.list items).WellFormed⦄ := by
  have hnode := h.node
  have hitems := h.items
  mvcgen [blockItems, hnode, hitems]
  all_goals simp_all +zetaDelta

end BlockReads

theorem blockReads (fuel : Nat) : BlockReads fuel := by
  induction fuel with
  | zero =>
      refine ⟨fun _ _ _ => ?_, fun _ _ => ?_, fun _ _ _ _ => ?_, fun _ _ _ _ => ?_⟩
      · mvcgen [blockNode]
      · mvcgen [blockValue]
      · mvcgen [blockFields]
      · mvcgen [blockItems]
  | succ fuel ih => exact ⟨ih.node_succ, ih.value_succ, ih.fields_succ, ih.items_succ⟩

theorem document_yields (fuel : Nat) :
    ⦃anchoring⦄ document fuel ⦃yields Value.WellFormed⦄ := by
  have hnode := (blockReads fuel).node
  mvcgen [document, hnode]
  all_goals simp_all +zetaDelta

/-- What is said of a reader holds of whatever it gives. -/
theorem of_yields {α : Type} {P : α → Prop} {scan : Scan α} (h : ⦃anchoring⦄ scan ⦃yields P⦄)
    {cursor cursor' : Cursor} {a : α} (hcursor : cursor.Anchored)
    (hrun : scan.run cursor = .ok (a, cursor')) : P a := by
  have hwp : (wp⟦scan.run cursor⟧ (⇓? result => ⌜P result.1 ∧ result.2.Anchored⌝)).down :=
    Triple.iff.mp h cursor hcursor
  rw [hrun] at hwp
  exact hwp.1

/-- **No map of a value read from YAML text has a key twice.** -/
theorem wellFormed_of_read {text : String} {v : Value} (h : read text = .ok v) :
    v.WellFormed := by
  unfold read at h
  extract_lets cs unified at h
  split at h
  · cases hrun : (document _).run _ with
    | error flaw => rw [hrun] at h; exact absurd h (by simp [Except.map])
    | ok result =>
        rw [hrun] at h
        obtain rfl := Except.ok.inj h
        refine of_yields (document_yields _) ?_ hrun
        exact fun e he => absurd he List.not_mem_nil
  · exact absurd h (by simp)

end Yaml

end Docweave
