import Docweave.Proofs.Composing.BottomUp
import Docweave.Proofs.Composing.Recording
import Docweave.Proofs.References.Composing

/-!
How often generators are called.

In a document with references and calls of generators, a reference that leads to a call waits until
the call has become a value, so it never copies the call.  But it copies a map or a list that leads
to calls further below, and these calls are made again where the copy stands.  What is put in the
place of a directive has no directive above what it brings, and a directive is handed over when none
is left below it, so at every node the calls that were made there and the one that still stands
there are the one that stood there in the beginning and those that copies brought
(`calls_exchanged`).
-/

namespace Docweave

namespace Value

/-- Whether a node is a map with the marker of references. -/
def isReferring : Value → Bool
  | .map fields => Entries.contains fields Directive.referenceMarker
  | _ => false

/-- Whether a node is a map that goes to the handler of made values and shares its value with no
other. -/
def isCall : Value → Bool
  | .map fields =>
    Entries.contains fields Directive.generatorMarker
      && !(List.any [Directive.referenceMarker, Directive.overlayMarker, Directive.fileMarker,
          Directive.includeMarker] (Entries.contains fields ·))
      && (Directive.option? fields "id").isNone
  | _ => false

variable {v w D : Value} {p q path : Path}

theorem contains_of_keys_eq {fields fields' : Fields}
    (h : Entries.keys fields = Entries.keys fields') (key : String) :
    Entries.contains fields key = Entries.contains fields' key := by
  rw [Bool.eq_iff_iff, Entries.contains, Entries.contains, Entries.find?_isSome_iff,
    Entries.find?_isSome_iff, h]

theorem isReferring_of_head_eq (h : v.head = w.head) : v.isReferring = w.isReferring := by
  cases w with
  | map fields =>
      obtain ⟨fields', rfl, hkeys⟩ := map_of_head_eq h
      exact contains_of_keys_eq hkeys _
  | list items =>
      obtain ⟨items', rfl, -⟩ := list_of_head_eq h
      rfl
  | _ => rw [eq_of_head_eq_of_scalar h rfl]

theorem isCall_of_head_eq (h : v.head = w.head) : v.isCall = w.isCall := by
  cases w with
  | map fields =>
      obtain ⟨fields', rfl, hkeys⟩ := map_of_head_eq h
      have hid : ∀ fields : Fields, (Directive.option? fields "id").isNone =
          !(Entries.contains fields ("$" ++ "id") || Entries.contains fields ("!" ++ "id")) := by
        intro fields
        unfold Directive.option? Entries.contains
        cases Entries.find? fields ("$" ++ "id") <;>
          cases Entries.find? fields ("!" ++ "id") <;> rfl
      simp only [isCall, hid, contains_of_keys_eq hkeys]
  | list items =>
      obtain ⟨items', rfl, -⟩ := list_of_head_eq h
      rfl
  | _ => rw [eq_of_head_eq_of_scalar h rfl]

theorem isCall_eq_false_of_isReferring (h : v.isReferring = true) : v.isCall = false := by
  cases v with
  | map fields =>
      have hcontains : Entries.contains fields Directive.referenceMarker = true := h
      simp [isCall, hcontains]
  | _ => rfl

theorem isDirective_of_isCall {markers : List String}
    (hmarker : Directive.generatorMarker ∈ markers) (h : v.isCall = true) :
    isDirective markers v = true := by
  cases v with
  | map fields =>
      simp only [isCall, Bool.and_eq_true] at h
      exact isDirective_map_iff.mpr ⟨_, hmarker, h.1.1⟩
  | _ => exact absurd h (by simp [isCall])

/-- The calls that stand at a path: one or none. -/
def standing (D : Value) (path : Path) : Nat :=
  if (D.node? path).any isCall then 1 else 0

@[simp]
theorem standing_text (t : String) (path : Path) : (text t).standing path = 0 := by
  cases path <;> rfl

@[simp]
theorem standing_map_nil (token : String) (path : Path) :
    (map []).standing (token :: path) = 0 :=
  rfl

/-- What stands below a map stands in one of its entries. -/
@[simp]
theorem standing_map_cons (key : String) (v : Value) (fields : Fields) (token : String)
    (path : Path) :
    (map ((key, v) :: fields)).standing (token :: path) =
      if key = token then v.standing path else (map fields).standing (token :: path) := by
  simp only [standing, node?_cons, child?, Entries.find?_cons]
  split <;> rfl

@[simp]
theorem standing_reference (raw : String) (path : Path) : (reference raw).standing path = 0 := by
  cases path with
  | nil => rfl
  | cons token path => simp [reference]

/-- What stands beside a node stands there whatever is put in its place. -/
theorem standing_put_of_not_prefix (hbeside : ¬ path <+: q) (new : Value) :
    (D.put path new).standing q = D.standing q := by
  have hany : ((D.put path new).node? q).any isCall = (D.node? q).any isCall := by
    cases hn : D.node? q with
    | some w =>
        obtain ⟨w', hw', hhead⟩ := head_node?_put hbeside hn new
        rw [hw', Option.any_some, Option.any_some, isCall_of_head_eq hhead]
    | none =>
        cases hn' : (D.put path new).node? q with
        | none => rfl
        | some w' =>
            obtain ⟨w, hw, -⟩ := head_node?_of_put hbeside hn'
            exact absurd (hn.symm.trans hw) (by simp)
  rw [standing, standing, hany]

end Value

/-- The directives of a document are references, and calls that share their values with no
others. -/
def CallsOnly (markers : List String) (D : Value) : Prop :=
  ∀ path v, D.node? path = some v → isDirective markers v = true →
    v.isReferring = true ∨ v.isCall = true

namespace CallsOnly

variable {markers : List String} {D v w : Value} {path : Path}

theorem of_scalar (h : v.isContainer = false) : CallsOnly markers v := by
  intro r w hr hd
  have hcovered : Composing.Covered markers (fun _ => False) (fun _ => False) [] v := .scalar h
  obtain ⟨_, hnothing, -⟩ := hcovered.of_directive hr hd
  exact absurd hnothing not_false

/-- The node itself and its entries are looked at one after the other. -/
theorem of_entries (h : isDirective markers v = true → v.isReferring = true ∨ v.isCall = true)
    (hentries : ∀ e ∈ v.entries, CallsOnly markers e.2) : CallsOnly markers v := by
  intro r w hr hd
  cases r with
  | nil =>
      obtain rfl := Option.some.inj ((Value.node?_nil v).symm.trans hr)
      exact h hd
  | cons token r =>
      rw [Value.node?_cons] at hr
      obtain ⟨c, hc, hr⟩ := Option.bind_eq_some_iff.mp hr
      exact hentries _ (Value.mem_entries_of_child? hc) r w hr hd

theorem of_node? (h : CallsOnly markers D) (hn : D.node? path = some v) : CallsOnly markers v := by
  intro r w hr
  exact h (path ++ r) w (by rw [Value.node?_append, hn, Option.bind_some, hr])

theorem put (h : CallsOnly markers D) (hn : (D.node? path).isSome = true)
    (hv : CallsOnly markers v) : CallsOnly markers (D.put path v) := by
  intro q w hw hd
  by_cases hfront : path <+: q
  · obtain ⟨r, rfl⟩ := hfront
    rw [Value.node?_put_append hn] at hw
    exact hv r w hw hd
  · obtain ⟨w', hw', hhead⟩ := Value.head_node?_of_put hfront hw
    rw [Value.isReferring_of_head_eq hhead, Value.isCall_of_head_eq hhead]
    exact h q w' hw' ((isDirective_of_head_eq hhead).symm.trans hd)

end CallsOnly

/-- Where no directive is left no call stands. -/
theorem Value.standing_eq_zero {markers : List String} {D : Value} {path : Path}
    (hmarker : Directive.generatorMarker ∈ markers)
    (hplain : ∀ w, D.node? path = some w → isDirective markers w = false) :
    D.standing path = 0 := by
  cases hw : D.node? path with
  | none => rw [standing, hw]; rfl
  | some w =>
      have hcall : w.isCall = false := by
        by_contra hcall
        have hd := isDirective_of_isCall hmarker (Bool.of_not_eq_false hcall)
        rw [hplain w hw] at hd
        exact absurd hd (by simp)
      rw [standing, hw, Option.any_some, hcall]
      rfl

/-! ### Counting answers -/

namespace Answer

/-- Whether what was answered is a call. -/
def isCall (answer : Answer) : Bool :=
  (Value.map answer.directive).isCall

/-- Whether the value that took the place of the directive has a call at a path. -/
def brings (answer : Answer) (path : Path) : Bool :=
  match answer.outcome with
  | .success v =>
    answer.path.isPrefixOf path && (v.node? (path.drop answer.path.length)).any Value.isCall
  | _ => false

theorem brings_below (path r : Path) (directive : Fields) (v : Value) :
    (⟨path, directive, .success v⟩ : Answer).brings (path ++ r) =
      (v.node? r).any Value.isCall := by
  have hfront : path.isPrefixOf (path ++ r) = true :=
    List.isPrefixOf_iff_prefix.mpr (List.prefix_append path r)
  simp only [brings, hfront, Bool.true_and, List.drop_left]

theorem brings_beside {path q : Path} (hbeside : ¬ path <+: q) (directive : Fields) (v : Value) :
    (⟨path, directive, .success v⟩ : Answer).brings q = false := by
  have hfront : path.isPrefixOf q = false := by
    rwa [Bool.eq_false_iff, Ne, List.isPrefixOf_iff_prefix]
  simp only [brings, hfront, Bool.false_and]

end Answer

/-- How many calls were made at a path. -/
def callsAt (answers : List Answer) (path : Path) : Nat :=
  answers.countP fun answer => answer.isCall && answer.path == path

/-- How many calls were brought to a path by what took the place of a directive. -/
def broughtTo (answers : List Answer) (path : Path) : Nat :=
  answers.countP (·.brings path)

/-- **When a directive below which none is left gives its place to a value, the calls that are
made or still stand grow by what the value brings.** -/
theorem calls_exchanged {markers : List String} (hmarker : Directive.generatorMarker ∈ markers)
    {D : Value} {path : Path} {directive : Fields}
    (hn : D.node? path = some (.map directive)) (hclear : ClearBelow markers D path) (v : Value)
    (answers : List Answer) (q : Path) :
    callsAt (⟨path, directive, .success v⟩ :: answers) q + (D.put path v).standing q +
        broughtTo answers q =
      callsAt answers q + D.standing q +
        broughtTo (⟨path, directive, .success v⟩ :: answers) q := by
  simp only [callsAt, broughtTo, List.countP_cons]
  by_cases hfront : path <+: q
  · obtain ⟨r, rfl⟩ := hfront
    have hput : (D.put path v).standing (path ++ r) =
        if (v.node? r).any Value.isCall then 1 else 0 := by
      rw [Value.standing, Value.node?_put_append (Option.isSome_of_eq_some hn)]
    rw [hput, Answer.brings_below]
    by_cases hr : r = []
    · subst hr
      have hstanding : D.standing (path ++ []) =
          if (Value.map directive).isCall then 1 else 0 := by
        rw [Value.standing, List.append_nil, hn, Option.any_some]
      rw [hstanding]
      simp only [Answer.isCall, List.append_nil, beq_self_eq_true, Bool.and_true]
      omega
    · have hne : (path == path ++ r) = false := by
        simpa [beq_eq_false_iff_ne] using Ne.symm hr
      rw [Value.standing_eq_zero hmarker fun w => hclear r w hr]
      simp only [hne, Bool.and_false, Bool.false_eq_true, if_false]
      omega
  · have hne : (path == q) = false := by
      rw [beq_eq_false_iff_ne]
      rintro rfl
      exact hfront (List.prefix_refl path)
    rw [Value.standing_put_of_not_prefix hfront, Answer.brings_beside hfront]
    simp only [hne, Bool.and_false, Bool.false_eq_true, if_false]
    omega

end Docweave
