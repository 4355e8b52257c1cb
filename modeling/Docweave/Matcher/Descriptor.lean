import Docweave.Params

/-!
Descriptors: matchers written down in a document.

A descriptor is a map with the name of a matcher under `$matcher`, its arguments by position under
`$args`, and every other entry an argument by keyword.
-/

namespace Docweave

/-- A matcher by its name and its arguments. -/
structure Descriptor where
  name : String
  args : Arguments

namespace Descriptor

/-- The key of the name. -/
def nameKey : String := "$matcher"

/-- The key of the arguments by position. -/
def argsKey : String := "$args"

/-- Checks that an entry has the type that its key asks for. -/
def checkEntry (entry : String × Value) : Except CallFault Unit :=
  if entry.1 = nameKey then
    match entry.2 with
    | .text _ => .ok ()
    | v => .error (.malformedDescriptor .name v)
  else if entry.1 = argsKey then
    match entry.2 with
    | .list _ => .ok ()
    | v => .error (.malformedDescriptor .arguments v)
  else .ok ()

/-- Whether an entry is an argument by keyword. -/
def isKeyword (entry : String × Value) : Bool :=
  entry.1 != nameKey && entry.1 != argsKey

/-- The arguments by position among entries. -/
def positionalOf (fields : Fields) : List Value :=
  ((Entries.find? fields argsKey).bind Value.items?).getD []

/-- The descriptor that a value is, if it is one; an entry of the wrong type is a fault. -/
def ofValue? : Value → Except Fault (Option Descriptor)
  | .map fields =>
    match Entries.find? fields nameKey with
    | none => .ok none
    | some name =>
      match fields.forM checkEntry with
      | .error cause => .error (.call .matcher (Json.compact name) cause)
      | .ok () =>
        .ok (some ⟨name.text?.getD "", ⟨positionalOf fields, fields.filter isKeyword⟩⟩)
  | _ => .ok none

/-- A descriptor as a value. -/
def toValue (d : Descriptor) : Value :=
  let positional :=
    if d.args.positional.isEmpty then [] else [(argsKey, Value.list d.args.positional)]
  .map (Entries.ofPairs ((nameKey, .text d.name) :: positional ++ d.args.keywords))

end Descriptor

/-! ### Sizes

What a descriptor hands over is smaller than the descriptor, so matchers within matchers come to an
end.
-/

namespace Value

theorem size_pos (v : Value) : 0 < v.size := by
  cases v <;> simp only [size] <;> omega

theorem size_le_sizeItems {v : Value} {items : List Value} (h : v ∈ items) :
    v.size ≤ sizeItems items := by
  induction items with
  | nil => simp at h
  | cons w ws ih =>
    simp only [sizeItems]
    rcases List.mem_cons.1 h with rfl | h
    · omega
    · have := ih h
      omega

theorem size_le_sizeFields {fields : Fields} {key : String} {v : Value}
    (h : Entries.find? fields key = some v) : v.size ≤ sizeFields fields := by
  induction fields with
  | nil => simp at h
  | cons e es ih =>
    obtain ⟨k, w⟩ := e
    simp only [Entries.find?_cons] at h
    simp only [sizeFields]
    split at h
    · obtain rfl := Option.some.inj h
      omega
    · have := ih h
      omega

theorem sizeFields_filter_le (keep : String × Value → Bool) (fields : Fields) :
    sizeFields (fields.filter keep) ≤ sizeFields fields := by
  induction fields with
  | nil => simp
  | cons e es ih =>
    obtain ⟨k, w⟩ := e
    simp only [List.filter_cons]
    split <;> simp only [sizeFields] <;> omega

/-- An entry that is left out makes room for its size. -/
theorem sizeFields_filter_add_le {keep : String × Value → Bool} {fields : Fields}
    {key : String} {v : Value} (hfind : Entries.find? fields key = some v)
    (hkeep : ∀ w, keep (key, w) = false) :
    sizeFields (fields.filter keep) + v.size ≤ sizeFields fields := by
  induction fields with
  | nil => simp at hfind
  | cons e es ih =>
    obtain ⟨k, w⟩ := e
    simp only [Entries.find?_cons] at hfind
    simp only [List.filter_cons, sizeFields]
    split at hfind
    · next hk =>
      obtain rfl := Option.some.inj hfind
      subst hk
      have := sizeFields_filter_le keep es
      simp only [hkeep, Bool.false_eq_true, if_false]
      omega
    · have := ih hfind
      split
      · simp only [sizeFields]
        omega
      · omega

end Value

/-- The number of nodes in arguments. -/
def Arguments.size (args : Arguments) : Nat :=
  Value.sizeItems args.positional + Value.sizeFields args.keywords

theorem Descriptor.positionalOf_size_le (fields : Fields) :
    Value.sizeItems (positionalOf fields) + Value.sizeFields (fields.filter isKeyword)
      ≤ Value.sizeFields fields := by
  unfold positionalOf
  cases hfind : Entries.find? fields argsKey with
  | none =>
    have := Value.sizeFields_filter_le isKeyword fields
    simpa [Value.sizeItems] using this
  | some v =>
    have hle : Value.sizeFields (fields.filter isKeyword) + v.size ≤ Value.sizeFields fields :=
      Value.sizeFields_filter_add_le hfind (by simp [isKeyword, argsKey])
    cases v <;> simp [Value.items?, Value.sizeItems, Value.size] at hle ⊢ <;> omega

theorem Descriptor.size_lt_of_ofValue? {v : Value} {d : Descriptor}
    (h : ofValue? v = .ok (some d)) : d.args.size < v.size := by
  cases v with
  | map fields =>
    simp only [ofValue?] at h
    split at h
    · simp at h
    · split at h
      · simp at h
      · obtain rfl := Option.some.inj (Except.ok.inj h)
        have := positionalOf_size_le fields
        simp only [Arguments.size, Value.size]
        omega
  | _ => simp [ofValue?] at h

theorem Params.size_le_of_get? {p : Params} {i : Nat} {v : Value} (h : p.get? i = some v) :
    v.size ≤ p.args.size := by
  simp only [get?, Option.filter_eq_some_iff] at h
  obtain ⟨h, -⟩ := h
  simp only [given?] at h
  unfold Arguments.size
  split at h
  · next w hw =>
    obtain rfl := Option.some.inj h
    have := Value.size_le_sizeItems (List.mem_of_getElem? hw)
    omega
  · obtain ⟨name, -, hfind⟩ := Option.bind_eq_some_iff.1 h
    have := Value.size_le_sizeFields hfind
    omega

end Docweave
