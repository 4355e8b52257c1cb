import Docweave.Proofs.Pairing
import Docweave.Proofs.Reading.Json
import Docweave.Proofs.Registry

/-!
Building matchers from arguments, and what is expected from documents.

The two call each other: the argument of a matcher for the elements of lists is a document, and the
descriptors in a document are calls.  Each function is read back by one inversion, `Constructed`
for calls and `Built` for documents, and `building_induction` is the induction that goes with both:
a call may use what is known of any value in its arguments, a document what is known of its parts
and of the arguments of the descriptor that it is.
-/

namespace Docweave

theorem Except.map_eq_ok_iff {ε α β : Type} {x : Except ε α} {f : α → β} {b : β} :
    x.map f = .ok b ↔ ∃ a, x = .ok a ∧ b = f a := by
  cases x <;> simp [Except.map, eq_comm]

/-- Whether a value is a map with the name of a matcher. -/
def Descriptor.isAt : Value → Bool
  | .map fields => Entries.contains fields nameKey
  | _ => false

theorem Descriptor.isAt_of_scalar {v : Value} (h : v.isContainer = false) : isAt v = false := by
  cases v with
  | map => exact absurd h (by simp [Value.isContainer])
  | _ => rfl

theorem Descriptor.ofValue?_eq_none_iff {v : Value} :
    ofValue? v = .ok none ↔ isAt v = false := by
  cases v with
  | map fields =>
      simp only [ofValue?, isAt, Entries.contains]
      cases Entries.find? fields nameKey with
      | none => simp
      | some name => cases fields.forM checkEntry <;> simp
  | _ => simp [ofValue?, isAt]

/-- A value in a map is no larger than all of them. -/
theorem Value.size_le_sizeFields_of_mem {fields : Fields} {e : String × Value} (h : e ∈ fields) :
    e.2.size ≤ sizeFields fields := by
  induction fields with
  | nil => exact absurd h List.not_mem_nil
  | cons f fields ih =>
      rw [sizeFields]
      rcases List.mem_cons.mp h with rfl | h
      · omega
      · have := ih h
        omega

theorem Matcher.Draft.ofArguments_eq_ok_iff {now : Moment} {args : Arguments} {b : Builtin}
    {draft : Draft} :
    ofArguments now args b = .ok draft ↔
      ∃ p, Params.bind b.params args = .ok p ∧ ofParams now p b = .ok draft := by
  unfold ofArguments
  cases Params.bind b.params args with
  | error fault => simp
  | ok p => simp

/-- A range of dates that is built was read from two texts, and at another moment it is the same or
its limits are in disorder. -/
theorem Matcher.Draft.dateWithin_eq_ok {now : Moment} {p : Params} {m : Matcher}
    (h : dateWithin now p = .ok m) :
    ∃ first last earliest latest, DateLimit.read first = .ok earliest ∧
      DateLimit.read last = .ok latest ∧ m = .dateWithin earliest latest ∧
      ∀ later, dateWithin later p = .ok m ∨
        dateWithin later p = .error (.dateLimits first last) := by
  obtain ⟨first, hfirst, h⟩ := Except.bind_eq_ok_iff.mp h
  obtain ⟨last, hlast, h⟩ := Except.bind_eq_ok_iff.mp h
  obtain ⟨earliest, hearliest, h⟩ := Except.bind_eq_ok_iff.mp h
  obtain ⟨latest, hlatest, h⟩ := Except.bind_eq_ok_iff.mp h
  extract_lets disordered at h
  have hm : m = .dateWithin earliest latest := by
    split at h
    · exact absurd h (by simp)
    · exact (Except.ok.inj h).symm
  refine ⟨first, last, earliest, latest, hearliest, hlatest, hm, fun later => ?_⟩
  -- what is read of the arguments is the same, so only the comparison is made again
  obtain ⟨disordered, hlater⟩ : ∃ disordered : Bool, dateWithin later p =
      if disordered then .error (.dateLimits first last) else .ok m := by
    unfold dateWithin
    rw [hfirst, hlast, hm]
    show ∃ _, (DateLimit.read first >>= fun _ => DateLimit.read last >>= fun _ => _) = _
    rw [hearliest, hlatest]
    exact ⟨_, rfl⟩
  rw [hlater]
  exact (ite_eq_or_eq _ _ _).symm

namespace Matchers

variable {matchers : Matchers} {now : Moment} {v : Value}

/-! ### Building what is expected -/

theorem expectFields_eq_ok_iff {es : List (String × Value)} {ws : List (String × Expected)} :
    matchers.expectFields now es = .ok ws ↔
      List.Forall₂ (fun e w => e.1 = w.1 ∧ matchers.expect now e.2 = .ok w.2) es ws := by
  induction es generalizing ws with
  | nil =>
      rw [expectFields]
      cases ws <;> simp
  | cons e es ih =>
      obtain ⟨key, v⟩ := e
      rw [expectFields, Except.bind_eq_ok_iff, List.forall₂_cons_left_iff]
      constructor
      · rintro ⟨w, hw, h⟩
        obtain ⟨ws, hws, h⟩ := Except.bind_eq_ok_iff.mp h
        obtain rfl := Except.ok.inj h
        exact ⟨(key, w), ws, ⟨rfl, hw⟩, ih.mp hws, rfl⟩
      · rintro ⟨⟨key', w⟩, ws, ⟨rfl, hw⟩, hws, rfl⟩
        exact ⟨w, hw, Except.bind_eq_ok_iff.mpr ⟨ws, ih.mpr hws, rfl⟩⟩

theorem expectItems_eq_ok_iff {vs : List Value} {ws : List Expected} :
    matchers.expectItems now vs = .ok ws ↔
      List.Forall₂ (fun v w => matchers.expect now v = .ok w) vs ws := by
  induction vs generalizing ws with
  | nil =>
      rw [expectItems]
      cases ws <;> simp
  | cons v vs ih =>
      rw [expectItems, Except.bind_eq_ok_iff, List.forall₂_cons_left_iff]
      constructor
      · rintro ⟨w, hw, h⟩
        obtain ⟨ws, hws, h⟩ := Except.bind_eq_ok_iff.mp h
        obtain rfl := Except.ok.inj h
        exact ⟨w, ws, hw, ih.mp hws, rfl⟩
      · rintro ⟨w, ws, hw, hws, rfl⟩
        exact ⟨w, hw, Except.bind_eq_ok_iff.mpr ⟨ws, ih.mpr hws, rfl⟩⟩

/-- How a document becomes what is expected. -/
inductive Built (matchers : Matchers) (now : Moment) : Value → Expected → Prop
  | matcher {v : Value} {m : Matcher} (hat : Descriptor.isAt v = true)
      (h : matchers.ofDescriptor? now v = .ok (some m)) : Built matchers now v (.matcher m)
  | map {fields : Fields} {ws : List (String × Expected)}
      (hplain : Descriptor.isAt (.map fields) = false)
      (h : List.Forall₂ (fun e w => e.1 = w.1 ∧ matchers.expect now e.2 = .ok w.2) fields ws) :
      Built matchers now (.map fields) (.map ws)
  | list {items : List Value} {ws : List Expected}
      (h : List.Forall₂ (fun v w => matchers.expect now v = .ok w) items ws) :
      Built matchers now (.list items) (.list ws)
  | exact {v : Value} (h : v.isContainer = false) : Built matchers now v (.exact v)

theorem ofDescriptor?_eq_ok_iff {m : Matcher} :
    matchers.ofDescriptor? now v = .ok (some m) ↔
      ∃ d, Descriptor.ofValue? v = .ok (some d) ∧
        matchers.construct now d.name d.args = .ok m := by
  unfold ofDescriptor?
  split
  · simp [*]
  · simp [*]
  · rename_i d hd
    simp only [hd, Except.map_eq_ok_iff, Option.some.injEq, Except.ok.injEq, exists_eq_left',
      exists_eq_right']

/-- A descriptor becomes the matcher that it calls. -/
theorem expect_descriptor {d : Descriptor} (h : Descriptor.ofValue? v = .ok (some d)) :
    matchers.expect now v = (matchers.construct now d.name d.args).map .matcher := by
  rw [expect]
  split
  · exact absurd (h.symm.trans ‹_›) (by simp)
  · rename_i hd
    obtain rfl := Option.some.inj (Except.ok.inj (h.symm.trans hd))
    rfl
  · exact absurd (h.symm.trans ‹_›) (by simp)

/-- What is no descriptor is built from what is below it. -/
theorem expect_plain (h : Descriptor.isAt v = false) :
    matchers.expect now v = match v with
      | .map fields => (matchers.expectFields now fields).map .map
      | .list items => (matchers.expectItems now items).map .list
      | v => .ok (.exact v) := by
  have hnone := Descriptor.ofValue?_eq_none_iff.mpr h
  rw [expect]
  split
  · exact absurd (hnone.symm.trans ‹_›) (by simp)
  · exact absurd (hnone.symm.trans ‹_›) (by simp)
  · cases v <;> rfl

theorem expect_scalar (h : v.isContainer = false) : matchers.expect now v = .ok (.exact v) := by
  rw [expect_plain (Descriptor.isAt_of_scalar h)]
  cases v with
  | map => exact absurd h (by simp [Value.isContainer])
  | list => exact absurd h (by simp [Value.isContainer])
  | _ => rfl

/-- What a descriptor is built to is its matcher. -/
theorem expect_of_isAt (h : Descriptor.isAt v = true) {w : Expected} :
    matchers.expect now v = .ok w ↔
      ∃ m, matchers.ofDescriptor? now v = .ok (some m) ∧ w = .matcher m := by
  cases hd : Descriptor.ofValue? v with
  | error fault =>
      rw [expect]
      split
      · simp [ofDescriptor?, hd]
      · exact absurd (hd.symm.trans ‹_›) (by simp)
      · exact absurd (hd.symm.trans ‹_›) (by simp)
  | ok found =>
      cases found with
      | none => exact absurd (h.symm.trans (Descriptor.ofValue?_eq_none_iff.mp hd)) (by simp)
      | some d =>
          rw [expect_descriptor hd, Except.map_eq_ok_iff]
          simp only [ofDescriptor?_eq_ok_iff, hd, Except.ok.injEq, Option.some.injEq,
            exists_eq_left']

theorem built_of_expect {w : Expected} (h : matchers.expect now v = .ok w) :
    Built matchers now v w := by
  by_cases hat : Descriptor.isAt v = true
  · obtain ⟨m, hm, rfl⟩ := (expect_of_isAt hat).mp h
    exact .matcher hat hm
  · have hplain := Bool.eq_false_iff.mpr hat
    rw [expect_plain hplain] at h
    cases v with
    | map fields =>
        obtain ⟨ws, hws, rfl⟩ := Except.map_eq_ok_iff.mp h
        exact .map hplain (expectFields_eq_ok_iff.mp hws)
    | list items =>
        obtain ⟨ws, hws, rfl⟩ := Except.map_eq_ok_iff.mp h
        exact .list (expectItems_eq_ok_iff.mp hws)
    | _ => exact Except.ok.inj h ▸ .exact rfl

theorem exists_expect_map_iff {fields : Fields}
    (hplain : Descriptor.isAt (.map fields) = false) :
    (∃ w, matchers.expect now (.map fields) = .ok w) ↔
      ∀ e ∈ fields, ∃ w, matchers.expect now e.2 = .ok w := by
  have hbuilt : (∃ w, matchers.expect now (.map fields) = .ok w) ↔
      ∃ ws, List.Forall₂ (fun e (w : String × Expected) =>
        e.1 = w.1 ∧ matchers.expect now e.2 = .ok w.2) fields ws := by
    simp only [expect_plain hplain, Except.map_eq_ok_iff, expectFields_eq_ok_iff]
    exact ⟨fun ⟨_, ws, hws, _⟩ => ⟨ws, hws⟩, fun ⟨ws, hws⟩ => ⟨_, ws, hws, rfl⟩⟩
  rw [hbuilt, exists_forall₂_iff]
  exact forall₂_congr fun e _ => ⟨fun ⟨w, _, hw⟩ => ⟨w.2, hw⟩, fun ⟨w, hw⟩ => ⟨(e.1, w), rfl, hw⟩⟩

theorem exists_expect_list_iff {items : List Value} :
    (∃ w, matchers.expect now (.list items) = .ok w) ↔
      ∀ v ∈ items, ∃ w, matchers.expect now v = .ok w := by
  have hbuilt : (∃ w, matchers.expect now (.list items) = .ok w) ↔
      ∃ ws, List.Forall₂ (fun v w => matchers.expect now v = .ok w) items ws := by
    have hplain : Descriptor.isAt (.list items) = false := rfl
    simp only [expect_plain hplain, Except.map_eq_ok_iff, expectItems_eq_ok_iff]
    exact ⟨fun ⟨_, ws, hws, _⟩ => ⟨ws, hws⟩, fun ⟨ws, hws⟩ => ⟨_, ws, hws, rfl⟩⟩
  rw [hbuilt, exists_forall₂_iff]

/-! ### Building a matcher from its arguments -/

/-- Finishes a draft: what is expected of the elements of a list is built by the matchers there
are. -/
def finish (matchers : Matchers) (now : Moment) (b : Matcher.Builtin) :
    Except CallFault Matcher.Draft → Except Fault Matcher
  | .error cause => .error (.call .matcher b.name cause)
  | .ok (.ready m) => .ok m
  | .ok (.each rule element size) => do
    let wanted ← matchers.expect now element
    match size with
    | .error cause => .error (.call .matcher b.name cause)
    | .ok size? => .ok (.listEach rule size? wanted)

/-- A matcher that is always there is built by finishing its draft. -/
theorem construct_builtin {name : String} {b : Matcher.Builtin}
    (hname : matchers.find? name = some (.builtin b)) (args : Arguments) :
    matchers.construct now name args =
      matchers.finish now b (Matcher.Draft.ofArguments now args b) := by
  rw [construct, hname]
  simp only
  split
  · rename_i hdraft
    rw [hdraft, finish]
  · rename_i hdraft
    rw [hdraft, finish]
  · rename_i rule element size hdraft
    simp only [hdraft, finish]
    cases matchers.expect now element with
    | error fault => rfl
    | ok wanted => cases size <;> rfl

theorem construct_standard {b : Matcher.Builtin} {args : Arguments} {m : Matcher}
    (hdraft : Matcher.Draft.ofArguments now args b = .ok (.ready m)) :
    standard.construct now b.name args = .ok m := by
  rw [construct_builtin (find?_standard_iff.mpr ⟨b, rfl, rfl⟩), hdraft]
  rfl

/-- How a matcher that is always there comes of its arguments. -/
inductive Constructed (matchers : Matchers) (now : Moment) (b : Matcher.Builtin)
    (args : Arguments) : Matcher → Prop
  | ready {m : Matcher} (hdraft : Matcher.Draft.ofArguments now args b = .ok (.ready m)) :
      Constructed matchers now b args m
  | each {rule : SizeRule} {element : Value} {size? : Option Nat} {w : Expected}
      (hdraft : Matcher.Draft.ofArguments now args b = .ok (.each rule element (.ok size?)))
      (hexpect : matchers.expect now element = .ok w) :
      Constructed matchers now b args (.listEach rule size? w)

theorem constructed_of_construct {name : String} {b : Matcher.Builtin} {args : Arguments}
    {m : Matcher} (hname : matchers.find? name = some (.builtin b))
    (h : matchers.construct now name args = .ok m) : Constructed matchers now b args m := by
  rw [construct_builtin hname] at h
  cases hdraft : Matcher.Draft.ofArguments now args b with
  | error cause =>
      rw [hdraft] at h
      exact absurd h (by simp [finish])
  | ok draft =>
      rw [hdraft] at h
      cases draft with
      | ready m' =>
          obtain rfl := Except.ok.inj h
          exact .ready hdraft
      | each rule element size =>
          obtain ⟨w, hexpect, h⟩ := Except.bind_eq_ok_iff.mp h
          cases size with
          | error cause => exact absurd h (by simp)
          | ok size? =>
              obtain rfl := Except.ok.inj h
              exact .each hdraft hexpect

/-- Only a matcher that is always there is built if no others are known. -/
theorem exists_builtin_of_construct {name : String} {args : Arguments} {m : Matcher}
    (h : standard.construct now name args = .ok m) :
    ∃ b : Matcher.Builtin, b.name = name ∧ standard.find? name = some (.builtin b) := by
  cases hname : standard.find? name with
  | none =>
      rw [construct, hname] at h
      exact absurd h (by simp)
  | some recipe =>
      obtain ⟨b, hb, rfl⟩ := find?_standard_iff.mp hname
      exact ⟨b, hb, rfl⟩

theorem size?_of_ruleSize {rule : SizeRule} {p : Params} {i : Nat} {missing : String}
    {size? : Option Nat} (h : Matcher.Draft.ruleSize rule p i missing = .ok size?) :
    p.size? i = .ok size? := by
  unfold Matcher.Draft.ruleSize at h
  split at h
  · exact absurd h (by simp)
  · split at h
    · obtain rfl := Except.ok.inj h
      assumption
    · exact absurd h (by simp)
  · obtain rfl := Except.ok.inj h
    assumption

theorem draft_listEach {rule : SizeRule} {args : Arguments} {draft : Matcher.Draft}
    (h : Matcher.Draft.ofArguments now args (.listEach rule) = .ok draft) :
    ∃ p element, Params.bind (Matcher.Builtin.listEach rule).params args = .ok p ∧
      p.require 0 = .ok element ∧
      draft = .each rule element (Matcher.Draft.ruleSize rule p 1 "size") := by
  obtain ⟨p, hbind, h⟩ := Matcher.Draft.ofArguments_eq_ok_iff.mp h
  simp only [Matcher.Draft.ofParams] at h
  split at h
  · exact absurd h (by simp)
  · exact ⟨p, _, hbind, ‹_›, (Except.ok.inj h).symm⟩

/-- A matcher for the elements of lists is built from its arguments and from what is expected of
every element. -/
theorem construct_listEach {name : String} {rule : SizeRule} {args : Arguments} {m : Matcher}
    (hname : matchers.find? name = some (.builtin (.listEach rule)))
    (h : matchers.construct now name args = .ok m) :
    ∃ p element size? w, Params.bind (Matcher.Builtin.listEach rule).params args = .ok p ∧
      p.require 0 = .ok element ∧ p.size? 1 = .ok size? ∧
      matchers.expect now element = .ok w ∧ m = .listEach rule size? w := by
  cases constructed_of_construct hname h with
  | ready hdraft =>
      obtain ⟨_, _, -, -, hready⟩ := draft_listEach hdraft
      exact absurd hready (by simp)
  | each hdraft hexpect =>
      obtain ⟨p, element, hbind, hrequire, heach⟩ := draft_listEach hdraft
      obtain ⟨rfl, rfl, hsize⟩ := Matcher.Draft.each.inj heach
      exact ⟨p, _, _, _, hbind, hrequire, size?_of_ruleSize hsize.symm, hexpect, rfl⟩

/-! ### The induction -/

/-- What holds of calls if it holds of the values in their arguments, and of documents if it holds
of their parts and of the call that a descriptor is, holds of all of them. -/
theorem building_induction {P : Arguments → Prop} {Q : Value → Prop}
    (call : ∀ args, (∀ v, v.size ≤ args.size → Q v) → P args)
    (descriptor : ∀ v, Descriptor.isAt v = true →
      (∀ d, Descriptor.ofValue? v = .ok (some d) → P d.args) → Q v)
    (map : ∀ fields, Descriptor.isAt (.map fields) = false → (∀ e ∈ fields, Q e.2) →
      Q (.map fields))
    (list : ∀ items, (∀ v ∈ items, Q v) → Q (.list items))
    (scalar : ∀ v, v.isContainer = false → Q v) : (∀ args, P args) ∧ ∀ v, Q v := by
  have hvalue : ∀ n v, v.size ≤ n → Q v := by
    intro n
    induction n with
    | zero =>
        intro v hv
        have := v.size_pos
        omega
    | succ n ih =>
        intro v hv
        by_cases hat : Descriptor.isAt v = true
        · refine descriptor v hat fun d hd => call d.args fun w hw => ih w ?_
          have := Descriptor.size_lt_of_ofValue? hd
          omega
        cases v with
        | map fields =>
            refine map fields (Bool.eq_false_iff.mpr hat) fun e he => ih e.2 ?_
            have := Value.size_le_sizeFields_of_mem he
            rw [Value.size] at hv
            omega
        | list items =>
            refine list items fun w hw => ih w ?_
            have := Value.size_le_sizeItems hw
            rw [Value.size] at hv
            omega
        | _ => exact scalar _ rfl
  exact ⟨fun args => call args fun v _ => hvalue v.size v (Nat.le_refl _),
    fun v => hvalue v.size v (Nat.le_refl _)⟩

end Matchers

end Docweave
