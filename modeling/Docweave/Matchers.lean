import Docweave.Matcher.Builtin
import Docweave.Matcher.Descriptor
import Docweave.Registry

/-!
Building matchers by name, and expected values from documents.

Building goes down from arguments to the descriptors in them, and from a document to its nodes.
What is left to build gets smaller at every step, so there is no limit of depth.
-/

namespace Docweave

/-- How a matcher is built from its arguments. -/
inductive Matcher.Recipe where
  | builtin (builtin : Matcher.Builtin)
  | custom (build : Arguments → Except Fault Matcher)

/-- The matchers that can be built, by name. -/
abbrev Matchers : Type := Registry Matcher.Recipe

namespace Matchers

/-- The matchers that are always there. -/
def standard : Matchers :=
  Registry.ofList (Matcher.Builtin.all.map fun b => (b.name, .builtin b))

/-- Registers a way to build a matcher under a name that is free. -/
def register (matchers : Matchers) (name : String) (build : Arguments → Except Fault Matcher) :
    Except Fault Matchers :=
  match matchers.register? name (.custom build) with
  | some matchers => .ok matchers
  | none => .error (.call .matcher name .alreadyRegistered)

end Matchers

theorem Matcher.Draft.map_ready_ne_each {found : Except CallFault Matcher} {rule : SizeRule}
    {element : Value} {size : Except CallFault (Option Nat)} :
    found.map Matcher.Draft.ready ≠ .ok (.each rule element size) := by
  cases found <;> simp [Except.map]

theorem Params.get?_of_require {p : Params} {i : Nat} {v : Value} (h : p.require i = .ok v) :
    p.get? i = some v := by
  simp only [require, required] at h
  cases hget : p.get? i with
  | none => simp [hget] at h
  | some w => simpa [hget] using h

theorem Matcher.Draft.size_le_of_ofParams {now : Moment} {p : Params} {b : Matcher.Builtin}
    {rule : SizeRule} {element : Value} {size : Except CallFault (Option Nat)}
    (h : ofParams now p b = .ok (.each rule element size)) : element.size ≤ p.args.size := by
  cases b with
  | listEach r =>
    simp only [ofParams] at h
    split at h
    · simp at h
    · next v hv =>
      obtain ⟨-, rfl, -⟩ := Draft.each.inj (Except.ok.inj h)
      exact Params.size_le_of_get? (Params.get?_of_require hv)
  | shape s => simp [ofParams] at h
  | date => simp [ofParams] at h
  | _ => exact absurd h map_ready_ne_each

/-- What is expected of the elements of a list is no larger than the arguments it comes from. -/
theorem Matcher.Draft.size_le_of_ofArguments {now : Moment} {args : Arguments} {b : Matcher.Builtin}
    {rule : SizeRule} {element : Value} {size : Except CallFault (Option Nat)}
    (h : ofArguments now args b = .ok (.each rule element size)) : element.size ≤ args.size := by
  simp only [ofArguments] at h
  split at h
  · simp at h
  · next p hp => exact Params.args_of_bind hp ▸ size_le_of_ofParams h

namespace Matchers

mutual

/-- Builds the matcher with a name. -/
def construct (matchers : Matchers) (now : Moment) (name : String) (args : Arguments) :
    Except Fault Matcher :=
  match matchers.find? name with
  | none => .error (.call .matcher name .notRegistered)
  | some (.custom build) => build args
  | some (.builtin b) =>
    match h : Matcher.Draft.ofArguments now args b with
    | .error cause => .error (.call .matcher b.name cause)
    | .ok (.ready m) => .ok m
    | .ok (.each rule element size) =>
      have := Matcher.Draft.size_le_of_ofArguments h
      match expect matchers now element with
      | .error fault => .error fault
      | .ok element =>
        match size with
        | .error cause => .error (.call .matcher b.name cause)
        | .ok size? => .ok (.listEach rule size? element)
termination_by 2 * args.size + 1

/-- Builds what a document says is expected. -/
def expect (matchers : Matchers) (now : Moment) (v : Value) : Except Fault Expected :=
  match h : Descriptor.ofValue? v with
  | .error fault => .error fault
  | .ok (some d) =>
    have := Descriptor.size_lt_of_ofValue? h
    (construct matchers now d.name d.args).map .matcher
  | .ok none =>
    match v with
    | .map fields => (expectFields matchers now fields).map .map
    | .list items => (expectItems matchers now items).map .list
    | v => .ok (.exact v)
termination_by 2 * v.size
decreasing_by
  · omega
  · simp only [Value.size]
    omega
  · simp only [Value.size]
    omega

/-- Builds what the entries of a map say is expected. -/
def expectFields (matchers : Matchers) (now : Moment) :
    List (String × Value) → Except Fault (List (String × Expected))
  | [] => .ok []
  | (key, v) :: es => do
    let wanted ← expect matchers now v
    .ok ((key, wanted) :: (← expectFields matchers now es))
termination_by es => 2 * Value.sizeFields es + 1
decreasing_by
  · simp only [Value.sizeFields]
    omega
  · have := Value.size_pos v
    simp only [Value.sizeFields]
    omega

/-- Builds what the elements of a list say is expected. -/
def expectItems (matchers : Matchers) (now : Moment) :
    List Value → Except Fault (List Expected)
  | [] => .ok []
  | v :: vs => do
    let wanted ← expect matchers now v
    .ok (wanted :: (← expectItems matchers now vs))
termination_by vs => 2 * Value.sizeItems vs + 1
decreasing_by
  · simp only [Value.sizeItems]
    omega
  · have := Value.size_pos v
    simp only [Value.sizeItems]
    omega

end

/-- Builds the matcher that a value describes, if it is a descriptor. -/
def ofDescriptor? (matchers : Matchers) (now : Moment) (v : Value) :
    Except Fault (Option Matcher) :=
  match Descriptor.ofValue? v with
  | .error fault => .error fault
  | .ok none => .ok none
  | .ok (some d) => (matchers.construct now d.name d.args).map some

/-- Whether a value is as a document says is expected. -/
def accepts (matchers : Matchers) (now : Moment) (expected actual : Value) : Except Fault Bool :=
  (matchers.expect now expected).map fun wanted => wanted.accepts now actual

end Matchers

end Docweave
