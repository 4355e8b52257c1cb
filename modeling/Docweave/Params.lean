import Docweave.Fault

/-!
Arguments, and the parameters that they are bound to.

Arguments come by position and by keyword.  Binding checks that they fit the names of the
parameters: no more positions than names, no other keywords, and no parameter given both ways.
After that a parameter is looked up by its place, first among the positions and then by its name,
and null counts as not given.
-/

namespace Docweave

/-- What a call is made with. -/
structure Arguments where
  positional : List Value
  keywords : Fields

/-- Arguments that fit the names of parameters. -/
structure Params where
  names : List String
  args : Arguments

namespace Params

/-- Checks one keyword against the names and the number of positions given. -/
def checkKeyword (names : List String) (given : Nat) (key : String) : Except CallFault Unit :=
  match names.idxOf? key with
  | none => .error (.unexpectedKeyword key)
  | some i => if i < given then .error (.repeatedArgument key) else .ok ()

/-- Binds arguments to parameters. -/
def bind (names : List String) (args : Arguments) : Except CallFault Params :=
  let given := args.positional.length
  if names.length < given then .error (.tooManyArguments names.length given)
  else
    match (Entries.keys args.keywords).forM (checkKeyword names given) with
    | .error fault => .error fault
    | .ok () => .ok ⟨names, args⟩

theorem args_of_bind {names : List String} {args : Arguments} {p : Params}
    (h : bind names args = .ok p) : p.args = args := by
  simp only [bind] at h
  split at h
  · simp at h
  · split at h
    · simp at h
    · rw [← Except.ok.inj h]

/-- The name of a parameter. -/
def label (p : Params) (i : Nat) : String :=
  (p.names[i]?).getD "?"

/-- The argument at a position, or else under the name of the parameter at that place. -/
def given? (p : Params) (i : Nat) : Option Value :=
  match p.args.positional[i]? with
  | some v => some v
  | none => (p.names[i]?).bind fun name => Entries.find? p.args.keywords name

/-- The argument for a parameter; null counts as none. -/
def get? (p : Params) (i : Nat) : Option Value :=
  (p.given? i).filter fun v => !v.isNull

/-- The argument for a parameter that has to be of a type. -/
def typed? {α : Type} (expected : ParamType) (read : Value → Option α) (p : Params) (i : Nat) :
    Except CallFault (Option α) :=
  match p.get? i with
  | none => .ok none
  | some v =>
    match read v with
    | some a => .ok (some a)
    | none => .error (.wrongType (p.label i) expected v)

/-- What was found for a parameter that has to be given. -/
def required {α : Type} (p : Params) (i : Nat) (found : Except CallFault (Option α)) :
    Except CallFault α :=
  match found with
  | .ok (some a) => .ok a
  | .ok none => .error (.missingArgument (p.label i))
  | .error fault => .error fault

/-- The argument for a parameter that has to be given. -/
def require (p : Params) (i : Nat) : Except CallFault Value :=
  p.required i (.ok (p.get? i))

/-- A text. -/
def text? : Params → Nat → Except CallFault (Option String) :=
  typed? .text Value.text?

/-- A boolean. -/
def flag? : Params → Nat → Except CallFault (Option Bool) :=
  typed? .flag Value.bool?

/-- A number, as a binary64 number. -/
def number? : Params → Nat → Except CallFault (Option Double) :=
  typed? .number fun v => v.number?.map Number.toDouble

/-- An integer that fits in 64 bits with its sign. -/
def integer? (p : Params) (i : Nat) : Except CallFault (Option Int) :=
  match typed? .integer Value.int? p i with
  | .ok (some n) =>
    if -0x8000000000000000 ≤ n ∧ n < 0x8000000000000000 then
      .ok (some n)
    else
      .error (.outOfRange (p.label i))
  | found => found

/-- An integer that is not negative. -/
def size? (p : Params) (i : Nat) : Except CallFault (Option Nat) :=
  match p.integer? i with
  | .error fault => .error fault
  | .ok none => .ok none
  | .ok (some n) => if n < 0 then .error (.negative (p.label i)) else .ok (some n.toNat)

end Params

end Docweave
