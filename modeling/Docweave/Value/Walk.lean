import Docweave.Fault

/-!
Walking a document by the tokens of a path, and changing the node where the walk ends.

In a map a token is a key.  In a list it is an index in canonical decimal form: digits without a
sign and without a leading zero, within 64 bits.  So no two tokens name one element.
-/

namespace Docweave

/-- One step from a container to a child. -/
inductive Step where
  | key (key : String)
  | index (index : Nat)
deriving DecidableEq

/-- The index a token writes in canonical form. -/
def index? (token : String) : Option Nat :=
  let cs := token.toList
  let canonical := cs == ['0'] || (cs ≠ [] && cs.head? ≠ some '0')
  if canonical && cs.all (fun c => decide ('0' ≤ c ∧ c ≤ '9')) then
    let n := cs.foldl (fun n c => n * 10 + (c.toNat - '0'.toNat)) 0
    if n < 0x10000000000000000 then some n else none
  else none

/-- The token of an element of a list.  There is none beyond what 64 bits count. -/
def token? (i : Nat) : Option String :=
  if i < 0x10000000000000000 then some (toString i) else none

/-- The token that stands behind the last element of a list. -/
def appendToken : String := "-"

namespace Value

/-- The child that a token names; `seen` is the path of the container. -/
def child (seen : Path) (token : String) : Value → Except Miss Value
  | .map fields =>
    match Entries.find? fields token with
    | some v => .ok v
    | none => .error (.key seen token)
  | .list items =>
    match index? token with
    | none => .error (.index seen token)
    | some i =>
      match items[i]? with
      | some v => .ok v
      | none => .error (.range seen i items.length)
  | _ => .error (.scalar seen)

/-- The node at the end of a path; `seen` is the path walked before. -/
def walk (seen : Path) : Path → Value → Except Miss Value
  | [], v => .ok v
  | token :: path, v =>
    match child seen token v with
    | .ok c => walk (seen ++ [token]) path c
    | .error miss => .error miss

/-- The container with another value in the place of an existing child. -/
def setChild (token : String) (new : Value) : Value → Value
  | .map fields => .map (Entries.insert fields token new)
  | .list items =>
    match index? token with
    | some i => .list (items.set i new)
    | none => .list items
  | v => v

/-- Why an edit does not take place. -/
inductive EditFault where
  | miss (miss : Miss)
  | refused (cause : Refusal)

/-- Changes the node at the end of a path and leaves everything else as it is. -/
def editAt (change : Value → Except EditFault Value) (seen : Path) :
    Path → Value → Except EditFault Value
  | [], v => change v
  | token :: path, v =>
    match child seen token v with
    | .error miss => .error (.miss miss)
    | .ok c =>
      match editAt change (seen ++ [token]) path c with
      | .ok new => .ok (setChild token new v)
      | .error fault => .error fault

/-- Writes a child of the node whose path is `seen`: a key of a map, an existing index of a list,
or the place behind its last element. -/
def writeChild (seen : Path) (token : String) (new : Value) : Value → Except EditFault Value
  | .map fields => .ok (.map (Entries.insert fields token new))
  | .list items =>
    if token = appendToken then .ok (.list (items ++ [new]))
    else match index? token with
      | none => .error (.miss (.index seen token))
      | some i =>
        if i < items.length then .ok (.list (items.set i new))
        else .error (.miss (.range seen i items.length))
  | _ => .error (.refused (.scalarParent seen))

/-- Removes a child, if there is one. -/
def removeChild? (token : String) : Value → Option Value
  | .map fields =>
    if Entries.contains fields token then some (.map (Entries.erase fields token)) else none
  | .list items =>
    match index? token with
    | some i => if i < items.length then some (.list (items.eraseIdx i)) else none
    | none => none
  | _ => none

/-- The document with a container emptied, and anything else turned into null. -/
def cleared : Value → Value
  | .map _ => .map []
  | .list _ => .list []
  | _ => .null

/-- Removes the node at a path with at least one token, if there is one. -/
def removeAt? : Path → Value → Option Value
  | [], _ => none
  | [token], v => removeChild? token v
  | token :: path, v =>
    match child [] token v with
    | .ok c => (removeAt? path c).map fun new => setChild token new v
    | .error _ => none

/-- The node a pointer addresses. -/
def lookup (root : Value) (pointer : Pointer) : Except Fault Value :=
  match pointer.path? with
  | none => .error (.refused pointer .filePointer)
  | some path =>
    match walk [] path root with
    | .ok v => .ok v
    | .error miss => .error (.notFound pointer miss)

/-! ### Walking by steps that are known to fit -/

/-- The child behind a step. -/
def stepTo? (v : Value) : Step → Option Value
  | .key key =>
    match v with
    | .map fields => Entries.find? fields key
    | _ => none
  | .index i =>
    match v with
    | .list items => items[i]?
    | _ => none

/-- The node behind a list of steps. -/
def follow? : List Step → Value → Option Value
  | [], v => some v
  | step :: steps, v => (v.stepTo? step).bind (follow? steps)

/-- The container with another value behind an existing step. -/
def setStep (step : Step) (new : Value) (v : Value) : Value :=
  match step, v with
  | .key key, .map fields => .map (Entries.insert fields key new)
  | .index i, .list items => .list (items.set i new)
  | _, v => v

/-- The document with another value behind a list of existing steps. -/
def replaceAt (new : Value) : List Step → Value → Value
  | [], _ => new
  | step :: steps, v =>
    match stepTo? v step with
    | some c => setStep step (replaceAt new steps c) v
    | none => v

end Value

end Docweave
