import Docweave.Directive.Memory
import Docweave.Generator
import Docweave.Matchers

/-!
Directives that stand for made values and for matchers.

Made values may share a name: the first of them is made, and the others are the same value until
it is forgotten.  A matcher is built to see that it can be, and stands in the document as its
descriptor.
-/

namespace Docweave

namespace Directive

/-- The marker of made values. -/
def generatorMarker : String := "!gen"

/-- The marker of matchers. -/
def matcherMarker : String := "!match"

/-- A name with its arguments, as a directive calls them. -/
structure Call where
  name : String
  args : Arguments

/-- Reads a call. -/
def Call.read (directive : Fields) (marker : String) (options : List String) :
    Except Fault Call := do
  let name ← payload directive marker
  let positional ← positional directive marker
  .ok ⟨name, positional, keywords directive marker options⟩

/-- What a made value is remembered by, if it shares a name: the generator and the name. -/
def sharedKey? (directive : Fields) (generator : String) : Except Fault (Option String) :=
  match option? directive "id" with
  | none => .ok none
  | some (.text id) => .ok (some (generator ++ "." ++ id))
  | some (.number n) => .ok (some (generator ++ "." ++ n.render))
  | some v => .error (.input (.badId v))

/-- Makes a value, or takes the one that is remembered under the key. -/
def make {σ : Type} (generators : Generators σ) (call : Call) (key? : Option String) :
    ExceptT Fault (StateM (Memory σ)) Value := fun memory =>
  match key?.bind (Entries.find? memory.made) with
  | some v => (.ok v, memory)
  | none =>
    match generators.generate call.name call.args memory.world with
    | (.error fault, world) => (.error fault, { memory with world })
    | (.ok v, world) =>
      let made := match key? with
        | some key => Entries.insert memory.made key v
        | none => memory.made
      (.ok v, { memory with made, world })

/-- A call of a generator, and what its value is remembered by. -/
def readMade (directive : Fields) : Except Fault (Call × Option String) := do
  let call ← Call.read directive generatorMarker ["args", "id"]
  let key? ← sharedKey? directive call.name
  .ok (call, key?)

/-- The value that a call of a generator stands for. -/
def composeMade {σ : Type} (generators : Generators σ) (directive : Fields) :
    ExceptT Fault (StateM (Memory σ)) Outcome := fun memory =>
  match readMade directive with
  | .error fault => (.error fault, memory)
  | .ok (call, key?) =>
    match make generators call key? memory with
    | (.error fault, memory) => (.error fault, memory)
    | (.ok v, memory) => (.ok (.success v), memory)

/-- The descriptor that a call of a matcher stands for. -/
def composeMatcher (matchers : Matchers) (directive : Fields) (context : Context) :
    Except Fault Outcome := do
  let call ← Call.read directive matcherMarker ["args"]
  let _ ← matchers.construct context.setting.now call.name call.args
  .ok (.success (Descriptor.toValue ⟨call.name, call.args⟩))

end Directive

namespace Handler

/-- The handler of made values. -/
def generator {σ : Type} (generators : Generators σ) : Handler (Memory σ) where
  name := "Generator"
  marker := Directive.generatorMarker
  compose := fun directive _ => Directive.composeMade generators directive
  forget := fun memory => { memory with made := [] }

/-- The handler of matchers. -/
def matcher {μ : Type} (matchers : Matchers) : Handler μ where
  name := "Matcher"
  marker := Directive.matcherMarker
  compose := fun directive context memory =>
    (Directive.composeMatcher matchers directive context, memory)

end Handler

end Docweave
