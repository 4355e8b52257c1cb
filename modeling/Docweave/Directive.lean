import Docweave.Date.Moment
import Docweave.File.Files
import Docweave.Params
import Docweave.Store

/-!
Directives: maps that stand for other values, and the handlers that say for which.

A map is a directive if it has the marker of some handler as a key.  Composing a document hands
every directive to the first handler that takes it, and writes down what the handler answers.
Options of a directive are entries whose key is the name of the option after `$` or `!`.
-/

namespace Docweave

/-- What composing finds outside of the document. -/
structure Setting where
  files : Files
  now : Moment

/-- What a handler sees while it works. -/
structure Context where
  /-- The document as it is. -/
  document : Store
  /-- The node that holds the directive. -/
  path : Path
  /-- The markers of all handlers. -/
  markers : List String
  setting : Setting

/-- What a handler answers. -/
inductive Outcome where
  /-- The value takes the place of the directive, and is looked through again if it is a map or a
  list. -/
  | success (value : Value)
  /-- It is too early; the directive stays. -/
  | retry
  /-- The value takes the place of the directive for good. -/
  | completed (value : Value)
  /-- The value is composed as a document of its own before it takes the place for good. -/
  | separate (value : Value)

/-- The word for an outcome. -/
def Outcome.label : Outcome → String
  | .success _ => "success"
  | .retry => "retry"
  | .completed _ => "completed"
  | .separate _ => "separate-context"

/-- Answers one kind of directives, with a memory that all handlers share. -/
structure Handler (μ : Type) where
  name : String
  marker : String
  /-- Whether the handler takes a directive. -/
  takes : Fields → Bool := fun directive => Entries.contains directive marker
  /-- The answer to a directive.  The memory is kept also when that is a fault. -/
  compose : Fields → Context → ExceptT Fault (StateM μ) Outcome
  /-- Drops what the handler remembers. -/
  forget : μ → μ := id

namespace Handler

/-- The markers of handlers in order. -/
def markers {μ : Type} (handlers : List (Handler μ)) : List String :=
  handlers.map Handler.marker

/-- The first handler that takes a directive. -/
def find? {μ : Type} (handlers : List (Handler μ)) (directive : Fields) : Option (Handler μ) :=
  handlers.find? fun handler => handler.takes directive

/-- Drops what handlers remember. -/
def forgetAll {μ : Type} (handlers : List (Handler μ)) (memory : μ) : μ :=
  handlers.foldl (fun memory handler => handler.forget memory) memory

end Handler

/-- Whether a value is a map with one of the markers. -/
def isDirective (markers : List String) : Value → Bool
  | .map fields => markers.any fun marker => Entries.contains fields marker
  | _ => false

namespace Directive

/-- The value of an option. -/
def option? (directive : Fields) (name : String) : Option Value :=
  match Entries.find? directive ("$" ++ name) with
  | some v => some v
  | none => Entries.find? directive ("!" ++ name)

/-- Whether a key is one of the spellings of one of the options. -/
def isOption (names : List String) (key : String) : Bool :=
  names.any fun name => key == "$" ++ name || key == "!" ++ name

/-- The text under the marker. -/
def payload (directive : Fields) (marker : String) : Except Fault String :=
  match Entries.find? directive marker with
  | some (.text raw) => .ok raw
  | some v => .error (.input (.payloadNotText marker v))
  | none => .error (.input (.payloadMissing marker))

/-- The arguments by position, which are an option. -/
def positional (directive : Fields) (marker : String) : Except Fault (List Value) :=
  match option? directive "args" with
  | none | some .null => .ok []
  | some (.list items) => .ok items
  | some v => .error (.input (.argumentsNotList marker v))

/-- The arguments by keyword: every entry but the marker and the options. -/
def keywords (directive : Fields) (marker : String) (options : List String) : Fields :=
  directive.filter fun entry => entry.1 != marker && !isOption options entry.1

end Directive

end Docweave
