import Docweave.Directive

/-!
What the standard handlers remember: content of files, and values that are made once and used
again.  Behind that stands a state that generators draw from.
-/

namespace Docweave

/-- What the standard handlers remember. -/
structure Memory (σ : Type) where
  /-- Documents in files, by location. -/
  files : Entries Value
  /-- Included content, by format and location. -/
  includes : Entries Value
  /-- Made values, by generator and the name that they share. -/
  made : Entries Value
  /-- The state that generators draw from. -/
  world : σ

namespace Memory

/-- The memory before anything happens. -/
def start {σ : Type} (world : σ) : Memory σ :=
  ⟨[], [], [], world⟩

end Memory

/-- What reading gives, if nothing is remembered under a key. -/
def remembered (caching : Bool) (entries : Entries Value) (key : String)
    (read : Except Fault Value) : Except Fault (Value × Entries Value) :=
  match if caching then Entries.find? entries key else none with
  | some v => .ok (v, entries)
  | none =>
    match read with
    | .ok v => .ok (v, if caching then Entries.insert entries key v else entries)
    | .error fault => .error fault

end Docweave
