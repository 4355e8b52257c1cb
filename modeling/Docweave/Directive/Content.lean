import Docweave.Directive.Memory
import Docweave.File.Reader

/-!
Directives that stand for the content of a file.

A file directive stands for a document, and what is in it is composed where it is put.  An include
directive stands for content in a format that it names or that its location suggests; the content
is left as it is, or composed on its own first.
-/

namespace Docweave

/-- How files are looked up. -/
structure FileAccess where
  reader : Reader
  caching : Bool

namespace Directive

/-- The marker of files. -/
def fileMarker : String := "!file"

/-- The marker of included files. -/
def includeMarker : String := "!include"

/-- An include as it is written. -/
structure Inclusion where
  location : String
  format : Format
  compose : Bool

/-- Whether the content of an include is to be composed. -/
def wantsCompose (directive : Fields) : Except Fault Bool :=
  match option? directive "compose" with
  | none => .ok false
  | some (.bool b) => .ok b
  | some v => .error (.input (.composeNotFlag v))

/-- The format that an include names or that its location suggests. -/
def formatFor (directive : Fields) (location : String) : Except Fault Format :=
  match option? directive "format" with
  | none => .ok (Format.ofLocation location)
  | some (.text label) => Format.ofLabel label
  | some v => .error (.input (.formatNotText v))

/-- Reads an include. -/
def Inclusion.read (reader : Reader) (directive : Fields) : Except Fault Inclusion := do
  let raw ← payload directive includeMarker
  let compose ← wantsCompose directive
  let location := reader.resolve raw
  let format ← formatFor directive location
  .ok ⟨location, format, compose⟩

/-- What included content is remembered by. -/
def Inclusion.key (inclusion : Inclusion) : String :=
  inclusion.format.label ++ ":" ++ inclusion.location

/-- What becomes of included content. -/
def Inclusion.outcome (inclusion : Inclusion) (v : Value) : Outcome :=
  if inclusion.compose then .separate v else .completed v

end Directive

namespace Handler

/-- The handler of files. -/
def file {σ : Type} (access : FileAccess) : Handler (Memory σ) where
  name := "FileReference"
  marker := Directive.fileMarker
  compose := fun directive context memory =>
    match Directive.payload directive Directive.fileMarker with
    | .error fault => (.error fault, memory)
    | .ok raw =>
      let read := access.reader.read context.setting.files raw (some .json)
      match remembered access.caching memory.files (access.reader.resolve raw) read with
      | .ok (v, files) => (.ok (.success v), { memory with files })
      | .error fault => (.error fault, memory)
  forget := fun memory => { memory with files := [] }

/-- The handler of included files. -/
def inclusion {σ : Type} (access : FileAccess) : Handler (Memory σ) where
  name := "IncludeFile"
  marker := Directive.includeMarker
  compose := fun directive context memory =>
    match Directive.Inclusion.read access.reader directive with
    | .error fault => (.error fault, memory)
    | .ok inclusion =>
      let read := Reader.readAt context.setting.files inclusion.format inclusion.location
      match remembered access.caching memory.includes inclusion.key read with
      | .ok (v, includes) => (.ok (inclusion.outcome v), { memory with includes })
      | .error fault => (.error fault, memory)
  forget := fun memory => { memory with includes := [] }

end Handler

end Docweave
