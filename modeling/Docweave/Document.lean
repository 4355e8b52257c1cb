import Docweave.Resolver
import Docweave.Text.Quoted

/-!
A document that is read and written by the text of pointers.

It is a map or a list behind a store.  If references are allowed, its directive texts are resolved
when it is opened, and those of every value when it is written.
-/

namespace Docweave

/-- A document, with a resolver if references are allowed. -/
structure Document where
  store : Store
  resolver? : Option Resolver

/-- Where a document comes from. -/
inductive Document.Source where
  | data (content : Value)
  | file (location : String)

/-- How a document is opened. -/
structure Document.Options where
  source : Document.Source := .data .empty
  references : Bool := false
  caching : Bool := false
  backend : Backend := .direct
  base? : Option String := none

namespace Document

/-- The content that a source gives. -/
def Source.load (files : Files) : Source → Except Fault Value
  | .data content => .ok content
  | .file location => Reader.load files location

/-- Opens a document. -/
def ofOptions (files : Files) (options : Options) : Except Fault Document :=
  match options.source.load files with
  | .error fault => .error fault
  | .ok content =>
    if !content.isContainer then .error (.input (.scalarDocument content))
    else
      let store := Store.wrap options.backend content
      if options.references then
        match Resolver.resolveAll files store (Resolver.new options.caching options.base?) with
        | (.ok (), store, resolver) => .ok ⟨store, some resolver⟩
        | (.error fault, _, _) => .error fault
      else .ok ⟨store, none⟩

/-- Opens a document with nothing but its content. -/
def ofValue (content : Value) : Except Fault Document :=
  ofOptions .none { source := .data content }

/-- The content. -/
def content (d : Document) : Value :=
  d.store.content

/-- The node a pointer addresses. -/
def get (d : Document) (raw : String) : Except Fault Value :=
  match Pointer.ofText raw with
  | .ok pointer => d.store.get pointer
  | .error fault => .error fault

/-- Whether a pointer addresses a node; what is not a pointer addresses none. -/
def has (d : Document) (raw : String) : Bool :=
  match Pointer.ofText raw with
  | .ok pointer => d.store.has pointer
  | .error _ => false

/-- The node a pointer addresses, or a default. -/
def getD (d : Document) (raw : String) (default : Value) : Value :=
  match Pointer.ofText raw with
  | .ok pointer => d.store.getD pointer default
  | .error _ => default

/-- Writes a value, with its directives resolved first if references are allowed.  The resolver may
remember more afterwards, also when the write fails. -/
def update (files : Files) (d : Document) (raw : String) (new : Value) :
    Except Fault Unit × Document :=
  match Pointer.ofText raw with
  | .error fault => (.error fault, d)
  | .ok pointer =>
    let (resolved, d) : Except Fault Value × Document := match d.resolver? with
      | none => (.ok new, d)
      | some resolver =>
        let (result, resolver) := Resolver.resolve files d.store new "<update>" resolver
        (result, { d with resolver? := some resolver })
    match resolved with
    | .error fault => (.error fault, d)
    | .ok v =>
      match d.store.update pointer v with
      | .error fault => (.error fault, d)
      | .ok store => (.ok (), { d with store })

/-- Removes the node that a pointer addresses, if there is one. -/
def deleteOne (d : Document) (raw : String) : Document :=
  match Pointer.ofText raw with
  | .error _ => d
  | .ok pointer => { d with store := (d.store.delete? pointer).getD d.store }

/-- Removes the nodes that the pointers address, one after the other. -/
def delete (d : Document) (raws : List String) : Document :=
  raws.foldl deleteOne d

/-- Forgets what directives resolved to. -/
def forget (d : Document) : Document :=
  { d with resolver? := d.resolver?.map Resolver.forget }

/-- Whether references are allowed. -/
def allowsReferences (d : Document) : Bool :=
  d.resolver?.isSome

/-- The leaves of the document. -/
def leaves (d : Document) : List (Path × Value) :=
  d.store.leaves

/-- The text of the document. -/
def render (d : Document) : String :=
  Json.compact d.content

/-- How a document is opened, in a word for each choice. -/
def summary (d : Document) : String :=
  let backend := match d.store.backend with
    | .direct => "Direct"
    | .indexed => "Indexed"
  let references := if d.allowsReferences then "true" else "false"
  "JsonDocument \x7b wrapper: " ++ backend ++ ", references: " ++ references ++ " \x7d"

end Document

end Docweave
