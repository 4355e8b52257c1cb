import Docweave.File.Reader
import Docweave.Store

/-!
Resolving directives that are written as texts.

Any text `!ref /a/b` stands for the node at that path, and any text `!file a.json` for the content
of that file; what they stand for is resolved in turn before it takes their place.  The resolver
remembers which targets it is in the middle of, so a target that reaches itself is a fault, and
under which names it came to the value at hand, so that a fault tells where it arose.  With
caching on it also remembers what each target resolved to.
-/

namespace Docweave

/-- What a resolver remembers. -/
structure Resolver where
  caching : Bool
  reader : Reader
  /-- What reference directives resolved to, by their text. -/
  references : Entries Value
  /-- What files resolved to, by their normal location. -/
  files : Entries Value
  /-- The targets in progress, the first one first. -/
  stack : List Link
  /-- The names down to the value at hand. -/
  names : List String

/-- Resolving changes the resolver, also when it fails. -/
abbrev Resolving : Type → Type := ExceptT Fault (StateM Resolver)

namespace Resolver

/-- A resolver that remembers nothing yet. -/
def new (caching : Bool) (base? : Option String) : Resolver :=
  ⟨caching, ⟨base?⟩, [], [], [], []⟩

/-- Forgets what targets resolved to. -/
def forget (r : Resolver) : Resolver :=
  { r with references := [], files := [] }

/-- The names down to the value at hand as a path. -/
def nodePath (r : Resolver) : String :=
  String.join ((r.names.filter (· ≠ "")).map ("/" ++ ·))

/-- Acts on a value under one more name. -/
def named {α : Type} (name : String) (act : Resolving α) : Resolving α := fun r =>
  let (result, r) := act { r with names := r.names ++ [name] }
  (result, { r with names := r.names.dropLast })

/-- Acts while a target is in progress; a target that is in progress already is a cycle. -/
def entered {α : Type} (kind : TargetKind) (target : String) (act : Resolving α) :
    Resolving α := fun r =>
  let link : Link := ⟨r.nodePath, target⟩
  if r.stack.any fun frame => frame.target == target then
    (.error (.cycle kind target (r.stack ++ [link])), r)
  else
    let (result, r) := act { r with stack := r.stack ++ [link] }
    (result, { r with stack := r.stack.dropLast })

/-- Looks a target up before acting, and remembers the result, if caching is on. -/
def cached (entries : Resolver → Entries Value)
    (remember : Resolver → Entries Value → Resolver) (key : String) (act : Resolving Value) :
    Resolving Value := fun r =>
  match if r.caching then Entries.find? (entries r) key else none with
  | some v => (.ok v, r)
  | none =>
    match act r with
    | (.ok v, r) => (.ok v, if r.caching then remember r (Entries.insert (entries r) key v) else r)
    | (.error fault, r) => (.error fault, r)

/-- Finds what a directive stands for, or fails with the directive and the node it is in. -/
def located (raw : String) (found : Except Fault Value) : Resolving Value := fun r =>
  match found with
  | .ok v => (.ok v, r)
  | .error source => (.error (.resolution raw r.nodePath source), r)

mutual

/-- Resolves every directive in a value; `follow` resolves one directive. -/
def value (follow : String → Resolving Value) : Value → Resolving Value
  | .map fields => do pure (.map (← valueFields follow fields))
  | .list items => do pure (.list (← valueItems follow 0 items))
  | .text raw =>
    if Pointer.isReferenceText raw || Pointer.isFileText raw then follow raw
    else pure (.text raw)
  | .null => pure .null
  | .bool b => pure (.bool b)
  | .number n => pure (.number n)

/-- Resolves the entries of a map, each under its key. -/
def valueFields (follow : String → Resolving Value) :
    List (String × Value) → Resolving (List (String × Value))
  | [] => pure []
  | (key, v) :: es => do
    let v ← named key (value follow v)
    let es ← valueFields follow es
    pure ((key, v) :: es)

/-- Resolves the elements of a list from a position on, each under its position. -/
def valueItems (follow : String → Resolving Value) :
    Nat → List Value → Resolving (List Value)
  | _, [] => pure []
  | i, v :: vs => do
    let v ← named (toString i) (value follow v)
    let vs ← valueItems follow (i + 1) vs
    pure (v :: vs)

end

/-- Resolves a reference directive; `inner` resolves the node it addresses. -/
def reference (document : Store) (inner : String → Value → Resolving Value) (raw : String) :
    Resolving Value := do
  let pointer ← Pointer.ofText raw
  cached Resolver.references (fun r entries => { r with references := entries }) pointer.render <|
    entered .reference pointer.render do
      let v ← located raw (document.get pointer)
      inner ("<by ref>" ++ pointer.asPlain.render) v

/-- Resolves a file directive; `inner` resolves the content of the file. -/
def file (files : Files) (inner : String → Value → Resolving Value) (raw : String) :
    Resolving Value := do
  let pointer ← Pointer.ofText raw
  let path := pointer.file?.getD ""
  let reader := (← get).reader
  let key := reader.resolve path
  cached Resolver.files (fun r entries => { r with files := entries }) key <|
    entered .file (Pointer.fileMark ++ key) do
      let v ← located raw (reader.read files path none)
      inner "<from file>" v

/-- Resolves one directive, and what it stands for with it; so many more targets may lie in one
another. -/
def follow (files : Files) (document : Store) : Nat → String → Resolving Value
  | 0, _ => throw .exhausted
  | depth + 1, raw =>
    let inner (name : String) (v : Value) : Resolving Value :=
      named name (value (follow files document depth) v)
    if Pointer.isReferenceText raw then reference document inner raw
    else file files inner raw

/-- How deep targets can lie in one another.  Each is a node of the document or a file that can be
read, and none is entered while it is in progress. -/
def depth (files : Files) (document : Store) : Nat :=
  document.content.size + files.readable.length + 1

/-- Resolves a value against a document; `context` names the node it belongs to. -/
def resolve (files : Files) (document : Store) (v : Value) (context : String) : Resolving Value :=
  named context (value (follow files document (depth files document)) v)

/-- The paths of the children of a document. -/
def childPaths : Value → List Path
  | .map fields => fields.map fun e => [e.1]
  | .list items => (List.range items.length).map fun i => [toString i]
  | _ => []

/-- Resolves children of a document one after the other and writes each back before the next. -/
def resolveChildren (files : Files) :
    List Path → Store → Resolver → Except Fault Unit × Store × Resolver
  | [], store, r => (.ok (), store, r)
  | path :: paths, store, r =>
    let pointer := Pointer.plain path
    match store.get pointer with
    | .error fault => (.error fault, store, r)
    | .ok v =>
      match resolve files store v (path.getLast?.getD "") r with
      | (.error fault, r) => (.error fault, store, r)
      | (.ok v, r) =>
        match store.update pointer v with
        | .error fault => (.error fault, store, r)
        | .ok store => resolveChildren files paths store r

/-- Resolves every directive of a document. -/
def resolveAll (files : Files) (store : Store) (r : Resolver) :
    Except Fault Unit × Store × Resolver :=
  resolveChildren files (childPaths store.content) store r

end Resolver

/-- How a document is resolved. -/
structure ResolveOptions where
  backend : Backend := .direct
  caching : Bool := false
  base? : Option String := none

/-- The document with every directive text resolved. -/
def resolveValue (files : Files) (options : ResolveOptions) (content : Value) :
    Except Fault Value :=
  match Resolver.resolveAll files (Store.wrap options.backend content)
      (Resolver.new options.caching options.base?) with
  | (.ok (), store, _) => .ok store.content
  | (.error fault, _, _) => .error fault

/-- The content of a file, if it is a map or a list. -/
def loadContainer (files : Files) (location : String) : Except Fault Value :=
  match Reader.load files location with
  | .error fault => .error fault
  | .ok v => if v.isContainer then .ok v else .error (.input (.scalarFile location))

/-- The document in a file with every directive text resolved. -/
def resolveFile (files : Files) (options : ResolveOptions) (location : String) :
    Except Fault Value :=
  match loadContainer files location with
  | .ok content => resolveValue files options content
  | .error fault => .error fault

end Docweave
