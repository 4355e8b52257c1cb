import Docweave.Composer
import Docweave.Directive.Content
import Docweave.Directive.Copy
import Docweave.Directive.Made
import Docweave.Resolver

/-!
Composing documents with the standard handlers.
-/

namespace Docweave

/-- How a document is composed. -/
structure ComposeOptions where
  backend : Backend := .indexed
  caching : Bool := false
  base? : Option String := none
  maxDepth : Nat := 32

/-- The standard handlers in order: copies, content of files, made values, matchers. -/
def Handler.standard {σ : Type} (generators : Generators σ) (matchers : Matchers)
    (access : FileAccess) : List (Handler (Memory σ)) :=
  [.reference, .overlay, .file access, .inclusion access, .generator generators,
    .matcher matchers]

/-- A composer with the standard handlers. -/
def Composer.standard {σ : Type} (generators : Generators σ) (world : σ)
    (options : ComposeOptions) (content : Value) : Composer (Memory σ) :=
  Composer.new (Store.wrap options.backend content)
    (Handler.standard generators Matchers.standard ⟨⟨options.base?⟩, options.caching⟩)
    options.maxDepth (Memory.start world)

/-- The document with every directive composed. -/
def composeValue {σ : Type} (setting : Setting) (generators : Generators σ) (world : σ)
    (options : ComposeOptions) (content : Value) : Work Value :=
  match (Composer.standard generators world options content).compose setting with
  | none => none
  | some (.ok (), composer) => some (.ok composer.store.content)
  | some (.error fault, _) => some (.error fault)

/-- The node a pointer addresses, with every directive in it composed; the rest of the document
stays as it is. -/
def composeNode {σ : Type} (setting : Setting) (generators : Generators σ) (world : σ)
    (options : ComposeOptions) (content : Value) (pointer : Pointer) : Work Value :=
  match (Composer.standard generators world options content).composeAt setting pointer with
  | none => none
  | some (.ok (), composer) => some (composer.store.get pointer)
  | some (.error fault, _) => some (.error fault)

/-- The document in a file with every directive composed. -/
def composeFile {σ : Type} (setting : Setting) (generators : Generators σ) (world : σ)
    (options : ComposeOptions) (location : String) : Work Value :=
  match loadContainer setting.files location with
  | .ok content => composeValue setting generators world options content
  | .error fault => throw fault

end Docweave
