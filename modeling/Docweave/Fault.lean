import Docweave.Json.Fault
import Docweave.Json.Writer
import Docweave.Pointer
import Docweave.Yaml.Flaw

/-!
Everything that can go wrong, by cause.

A fault keeps the values it is about; its wording is `Fault.message` and nothing else.  Two kinds
wrap another fault to say where it arose: `composition` and `resolution`.  `Fault.rootCause` looks
through them.
-/

namespace Docweave

/-! ### Causes -/

/-- Why a look-up does not find a node.  `node` is the path of the last node on the way. -/
inductive Miss where
  | key (node : Path) (key : String)
  | index (node : Path) (token : String)
  | range (node : Path) (index length : Nat)
  | scalar (node : Path)
  | slot (node : Path) (token : String) (length : Nat)
  | unlisted

/-- Why an operation is refused. -/
inductive Refusal where
  | filePointer
  | wholeDocument
  | scalarParent (node : Path)
  | rootDirective
  | contextDepth (levels : Nat)
  | onlyMaps
deriving DecidableEq

/-- What a link of a chain of directives leads to. -/
inductive TargetKind where
  | reference
  | file
deriving DecidableEq

/-- A link of a chain of directives: the node whose value is sought, and the target it names. -/
structure Link where
  node : String
  target : String
deriving DecidableEq

/-- A node that was left when composition came to a standstill, with its value. -/
structure Leftover where
  pointer : Path
  value : Value

/-- What a parameter asks for. -/
inductive ParamType where
  | text
  | flag
  | number
  | integer
deriving DecidableEq

/-- What a descriptor asks for. -/
inductive DescriptorPart where
  | name
  | arguments
deriving DecidableEq

/-- Why a generator or a matcher cannot be called or built. -/
inductive CallFault where
  | tooManyArguments (most given : Nat)
  | unexpectedKeyword (key : String)
  | repeatedArgument (key : String)
  | missingArgument (label : String)
  | wrongType (label : String) (expected : ParamType) (got : Value)
  | outOfRange (label : String)
  | negative (label : String)
  | emptyInterval (min max : Int)
  | badOptions (got : Value)
  | badPattern (reason : String)
  | numberLimits (min max : Double)
  | sizeLimits (min max : Nat)
  | dateLimits (earliest latest : String)
  | offsetTooFar (text : String)
  | badOffset (text : String)
  | notADate (text : String)
  | malformedDescriptor (part : DescriptorPart) (got : Value)
  | notRegistered
  | alreadyRegistered

/-- What a call is made to. -/
inductive Owner where
  | generator
  | matcher
deriving DecidableEq

/-- Why a file cannot be read. -/
inductive FileFault where
  | missing
  | directory
  | notDirectory
  | notText
  | badName
  | unread
  | other (message : String)
deriving DecidableEq

/-- Why the content of a file is not a document. -/
inductive ContentFault where
  | blank
  | json (fault : Json.Fault) (content : String)
  | yaml (flaw : Yaml.Flaw)

/-- Why something that was handed in cannot be used. -/
inductive InputFault where
  | payloadNotText (marker : String) (got : Value)
  | payloadMissing (marker : String)
  | optionNotPointers (option : String) (got : Value)
  | optionNotPointer (option : String) (got : Value)
  | extensionsNotMap (got : Value)
  | argumentsNotList (marker : String) (got : Value)
  | badId (got : Value)
  | composeNotFlag (got : Value)
  | formatNotText (got : Value)
  | unknownFormat (label : String)
  | scalarFile (path : String)
  | scalarDocument (got : Value)
  | custom (message : String)

/-- What went wrong. -/
inductive Fault where
  | malformed (input : String) (flaw : Pointer.Flaw)
  | notFound (pointer : Pointer) (miss : Miss)
  | refused (pointer : Pointer) (cause : Refusal)
  | cycle (kind : TargetKind) (target : String) (chain : List Link)
  | unresolvable (nodes : List Leftover)
  | resolution (directive node : String) (source : Fault)
  | composition (pointer : Pointer) (source : Fault)
  | call (owner : Owner) (name : String) (cause : CallFault)
  | file (path : String) (cause : FileFault)
  | content (path : String) (cause : ContentFault)
  | input (cause : InputFault)
  | exhausted

/-- The kind of a fault, without what it is about. -/
inductive FaultKind where
  | malformed
  | notFound
  | refused
  | cycle
  | unresolvable
  | resolution
  | composition
  | generator
  | matcher
  | file
  | content
  | input
  | exhausted
deriving DecidableEq

/-! ### Wording -/

/-- A text in quotation marks, as it stands. -/
def quoted (s : String) : String :=
  "\"" ++ s ++ "\""

/-- The node at a path, in quotation marks. -/
def quotedPath (path : Path) : String :=
  quoted (Pointer.textOfPath path)

/-- The wording of a failed look-up. -/
def Miss.message : Miss → String
  | .key node name =>
    "key " ++ quoted name ++ " is not present in node " ++ quotedPath node
  | .index node token =>
    "invalid sequence index " ++ quoted token ++ " at node " ++ quotedPath node
      ++ "; index must be a non-negative integer in range (or \"-\" to append on update)"
  | .range node i length =>
    s!"index {i} is out of range for node " ++ quotedPath node ++ s!" of length {length}"
  | .scalar node =>
    "node " ++ quotedPath node ++ " is not a map or sequence"
  | .slot node token length =>
    "invalid or out of range sequence index " ++ quoted token ++ " for node " ++ quotedPath node
      ++ s!" of length {length}; use an in-range index or \"-\" to append"
  | .unlisted =>
    "pointer refers to a non-existing node, or the document was modified "
      ++ "directly (call recalculate() to restore integrity)"

/-- The wording of a refusal. -/
def Refusal.message : Refusal → String
  | .filePointer => "file pointers do not address document nodes"
  | .wholeDocument =>
    "direct root modification is not allowed, a non-root pointer is required"
  | .scalarParent node => "node " ++ quotedPath node ++ " is not a map or sequence"
  | .rootDirective => "a directive cannot replace the whole document"
  | .contextDepth levels =>
    s!"separate composition contexts nested deeper than {levels} levels"
  | .onlyMaps => "only maps can be extended or trimmed"

/-- The name of a kind of target. -/
def TargetKind.label : TargetKind → String
  | .reference => "Reference"
  | .file => "File"

/-- A line about a link. -/
def Link.line (link : Link) : String :=
  "  node " ++ quoted link.node ++ " -> " ++ quoted link.target

/-- A line about a node that was left. -/
def Leftover.line (leftover : Leftover) : String :=
  "  - node " ++ quotedPath leftover.pointer ++ ", current value: " ++ Json.compact leftover.value

/-- What a parameter asks for, in words. -/
def ParamType.label : ParamType → String
  | .text => "a string"
  | .flag => "a boolean"
  | .number => "a number"
  | .integer => "an integer"

/-- What a descriptor asks for, in words. -/
def DescriptorPart.label : DescriptorPart → String
  | .name => "a string"
  | .arguments => "a sequence"

/-- A value as the report of a malformed descriptor names it. -/
def describeUnexpected : Value → String
  | .null => "null"
  | .bool b => s!"boolean `{b}`"
  | .number (.integer i) => s!"integer `{i}`"
  | .number (.float d) => "floating point `" ++ d.render Layout.document ++ "`"
  | .text s => "string " ++ quoted s
  | .list _ => "sequence"
  | .map _ => "map"

/-- The wording of a failed call. -/
def CallFault.message : CallFault → String
  | .tooManyArguments most given =>
    s!"takes at most {most} positional argument(s), {given} given"
  | .unexpectedKeyword key => "unexpected keyword argument " ++ quoted key
  | .repeatedArgument key => "got multiple values for argument " ++ quoted key
  | .missingArgument label => "missing required argument " ++ quoted label
  | .wrongType label expected got =>
    quoted label ++ " must be " ++ expected.label ++ ", got " ++ Json.compact got
  | .outOfRange label => quoted label ++ " is out of range"
  | .negative label => quoted label ++ " must not be negative"
  | .emptyInterval min max => s!"min ({min}) is greater than max ({max})"
  | .badOptions got => "\"options\" must be a non-empty list, got " ++ Json.compact got
  | .badPattern reason => "invalid pattern: " ++ reason
  | .numberLimits min max =>
    "invalid range limits, \"min_number\" must not exceed \"max_number\" but "
      ++ min.render Layout.sentence ++ " > " ++ max.render Layout.sentence
  | .sizeLimits min max =>
    "invalid range limits, \"min_size\" must be less than \"max_size\" but "
      ++ s!"{min} >= {max}"
  | .dateLimits earliest latest =>
    "invalid range limits, \"date_from\" must not be later than \"date_to\" but "
      ++ earliest ++ " > " ++ latest
  | .offsetTooFar text => "offset " ++ quoted text ++ " is out of range"
  | .badOffset text => "invalid offset amount in " ++ quoted text
  | .notADate text =>
    quoted text ++ " is neither an ISO 8601 date nor an offset such as \"now\" or \"-2d\""
  | .malformedDescriptor part got =>
    "malformed descriptor: invalid type: " ++ describeUnexpected got ++ ", expected " ++ part.label
  | .notRegistered => "not registered"
  | .alreadyRegistered => "already registered"

/-- The word for what a call is made to. -/
def Owner.label : Owner → String
  | .generator => "Generator"
  | .matcher => "Matcher"

/-- The wording of a file that cannot be read. -/
def FileFault.message : FileFault → String
  | .missing => "No such file or directory (os error 2)"
  | .directory => "Is a directory (os error 21)"
  | .notDirectory => "Not a directory (os error 20)"
  | .notText => "stream did not contain valid UTF-8"
  | .badName => "file name contained an unexpected NUL byte"
  | .unread => "not read yet"
  | .other message => message

/-- The wording of content that is not a document. -/
def ContentFault.message : ContentFault → String
  | .blank => "no content to parse"
  | .json fault content => fault.report content.toList
  | .yaml flaw => flaw.message

/-- The wording of input that cannot be used. -/
def InputFault.message : InputFault → String
  | .payloadNotText marker got => quoted marker ++ " expects a string, got " ++ Json.compact got
  | .payloadMissing marker => quoted marker ++ " is missing"
  | .optionNotPointers option got =>
    quoted ("$" ++ option) ++ " expects a list of pointers, got " ++ Json.compact got
  | .optionNotPointer option got =>
    quoted ("$" ++ option) ++ " expects pointer strings, got " ++ Json.compact got
  | .extensionsNotMap got =>
    "\"$extend\" expects a map of pointer to value, got " ++ Json.compact got
  | .argumentsNotList marker got =>
    "\"$args\" of " ++ marker ++ " expects a list, got " ++ Json.compact got
  | .badId got => "\"$id\" expects a string or number, got " ++ Json.compact got
  | .composeNotFlag got => "\"$compose\" expects a boolean, got " ++ Json.compact got
  | .formatNotText got => "\"$format\" expects a format name, got " ++ Json.compact got
  | .unknownFormat label => "unknown data format '" ++ label ++ "' (use json, yaml or txt)"
  | .scalarFile path => "Document must be a map or a sequence: " ++ path
  | .scalarDocument got => "content must be a map or a sequence, got " ++ Json.compact got
  | .custom message => message

namespace Fault

/-- The wording of a fault, the faults it wraps included. -/
def message : Fault → String
  | .malformed raw flaw =>
    "Invalid pointer syntax " ++ quoted raw ++ ": " ++ flaw.message
  | .notFound pointer miss =>
    "Failed to find value by " ++ quoted pointer.render ++ ": " ++ miss.message
  | .refused pointer cause =>
    "Invalid operation at " ++ quoted pointer.render ++ ": " ++ cause.message
  | .cycle kind target chain =>
    "Recursion detected! " ++ kind.label ++ " " ++ quoted target
      ++ " already in the stack.\nFull stack:\n" ++ "\n".intercalate (chain.map Link.line)
  | .unresolvable nodes =>
    "Unresolved compositions remain for nodes:\n" ++ "\n".intercalate (nodes.map Leftover.line)
      ++ "\nPossible causes: references to non-existent nodes, recursive references or an "
      ++ "unresolvable reference order"
  | .resolution directive node source =>
    "Failed to resolve " ++ quoted directive ++ " at node " ++ quoted node ++ ": " ++ source.message
  | .composition pointer source =>
    "Error occurred on composing value at pointer " ++ quoted pointer.render ++ ": "
      ++ source.message
  | .call owner name cause => owner.label ++ " " ++ quoted name ++ ": " ++ cause.message
  | .file path cause => "I/O error for " ++ quoted path ++ ": " ++ cause.message
  | .content path cause => "Failed to parse " ++ quoted path ++ ": " ++ cause.message
  | .input cause => "Invalid input: " ++ cause.message
  | .exhausted => "Gave up: the limit of work was reached before the document settled"

/-- The innermost fault. -/
def rootCause : Fault → Fault
  | .resolution _ _ source => rootCause source
  | .composition _ source => rootCause source
  | fault => fault

/-- The kind of a fault. -/
def kind : Fault → FaultKind
  | .malformed _ _ => .malformed
  | .notFound _ _ => .notFound
  | .refused _ _ => .refused
  | .cycle _ _ _ => .cycle
  | .unresolvable _ => .unresolvable
  | .resolution _ _ _ => .resolution
  | .composition _ _ => .composition
  | .call .generator _ _ => .generator
  | .call .matcher _ _ => .matcher
  | .file _ _ => .file
  | .content _ _ => .content
  | .input _ => .input
  | .exhausted => .exhausted

/-- Whether the fault wraps another. -/
def isWrapper : Fault → Bool
  | .resolution _ _ _ | .composition _ _ => true
  | _ => false

/-- The report for a reader: the fault, and below it the innermost one if that is another. -/
def report (fault : Fault) : String :=
  if fault.isWrapper then
    "Error: " ++ fault.message ++ "\nCaused by: " ++ fault.rootCause.message
  else "Error: " ++ fault.message

end Fault

/-! ### Work -/

/-- Work that may fail, and that may never end, which is `none`. -/
abbrev Work : Type → Type := ExceptT Fault Option

/-! ### Reading pointers -/

/-- Reads a pointer of any kind, or tells what is wrong with it. -/
def Pointer.ofText (raw : String) : Except Fault Pointer :=
  match Pointer.parse raw with
  | .ok pointer => .ok pointer
  | .error flaw => .error (.malformed raw flaw)

/-- Reads a plain pointer, or tells what is wrong with it. -/
def Pointer.plainOfText (raw : String) : Except Fault Pointer :=
  match Pointer.parsePlain raw with
  | .ok pointer => .ok pointer
  | .error flaw => .error (.malformed raw flaw)

end Docweave
