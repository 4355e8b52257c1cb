import Docweave.Pointer.Escape
import Docweave.Pointer.Path
import Docweave.Text.Split

/-!
Pointers: the addresses that documents and their readers write down.

A plain pointer is empty for the whole document, or every segment with a slash before it.  A
reference directive (`!ref /a/b`) addresses a node by a plain pointer, but never the whole
document.  A file directive (`!file a.json`) holds a path that is taken literally.

The type holds exactly the pointers that can be written: a reference has a first segment and the
path of a file is not empty.
-/

namespace Docweave

/-- An address. -/
inductive Pointer where
  | plain (path : Path)
  | reference (first : String) (rest : Path)
  | file (path : String) (path_ne : path ≠ "")
deriving DecidableEq

namespace Pointer

/-- The mark of a reference directive. -/
def referenceMark : String := "!ref "

/-- The mark of a file directive. -/
def fileMark : String := "!file "

/-- What is wrong with a text that is not a pointer. -/
inductive Flaw where
  | notAPointer
  | badTarget
  | wholeDocument
  | emptyFile
deriving DecidableEq

/-- What a pointer has to look like. -/
def hint : String :=
  "pointer must be \"\" (whole document) or start with \"/\" (e.g. \"/a/b/c\")"

/-- The wording of a flaw. -/
def Flaw.message : Flaw → String
  | .notAPointer => hint
  | .badTarget => "reference target is not a valid pointer; " ++ hint
  | .wholeDocument => "referencing the whole document is not allowed"
  | .emptyFile => "file reference requires a non-empty path"

/-- The pointer to the whole document. -/
def root : Pointer := .plain []

/-- Whether the text is written as a reference directive. -/
def isReferenceText (raw : String) : Bool :=
  (Text.afterMark? referenceMark.toList raw.toList).isSome

/-- Whether the text is written as a file directive. -/
def isFileText (raw : String) : Bool :=
  (Text.afterMark? fileMark.toList raw.toList).isSome

/-- Reads a path: empty, or segments with a slash before each. -/
def pathOfChars : List Char → Except Flaw Path
  | [] => .ok []
  | c :: cs =>
    if c = '/' then
      .ok ((Text.splitOn '/' cs).map fun piece => String.ofList (unescapeChars piece))
    else .error .notAPointer

/-- Reads a plain pointer. -/
def parsePlain (raw : String) : Except Flaw Pointer :=
  (pathOfChars raw.toList).map .plain

/-- Reads a pointer of any kind. -/
def parse (raw : String) : Except Flaw Pointer :=
  match Text.afterMark? referenceMark.toList raw.toList with
  | some target =>
    match pathOfChars target with
    | .error _ => .error .badTarget
    | .ok [] => .error .wholeDocument
    | .ok (first :: rest) => .ok (.reference first rest)
  | none =>
    match Text.afterMark? fileMark.toList raw.toList with
    | some target =>
      if h : String.ofList target ≠ "" then .ok (.file (String.ofList target) h)
      else .error .emptyFile
    | none => parsePlain raw

/-- The path of the addressed node; a file directive addresses none. -/
def path? : Pointer → Option Path
  | .plain path => some path
  | .reference first rest => some (first :: rest)
  | .file _ _ => none

/-- The segments; the root and file directives have none. -/
def segments (p : Pointer) : Path :=
  p.path?.getD []

/-- The path of a file directive. -/
def file? : Pointer → Option String
  | .file path _ => some path
  | _ => none

/-- Whether the pointer addresses the whole document. -/
def isRoot : Pointer → Bool
  | .plain [] => true
  | _ => false

/-- The last segment. -/
def last? (p : Pointer) : Option String :=
  p.segments.getLast?

/-- The plain pointer to the same node; a file directive stays as it is. -/
def asPlain : Pointer → Pointer
  | .reference first rest => .plain (first :: rest)
  | p => p

/-- The pointer to the node above; the root is above itself. -/
def parent (p : Pointer) : Pointer :=
  .plain p.segments.parent

/-- The pointer to a child. -/
def child (p : Pointer) (segment : String) : Pointer :=
  .plain (p.segments.child segment)

/-- The pointer to the node that the second pointer addresses from this node. -/
def join (p sub : Pointer) : Pointer :=
  .plain (p.segments ++ sub.segments)

/-- Whether the first pointer lies strictly below the second.  File directives lie nowhere. -/
def isBelow (p q : Pointer) : Bool :=
  match p.path?, q.path? with
  | some a, some b => a.isBelow b
  | _, _ => false

/-- Equality of addresses: a reference and a plain pointer to one node are the same. -/
def same (p q : Pointer) : Bool :=
  p.asPlain == q.asPlain

/-- The characters of a path: every segment escaped, with a slash before it. -/
def charsOfPath (path : Path) : List Char :=
  path.flatMap fun segment => '/' :: escapeChars segment.toList

/-- The text of a path. -/
def textOfPath (path : Path) : String :=
  String.ofList (charsOfPath path)

/-- The text of a pointer. -/
def render : Pointer → String
  | .plain path => textOfPath path
  | .reference first rest => referenceMark ++ textOfPath (first :: rest)
  | .file path _ => fileMark ++ path

end Pointer

end Docweave
