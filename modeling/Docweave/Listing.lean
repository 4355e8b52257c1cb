import Docweave.Json.Writer
import Docweave.Pointer

/-!
Documents as a reader is shown them: whole, or leaf by leaf.
-/

namespace Docweave

namespace Listing

/-- The text of a document, on one line or indented. -/
def document (compact : Bool) (v : Value) : String :=
  if compact then Json.compact v else Json.pretty v

/-- The line of a leaf: its pointer, a tab, and its text.  The root is shown as two quotes. -/
def leafLine (leaf : Path × Value) : String :=
  (if leaf.1 = [] then "\"\"" else Pointer.textOfPath leaf.1) ++ "\t" ++ Json.compact leaf.2

/-- The lines of all leaves. -/
def leaves (leaves : List (Path × Value)) : String :=
  "\n".intercalate (leaves.map leafLine)

end Listing

end Docweave
