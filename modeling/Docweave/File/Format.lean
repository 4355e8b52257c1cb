import Docweave.Fault
import Docweave.File.Location
import Docweave.Json.Reader
import Docweave.Text.Word
import Docweave.Yaml.Reader

/-!
The formats of files, and how content in each becomes a document.
-/

namespace Docweave

/-- A format that files are written in. -/
inductive Format where
  | json
  | yaml
  | text
deriving DecidableEq

namespace Format

/-- The name of a format. -/
def label : Format → String
  | .json => "json"
  | .yaml => "yaml"
  | .text => "txt"

/-- The format with a name, in letters of either case. -/
def ofLabel? (label : String) : Option Format :=
  let name := label.toLower
  if name = "json" then some .json
  else if name = "yaml" ∨ name = "yml" then some .yaml
  else if name = "txt" ∨ name = "text" then some .text
  else none

/-- The format with a name, or the fault that there is none. -/
def ofLabel (label : String) : Except Fault Format :=
  match ofLabel? label with
  | some format => .ok format
  | none => .error (.input (.unknownFormat label))

/-- The format that the name of a file suggests; without a known extension it is text. -/
def ofLocation (location : String) : Format :=
  ((Location.extension? location).bind ofLabel?).getD .text

/-- The document that content in a format stands for. -/
def parse (format : Format) (content : String) : Except ContentFault Value :=
  match format with
  | .json =>
    if content.toList.all Text.isBlank then .error .blank
    else match Json.read content.toList with
      | .ok v => .ok v
      | .error fault => .error (.json fault content)
  | .yaml =>
    match Yaml.read content with
    | .ok v => .ok v
    | .error flaw => .error (.yaml flaw)
  | .text => .ok (.text content)

end Format

end Docweave
