import Docweave.File.Files
import Docweave.File.Format

/-!
Reading the files that documents name.

A file is named by a location seen from a base directory, if there is one, and is known by the
normal form of the two together.
-/

namespace Docweave

/-- What locations are seen from. -/
structure Reader where
  base? : Option String

namespace Reader

/-- The normal form of a location, seen from the base directory. -/
def resolve (reader : Reader) (raw : String) : String :=
  match reader.base? with
  | some base => Location.normalText (Location.join base raw)
  | none => Location.normalText raw

/-- The content of the file at a location that is resolved already, in a format. -/
def readAt (files : Files) (format : Format) (location : String) : Except Fault Value :=
  match files.read location with
  | .error cause => .error (.file location cause)
  | .ok content =>
    match format.parse content with
    | .ok v => .ok v
    | .error cause => .error (.content location cause)

/-- The content of the file at a location that is resolved already, in the format that its name
suggests. -/
def load (files : Files) (location : String) : Except Fault Value :=
  readAt files (Format.ofLocation location) location

/-- The content of the file that a location names. -/
def read (reader : Reader) (files : Files) (raw : String) (format? : Option Format) :
    Except Fault Value :=
  let location := reader.resolve raw
  readAt files (format?.getD (Format.ofLocation location)) location

end Reader

end Docweave
