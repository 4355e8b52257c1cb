import Docweave.Text.Position

/-!
What can be wrong with a JSON text, and how it is reported: the cause, the line and the byte
column, the line itself, and a caret under the column.
-/

namespace Docweave

namespace Json

/-- Why a text is not JSON. -/
inductive Cause where
  | endInValue
  | endInList
  | endInMap
  | endInText
  | expectedWord
  | expectedValue
  | expectedColon
  | expectedCommaOrListEnd
  | expectedCommaOrMapEnd
  | trailingComma
  | trailingCharacters
  | keyNotText
  | invalidEscape
  | invalidNumber
  | numberOutOfRange
  | loneSurrogate
  | unfinishedSurrogate
  | controlCharacter
  | tooDeep
deriving DecidableEq

/-- The wording of a cause. -/
def Cause.message : Cause → String
  | .endInValue => "EOF while parsing a value"
  | .endInList => "EOF while parsing a list"
  | .endInMap => "EOF while parsing an object"
  | .endInText => "EOF while parsing a string"
  | .expectedWord => "expected ident"
  | .expectedValue => "expected value"
  | .expectedColon => "expected `:`"
  | .expectedCommaOrListEnd => "expected `,` or `]`"
  | .expectedCommaOrMapEnd => "expected `,` or `\x7d`"
  | .trailingComma => "trailing comma"
  | .trailingCharacters => "trailing characters"
  | .keyNotText => "key must be a string"
  | .invalidEscape => "invalid escape"
  | .invalidNumber => "invalid number"
  | .numberOutOfRange => "number out of range"
  | .loneSurrogate => "lone leading surrogate in hex escape"
  | .unfinishedSurrogate => "unexpected end of hex escape"
  | .controlCharacter => "control character (\\u0000-\\u001F) found while parsing a string"
  | .tooDeep => "recursion limit exceeded"

/-- A cause at a place: the characters left, and how many bytes into them the reader looked. -/
structure Stop where
  cause : Cause
  rest : List Char
  ahead : Nat

/-- What is wrong, on which line and at which byte column. -/
structure Fault where
  cause : Cause
  line : Nat
  column : Nat
deriving DecidableEq

/-- The place of a stop within the whole text, never beyond its end. -/
def Stop.locate (stop : Stop) (whole : List Char) : Fault :=
  let total := Text.byteLength whole
  let offset := min total (total - Text.byteLength stop.rest + stop.ahead)
  let (line, column) := Text.position whole offset
  ⟨stop.cause, line, column⟩

/-- The cause with its line and column. -/
def Fault.message (fault : Fault) : String :=
  s!"{fault.cause.message} at line {fault.line} column {fault.column}"

/-- The report of a fault in a text: the message, the line and a caret under the column. -/
def Fault.report (fault : Fault) (whole : List Char) : String :=
  let line := (Text.lines whole)[fault.line - 1]?.getD []
  fault.message ++ "\n" ++ String.ofList line ++ "\n"
    ++ String.ofList (List.replicate (fault.column - 1) ' ') ++ "^"

end Json

end Docweave
