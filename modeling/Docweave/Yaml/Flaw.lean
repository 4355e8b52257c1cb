/-!
What can be wrong with a YAML text.
-/

namespace Docweave

namespace Yaml

/-- Why a text is not a YAML document that can be read. -/
inductive Flaw where
  | badIndentation
  | badCharacter
  | unfinishedText
  | badEscape
  | unfinishedList
  | unfinishedMap
  | keyExpected
  | unknownAlias
  | containerKey
  | integerOutOfRange
  | severalDocuments
  | trailingContent
  | tooDeep
  | unsupported
deriving DecidableEq

/-- The wording of a flaw. -/
def Flaw.message : Flaw → String
  | .badIndentation => "the indentation does not fit the lines above"
  | .badCharacter => "a character that cannot stand here"
  | .unfinishedText => "a quoted text does not end"
  | .badEscape => "unknown escape in a quoted text"
  | .unfinishedList => "a list in brackets does not end"
  | .unfinishedMap => "a map in braces does not end"
  | .keyExpected => "a key with a colon is expected"
  | .unknownAlias => "an alias without an anchor"
  | .containerKey => "a key must be a scalar"
  | .integerOutOfRange => "an integer out of range"
  | .severalDocuments => "more than one document"
  | .trailingContent => "content after the end of the document"
  | .tooDeep => "containers nest too deep"
  | .unsupported => "an indicator that is not supported"

end Yaml

end Docweave
