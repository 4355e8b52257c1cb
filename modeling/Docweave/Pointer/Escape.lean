/-!
The escape of pointer segments.

A slash separates segments, so inside one it is written `~1`, and the tilde itself `~0`.  Reading
replaces `~1` first and `~0` after it; a tilde followed by anything else stands for itself.
-/

namespace Docweave

namespace Pointer

/-- The escape of a character. -/
def escapeChar (c : Char) : List Char :=
  if c = '~' then ['~', '0']
  else if c = '/' then ['~', '1']
  else [c]

/-- The escaped characters of a segment. -/
def escapeChars (cs : List Char) : List Char :=
  cs.flatMap escapeChar

/-- Replaces every tilde followed by the digit, from left to right. -/
def replaceMark (digit char : Char) : List Char → List Char
  | [] => []
  | [c] => [c]
  | c :: d :: cs =>
    if c = '~' ∧ d = digit then char :: replaceMark digit char cs
    else c :: replaceMark digit char (d :: cs)

/-- The characters that an escaped segment stands for. -/
def unescapeChars (cs : List Char) : List Char :=
  replaceMark '0' '~' (replaceMark '1' '/' cs)

/-- The escaped form of a segment. -/
def escape (segment : String) : String :=
  String.ofList (escapeChars segment.toList)

/-- The segment that an escaped form stands for. -/
def unescape (text : String) : String :=
  String.ofList (unescapeChars text.toList)

end Pointer

end Docweave
