import Docweave.Value

/-!
The text of a document: compact on one line, or indented by two spaces a level.

In a quoted text only what must be escaped is: the quote, the backslash and the control characters
below U+0020, five of which have a letter of their own.
-/

namespace Docweave

namespace Json

/-- The escape of a character inside quotes, as it is written. -/
def escapeChar (c : Char) : List Char :=
  if c = '"' then ['\\', '"']
  else if c = '\\' then ['\\', '\\']
  else if c = '\x08' then ['\\', 'b']
  else if c = '\x0c' then ['\\', 'f']
  else if c = '\n' then ['\\', 'n']
  else if c = '\r' then ['\\', 'r']
  else if c = '\t' then ['\\', 't']
  else if c.toNat < 32 then
    ['\\', 'u', '0', '0', Nat.digitChar (c.toNat / 16), Nat.digitChar (c.toNat % 16)]
  else [c]

/-- A text in quotes. -/
def quote (s : String) : List Char :=
  '"' :: s.toList.flatMap escapeChar ++ ['"']

mutual

/-- The compact text as characters. -/
def compactChars : Value → List Char
  | .null => "null".toList
  | .bool true => "true".toList
  | .bool false => "false".toList
  | .number n => n.render.toList
  | .text s => quote s
  | .list items => '[' :: compactItems items ++ [']']
  | .map fields => '{' :: compactFields fields ++ ['}']

/-- The elements of a list, separated by commas. -/
def compactItems : List Value → List Char
  | [] => []
  | [v] => compactChars v
  | v :: vs => compactChars v ++ ',' :: compactItems vs

/-- The entries of a map, separated by commas. -/
def compactFields : List (String × Value) → List Char
  | [] => []
  | [(k, v)] => quote k ++ ':' :: compactChars v
  | (k, v) :: es => quote k ++ ':' :: compactChars v ++ ',' :: compactFields es

end

/-- The compact text of a document. -/
def compact (v : Value) : String :=
  String.ofList (compactChars v)

/-- A new line at a depth. -/
def newline (depth : Nat) : List Char :=
  '\n' :: List.replicate (2 * depth) ' '

mutual

/-- The indented text as characters, for a value that stands at a depth. -/
def prettyChars (depth : Nat) : Value → List Char
  | .list [] => ['[', ']']
  | .list (v :: vs) => '[' :: prettyItems (depth + 1) (v :: vs) ++ newline depth ++ [']']
  | .map [] => ['{', '}']
  | .map (e :: es) => '{' :: prettyFields (depth + 1) (e :: es) ++ newline depth ++ ['}']
  | .null => "null".toList
  | .bool true => "true".toList
  | .bool false => "false".toList
  | .number n => n.render.toList
  | .text s => quote s

/-- The elements of a list, each on a line of its own. -/
def prettyItems (depth : Nat) : List Value → List Char
  | [] => []
  | [v] => newline depth ++ prettyChars depth v
  | v :: vs => newline depth ++ prettyChars depth v ++ ',' :: prettyItems depth vs

/-- The entries of a map, each on a line of its own. -/
def prettyFields (depth : Nat) : List (String × Value) → List Char
  | [] => []
  | [(k, v)] => newline depth ++ quote k ++ ':' :: ' ' :: prettyChars depth v
  | (k, v) :: es =>
    newline depth ++ quote k ++ ':' :: ' ' :: prettyChars depth v ++ ',' :: prettyFields depth es

end

/-- The indented text of a document. -/
def pretty (v : Value) : String :=
  String.ofList (prettyChars 0 v)

end Json

end Docweave
