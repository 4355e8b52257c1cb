import Docweave.Value
import Docweave.Yaml.Flaw

/-!
A place in a YAML text, and the steps that do not depend on what is being read.

The cursor knows its line and column, because indentation decides where a block ends and a key
has to stand on one line with its colon.  It also carries the anchors named so far.
-/

namespace Docweave

namespace Yaml

/-- A node that was read: the value it stands for, which can be one that cannot be read, and the
text of a scalar, which is what counts when the node is a key. -/
structure Node where
  value : Except Flaw Value
  text? : Option String

/-- The empty node. -/
def Node.empty : Node :=
  ⟨.ok .null, some ""⟩

/-- A place in a text, with the anchors named before it. -/
structure Cursor where
  rest : List Char
  line : Nat
  column : Nat
  anchors : List (String × Node)

/-- Reading moves a cursor, or fails. -/
abbrev Scan : Type → Type := StateT Cursor (Except Flaw)

/-- Whether a character ends a line or separates words. -/
def isSpace (c : Char) : Bool :=
  c == ' ' || c == '\t'

/-- Whether a word ends before these characters. -/
def atBreak : List Char → Bool
  | [] => true
  | c :: _ => isSpace c || c == '\n'

namespace Cursor

/-- The cursor behind the next character. -/
def next (cursor : Cursor) : Cursor :=
  match cursor.rest with
  | [] => cursor
  | '\n' :: rest => { cursor with rest, line := cursor.line + 1, column := 0 }
  | _ :: rest => { cursor with rest, column := cursor.column + 1 }

/-- Whether the cursor stands on a line that marks where a document starts or ends. -/
def atMark (cursor : Cursor) : Bool :=
  cursor.column == 0 &&
    match cursor.rest with
    | '-' :: '-' :: '-' :: rest => atBreak rest
    | '.' :: '.' :: '.' :: rest => atBreak rest
    | _ => false

/-- Whether nothing of the document is left. -/
def atEnd (cursor : Cursor) : Bool :=
  cursor.rest.isEmpty || cursor.atMark

/-- Whether the cursor stands on an indicator that a blank follows. -/
def onIndicator (cursor : Cursor) (c : Char) : Bool :=
  match cursor.rest with
  | d :: rest => d == c && atBreak rest
  | [] => false

end Cursor

/-- Moves behind a number of characters. -/
def skipChars : Nat → Scan Unit
  | 0 => pure ()
  | n + 1 => do
    modify Cursor.next
    skipChars n

/-- Moves over blanks, line ends and comments.  In a block, a tab is no blank where a key could
start: after a line end, and at once if `keyAllowed`. -/
def skipBlanks (block : Bool) : Nat → Bool → Bool → Scan Unit
  | 0, _, _ => pure ()
  | fuel + 1, keyAllowed, comment => do
    let cursor ← get
    match cursor.rest with
    | [] => pure ()
    | c :: _ =>
      if c = '\n' then
        set cursor.next
        skipBlanks block fuel (keyAllowed || block) false
      else if comment || c = ' ' || (c = '\t' && !(block && keyAllowed)) then
        set cursor.next
        skipBlanks block fuel keyAllowed comment
      else if c = '#' then
        set cursor.next
        skipBlanks block fuel keyAllowed true
      else pure ()

/-- Moves to the next token. -/
def skip (block keyAllowed : Bool) : Scan Unit := do
  skipBlanks block (← get).rest.length keyAllowed false

/-- Moves over spaces and tabs. -/
def skipSpaces : Nat → Scan Unit
  | 0 => pure ()
  | fuel + 1 => do
    let cursor ← get
    match cursor.rest with
    | c :: _ =>
      if isSpace c then
        set cursor.next
        skipSpaces fuel
    | [] => pure ()

/-- Breaks between lines as folding leaves them: one becomes a space, more lose the first. -/
def folded (breaks : Nat) : List Char :=
  if breaks ≤ 1 then [' '] else List.replicate (breaks - 1) '\n'

end Yaml

end Docweave
