/-!
Places in a text: byte offsets, lines and columns.

A place is given by the number of bytes before it in UTF-8.  Lines are counted from one, and the
column is the number of bytes since the last line feed.
-/

namespace Docweave

namespace Text

/-- The number of bytes of the characters in UTF-8. -/
def byteLength (cs : List Char) : Nat :=
  cs.foldl (fun n c => n + c.utf8Size) 0

/-- Walks to a byte offset; `line` and `column` describe the place reached so far. -/
def walkTo : List Char → Nat → Nat → Nat → Nat × Nat
  | [], _, line, column => (line, column)
  | _, 0, line, column => (line, column)
  | c :: cs, offset, line, column =>
    if c = '\n' then walkTo cs (offset - 1) (line + 1) 0
    else if offset < c.utf8Size then (line, column + offset)
    else walkTo cs (offset - c.utf8Size) line (column + c.utf8Size)

/-- Line and column of a byte offset. -/
def position (cs : List Char) (offset : Nat) : Nat × Nat :=
  walkTo cs offset 1 0

/-- The lines of a text.  A line feed ends a line, together with a carriage return right before
it; nothing after the last line feed is not a line. -/
def lines (cs : List Char) : List (List Char) :=
  go cs []
where
  /-- Continues with the current line read backwards. -/
  go : List Char → List Char → List (List Char)
    | [], [] => []
    | [], line => [line.reverse]
    | '\n' :: cs, '\r' :: line => line.reverse :: go cs []
    | '\n' :: cs, line => line.reverse :: go cs []
    | c :: cs, line => go cs (c :: line)

end Text

end Docweave
