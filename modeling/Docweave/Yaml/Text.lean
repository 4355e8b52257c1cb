import Docweave.Number.Literal
import Docweave.Yaml.Cursor

/-!
The texts of YAML scalars: plain ones, ones in single or double quotes, and blocks.

In all but literal blocks a line end is folded: alone it becomes a space, and a run of them loses
the first.  Blanks around a line end do not count in plain and quoted scalars.
-/

namespace Docweave

namespace Yaml

/-! ### Plain scalars -/

/-- Whether a plain scalar ends before these characters. -/
def endsPlain (block : Bool) : List Char → Bool
  | [] => true
  | ':' :: rest => atBreak rest
  | c :: _ => !block && (c == ',' || c == '[' || c == ']' || c == '{' || c == '}')

/-- Whether these characters are a colon that cannot stand in a plain scalar of a flow. -/
def isLostColon (block : Bool) : List Char → Bool
  | ':' :: c :: _ =>
    !block && (c == ',' || c == '?' || c == '[' || c == ']' || c == '{' || c == '}')
  | _ => false

/-- Whether a plain scalar can start with these characters. -/
def startsPlain (block : Bool) : List Char → Bool
  | [] => false
  | c :: rest =>
    if c = '-' then !(rest.head?.any isSpace)
    else if c = '?' ∨ c = ':' then block && !atBreak rest
    else !(isSpace c) && !(",[]\x7b\x7d#&*!|>'\"%@`\n".toList.contains c)

/-- Reads a plain scalar from inside.  `read` holds its characters so far, backwards, `spaces` the
blanks since the last one, backwards, and `breaks` the number of line ends since then. -/
def plainFrom (block : Bool) (indent : Int) :
    Nat → List Char → List Char → Nat → Scan String
  | 0, read, _, _ => pure (String.ofList read.reverse)
  | fuel + 1, read, spaces, breaks => do
    let cursor ← get
    let done := pure (String.ofList read.reverse)
    let apart := breaks ≠ 0 || !spaces.isEmpty
    match cursor.rest with
    | [] => done
    | c :: _ =>
      if isSpace c then
        if breaks ≠ 0 && c = '\t' && cursor.column < indent then throw .badIndentation
        set cursor.next
        plainFrom block indent fuel read (if breaks = 0 then c :: spaces else []) breaks
      else if c = '\n' then
        set cursor.next
        plainFrom block indent fuel read [] (breaks + 1)
      else if apart && (cursor.atMark || c = '#'
          || (breaks ≠ 0 && block && cursor.column < indent)) then done
      else if isLostColon block cursor.rest then throw .badCharacter
      else if endsPlain block cursor.rest then done
      else
        let joined := if breaks = 0 then spaces else (folded breaks).reverse
        set cursor.next
        plainFrom block indent fuel (c :: joined ++ read) [] 0

/-- Reads a plain scalar.  In a block its later lines have to be indented by `indent`. -/
def plainText (block : Bool) (indent : Int) : Scan String := do
  plainFrom block indent ((← get).rest.length + 1) [] [] 0

/-! ### Quoted scalars -/

/-- Reads the digits of an escape that gives a character by its code. -/
def codeEscape (digits : Nat) : Scan Char := do
  let cursor ← get
  let hex := cursor.rest.take digits
  match Literal.natural? 16 hex with
  | some code =>
    if hex.length < digits || (0xD800 ≤ code && code ≤ 0xDFFF) || 0x10FFFF < code then
      throw .badEscape
    skipChars digits
    pure (Char.ofNat code)
  | none => throw .badEscape

/-- Reads an escape behind its backslash. -/
def escaped : Scan Char := do
  let cursor ← get
  match cursor.rest with
  | [] => throw .unfinishedText
  | c :: _ =>
    set cursor.next
    if c = '0' then pure '\x00'
    else if c = 'a' then pure '\x07'
    else if c = 'b' then pure '\x08'
    else if c = 't' ∨ c = '\t' then pure '\t'
    else if c = 'n' then pure '\n'
    else if c = 'v' then pure '\x0b'
    else if c = 'f' then pure '\x0c'
    else if c = 'r' then pure '\r'
    else if c = 'e' then pure '\x1b'
    else if c = ' ' ∨ c = '"' ∨ c = '/' ∨ c = '\\' then pure c
    else if c = 'N' then pure '\u0085'
    else if c = '_' then pure '\u00a0'
    else if c = 'L' then pure '\u2028'
    else if c = 'P' then pure '\u2029'
    else if c = 'x' then codeEscape 2
    else if c = 'u' then codeEscape 4
    else if c = 'U' then codeEscape 8
    else throw .badEscape

/-- What separates two words of a quoted scalar: blanks, or line ends.  A line end behind a
backslash is dropped, and `joined` tells that there was one. -/
def separator (spaces : List Char) (breaks : Nat) (joined : Bool) : List Char :=
  if breaks = 0 then spaces
  else if joined then List.replicate (breaks - 1) '\n'
  else (folded breaks).reverse

/-- Reads a quoted scalar from inside; the arguments are those of `plainFrom` and `separator`. -/
def quotedFrom (double : Bool) :
    Nat → List Char → List Char → Nat → Bool → Scan String
  | 0, _, _, _, _ => throw .unfinishedText
  | fuel + 1, read, spaces, breaks, joined => do
    let cursor ← get
    if cursor.atMark then throw .unfinishedText
    let before := separator spaces breaks joined ++ read
    match cursor.rest with
    | [] => throw .unfinishedText
    | c :: rest =>
      if isSpace c then
        set cursor.next
        quotedFrom double fuel read (if breaks = 0 then c :: spaces else []) breaks joined
      else if c = '\n' then
        set cursor.next
        quotedFrom double fuel read [] (breaks + 1) joined
      else if double && c = '"' then
        set cursor.next
        pure (String.ofList before.reverse)
      else if double && c = '\\' then
        set cursor.next
        if rest.head? = some '\n' then
          modify Cursor.next
          quotedFrom double fuel before [] 1 true
        else
          let e ← escaped
          quotedFrom double fuel (e :: before) [] 0 false
      else if !double && c = '\'' then
        if rest.head? = some '\'' then
          set cursor.next.next
          quotedFrom double fuel ('\'' :: before) [] 0 false
        else
          set cursor.next
          pure (String.ofList before.reverse)
      else
        set cursor.next
        quotedFrom double fuel (c :: before) [] 0 false

/-- Reads a quoted scalar from its opening quote. -/
def quotedText (double : Bool) : Scan String := do
  modify Cursor.next
  quotedFrom double ((← get).rest.length + 1) [] [] 0 false

/-! ### Blocks -/

/-- What happens to the line ends at the end of a block. -/
inductive Chomp where
  | strip
  | clip
  | keep
deriving DecidableEq

/-- Reads the header of a block: how it ends, and by how much it is indented, in any order. -/
def blockHeader : Nat → Option Chomp → Option Nat → Scan (Chomp × Option Nat)
  | 0, chomp, indent => pure (chomp.getD .clip, indent)
  | fuel + 1, chomp, indent => do
    let cursor ← get
    match cursor.rest with
    | [] => pure (chomp.getD .clip, indent)
    | c :: _ =>
      if chomp.isNone && (c = '+' || c = '-') then
        set cursor.next
        blockHeader fuel (some (if c = '+' then .keep else .strip)) indent
      else if indent.isNone && Literal.isDigit c then
        if c = '0' then throw .badIndentation
        set cursor.next
        blockHeader fuel chomp (some (c.toNat - '0'.toNat))
      else pure (chomp.getD .clip, indent)

/-- Moves over the rest of a line that holds nothing but blanks and a comment. -/
def skipLine : Nat → Bool → Scan Unit
  | 0, _ => pure ()
  | fuel + 1, comment => do
    let cursor ← get
    match cursor.rest with
    | [] => pure ()
    | c :: _ =>
      if c = '\n' then set cursor.next
      else if comment || isSpace c || c = '#' then
        set cursor.next
        skipLine fuel (comment || c = '#')
      else throw .badCharacter

/-- Moves over empty lines and over the indentation of the next line.  `indent` is the
indentation if it is known, and `widest` the widest line of spaces so far; the answer is the
number of empty lines with that width. -/
def blockBreaks (indent : Option Nat) : Nat → Nat → Nat → Scan (Nat × Nat)
  | 0, breaks, widest => pure (breaks, widest)
  | fuel + 1, breaks, widest => do
    let cursor ← get
    let widest := max widest cursor.column
    let inIndent := indent.all fun n => decide (cursor.column < n)
    match cursor.rest with
    | c :: _ =>
      if c = ' ' && inIndent then
        set cursor.next
        blockBreaks indent fuel breaks widest
      else if c = '\t' && inIndent then throw .badIndentation
      else if c = '\n' then
        set cursor.next
        blockBreaks indent fuel (breaks + 1) widest
      else pure (breaks, widest)
    | [] => pure (breaks, widest)

/-- Reads the lines of a block.  `read` holds the text so far, backwards, `ended` tells whether a
line end follows it, `breaks` how many empty lines follow that, and `wasBlank` whether the last
line started with a blank. -/
def blockLines (literal : Bool) (chomp : Chomp) (indent : Nat) :
    Nat → List Char → Bool → Nat → Bool → Scan String
  | 0, read, _, _, _ => pure (String.ofList read.reverse)
  | fuel + 1, read, ended, breaks, wasBlank => do
    let cursor ← get
    if cursor.column ≠ indent || cursor.rest.isEmpty then
      let tail := match chomp with
        | .strip => []
        | .clip => if ended then ['\n'] else []
        | .keep => (if ended then ['\n'] else []) ++ List.replicate breaks '\n'
      pure (String.ofList (read.reverse ++ tail))
    else
      let blank := cursor.rest.head?.any isSpace
      let join :=
        if !literal && ended && !wasBlank && !blank then
          if breaks = 0 then [' '] else List.replicate breaks '\n'
        else (if ended then ['\n'] else []) ++ List.replicate breaks '\n'
      let line := cursor.rest.takeWhile (· ≠ '\n')
      skipChars line.length
      let ended := !(← get).rest.isEmpty
      modify Cursor.next
      let (breaks, _) ← blockBreaks (some indent) (cursor.rest.length + 1) 0 0
      blockLines literal chomp indent fuel (line.reverse ++ join ++ read) ended breaks blank

/-- Reads a block from its indicator; `parent` is the indentation of what it belongs to, or `-1`
at the root. -/
def blockText (parent : Int) : Scan String := do
  let cursor ← get
  let literal := cursor.rest.head? == some '|'
  set cursor.next
  let (chomp, width) ← blockHeader 2 none none
  if let c :: _ := (← get).rest then
    if !(isSpace c || c == '\n') then throw .badCharacter
  skipLine (cursor.rest.length + 1) false
  let fuel := cursor.rest.length + 1
  let fixed := width.map fun n => (max parent 0).toNat + n
  let (breaks, widest) ← blockBreaks fixed fuel 0 0
  let indent := fixed.getD (max widest (max (parent + 1).toNat 1))
  blockLines literal chomp indent fuel [] false breaks false

end Yaml

end Docweave
