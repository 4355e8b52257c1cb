import Docweave.Number.Literal
import Docweave.Pattern

/-!
Reading regular expressions.

Literals, classes, the escapes of common sets, anchors, groups, alternation and repetition, which
may be marked lazy: that changes which match is found, but not whether there is one.  Flags hold
to the end of the group that they are set in.  Neither looking around nor references to groups are
supported.

Every call reads a character before it calls another, so the length of the text, with one to
spare, is fuel enough.
-/

namespace Docweave

namespace Pattern

/-- What is wrong with a text that is not an expression. -/
inductive Flaw where
  | nothingToRepeat
  | badRepetition
  | unclosedGroup
  | unopenedGroup
  | badGroup
  | badFlags
  | unclosedClass
  | badClass
  | badEscape
deriving DecidableEq

/-- The wording of a flaw. -/
def Flaw.message : Flaw → String
  | .nothingToRepeat => "a repetition without an expression before it"
  | .badRepetition => "a repetition whose counts cannot be read"
  | .unclosedGroup => "a group that does not end"
  | .unopenedGroup => "a group that ends without a start"
  | .badGroup => "a kind of group that is not supported"
  | .badFlags => "flags that cannot be read"
  | .unclosedClass => "a class that does not end"
  | .badClass => "a class that cannot be read"
  | .badEscape => "an escape that is not supported"

/-- What the flags of an expression change. -/
structure Flags where
  /-- Whether case counts. -/
  caseless : Bool
  /-- Whether anchors match at every line. -/
  multiline : Bool
  /-- Whether the point matches line feeds too. -/
  dotAll : Bool
  /-- Whether blanks and comments are passed over. -/
  verbose : Bool

/-- The expression for one character of a set. -/
def ofSet (flags : Flags) (set : CharSet) : Pattern :=
  .oneOf (if flags.caseless then .caseless set else set)

/-- The set of one character. -/
def single (c : Char) : CharSet :=
  .range c c

/-- The union of sets. -/
def unionOf (sets : List CharSet) : CharSet :=
  sets.foldr .union .none

/-- The union of ranges. -/
def ranges (rs : List (Char × Char)) : CharSet :=
  unionOf (rs.map fun r => .range r.1 r.2)

/-! ### Escapes -/

/-- What an escape stands for. -/
inductive Escape where
  | char (c : Char)
  | set (set : CharSet)
  | place (pattern : Pattern)

/-- Reads the code of a character in hexadecimal digits, as many as told or in braces. -/
def codeEscape (digits : Nat) (cs : List Char) : Except Flaw (Escape × List Char) :=
  let (hex, rest) := match cs with
    | '{' :: cs =>
      (cs.takeWhile (· ≠ '}'), (cs.dropWhile (· ≠ '}')).drop 1)
    | cs => (cs.take digits, cs.drop digits)
  let braced := cs.head? == some '{'
  let closed := !braced || cs.contains '}'
  match Literal.natural? 16 hex with
  | some code =>
    if closed && (braced || hex.length == digits) && decide code.isValidChar then
      .ok (.char (Char.ofNat code), rest)
    else .error .badEscape
  | none => .error .badEscape

/-- The set that a property of characters names, for the few that are supported. -/
def property? (name : String) : Option CharSet :=
  if name = "Nd" ∨ name = "Decimal_Number" then some .digit
  else if name = "White_Space" then some .blank
  else none

/-- Reads an escape after its backslash. -/
def escape (cs : List Char) : Except Flaw (Escape × List Char) :=
  match cs with
  | [] => .error .badEscape
  | c :: rest =>
    let char (c : Char) : Except Flaw (Escape × List Char) := .ok (.char c, rest)
    let set (set : CharSet) : Except Flaw (Escape × List Char) := .ok (.set set, rest)
    let place (p : Pattern) : Except Flaw (Escape × List Char) := .ok (.place p, rest)
    if c = 'd' then set .digit
    else if c = 'D' then set (.complement .digit)
    else if c = 'w' then set .word
    else if c = 'W' then set (.complement .word)
    else if c = 's' then set .blank
    else if c = 'S' then set (.complement .blank)
    else if c = 'b' then place (.wordEdge false)
    else if c = 'B' then place (.wordEdge true)
    else if c = 'A' then place .textStart
    else if c = 'z' then place .textEnd
    else if c = 'n' then char '\n'
    else if c = 't' then char '\t'
    else if c = 'r' then char '\r'
    else if c = 'f' then char '\x0c'
    else if c = 'v' then char '\x0b'
    else if c = 'a' then char '\x07'
    else if c = 'x' then codeEscape 2 rest
    else if c = 'u' then codeEscape 4 rest
    else if c = 'U' then codeEscape 8 rest
    else if c = 'p' ∨ c = 'P' then
      match rest with
      | '{' :: tail =>
        match property? (String.ofList (tail.takeWhile (· ≠ '}'))) with
        | some inner =>
          .ok (.set (if c = 'P' then .complement inner else inner),
            (tail.dropWhile (· ≠ '}')).drop 1)
        | none => .error .badEscape
      | _ => .error .badEscape
    else if c.isAlphanum || c = '<' || c = '>' || 127 ≤ c.toNat then .error .badEscape
    else char c

/-! ### Classes -/

/-- The set that a name between colons stands for. -/
def namedSet? (name : String) : Option CharSet :=
  if name = "alnum" then some (ranges [('0', '9'), ('A', 'Z'), ('a', 'z')])
  else if name = "alpha" then some (ranges [('A', 'Z'), ('a', 'z')])
  else if name = "ascii" then some (ranges [('\x00', '\x7f')])
  else if name = "blank" then some (ranges [('\t', '\t'), (' ', ' ')])
  else if name = "cntrl" then some (ranges [('\x00', '\x1f'), ('\x7f', '\x7f')])
  else if name = "digit" then some (ranges [('0', '9')])
  else if name = "graph" then some (ranges [('!', '~')])
  else if name = "lower" then some (ranges [('a', 'z')])
  else if name = "print" then some (ranges [(' ', '~')])
  else if name = "punct" then
    some (ranges [('!', '/'), (':', '@'), ('[', '\x60'), ('\x7b', '~')])
  else if name = "space" then some (ranges [('\t', '\r'), (' ', ' ')])
  else if name = "upper" then some (ranges [('A', 'Z')])
  else if name = "word" then some (ranges [('0', '9'), ('A', 'Z'), ('_', '_'), ('a', 'z')])
  else if name = "xdigit" then some (ranges [('0', '9'), ('A', 'F'), ('a', 'f')])
  else none

/-- Reads a named set after its bracket and colon, if there is one. -/
def namedClass? (cs : List Char) : Option (CharSet × List Char) :=
  let (negated, cs) := match cs with
    | '^' :: rest => (true, rest)
    | cs => (false, cs)
  let name := cs.takeWhile Char.isAlphanum
  match cs.dropWhile Char.isAlphanum with
  | ':' :: ']' :: rest =>
    (namedSet? (String.ofList name)).map fun set =>
      (if negated then .complement set else set, rest)
  | _ => none

/-- An operation between the parts of a class. -/
inductive ClassOp where
  | inter
  | difference
  | symmetric

/-- The class so far: what stands before the last operation, and what stands after it. -/
structure ClassSoFar where
  left : Option (CharSet × ClassOp)
  items : List CharSet

/-- The set of a class so far. -/
def ClassSoFar.set (soFar : ClassSoFar) : CharSet :=
  let right := unionOf soFar.items
  match soFar.left with
  | none => right
  | some (left, .inter) => .inter left right
  | some (left, .difference) => .inter left (.complement right)
  | some (left, .symmetric) =>
    .union (.inter left (.complement right)) (.inter right (.complement left))

/-- The set that an escape stands for in a class. -/
def Escape.set? : Escape → Option CharSet
  | .char c => some (single c)
  | .set inner => some inner
  | .place _ => none

/-- Reads one member of a class: a character or an escape. -/
def member (cs : List Char) : Except Flaw (Escape × List Char) :=
  match cs with
  | [] => .error .unclosedClass
  | '\\' :: rest => escape rest
  | c :: rest => .ok (.char c, rest)

/-- A set with its complement if told so; case does not count before the complement is taken. -/
def classSet (flags : Flags) (negated : Bool) (set : CharSet) : CharSet :=
  let set := if flags.caseless then .caseless set else set
  if negated then .complement set else set

mutual

/-- Reads a class after its opening bracket. -/
def classOpen (flags : Flags) : Nat → List Char → Except Flaw (CharSet × List Char)
  | 0, _ => .error .unclosedClass
  | fuel + 1, cs =>
    let (negated, cs) := match cs with
      | '^' :: rest => (true, rest)
      | cs => (false, cs)
    let dashes := (cs.takeWhile (· == '-')).map single
    let cs := cs.dropWhile (· == '-')
    let (items, cs) := match dashes, cs with
      | [], ']' :: rest => ([single ']'], rest)
      | dashes, cs => (dashes, cs)
    match classItems flags fuel ⟨none, items⟩ cs with
    | .ok (set, rest) => .ok (classSet flags negated set, rest)
    | .error flaw => .error flaw
termination_by structural fuel => fuel

/-- Reads the members of a class up to its closing bracket. -/
def classItems (flags : Flags) :
    Nat → ClassSoFar → List Char → Except Flaw (CharSet × List Char)
  | 0, _, _ => .error .unclosedClass
  | fuel + 1, soFar, cs =>
    let add (set : CharSet) (rest : List Char) :=
      classItems flags fuel { soFar with items := set :: soFar.items } rest
    let operate (op : ClassOp) (rest : List Char) :=
      classItems flags fuel ⟨some (soFar.set, op), []⟩ rest
    match cs with
    | [] => .error .unclosedClass
    | ']' :: rest => .ok (soFar.set, rest)
    | '[' :: rest =>
      let named := match rest with
        | ':' :: inner => namedClass? inner
        | _ => none
      match named with
      | some (set, rest) => add set rest
      | none =>
        match classOpen flags fuel rest with
        | .ok (set, rest) => add set rest
        | .error flaw => .error flaw
    | '&' :: '&' :: rest => operate .inter rest
    | '-' :: '-' :: rest => operate .difference rest
    | '~' :: '~' :: rest => operate .symmetric rest
    | cs =>
      match member cs with
      | .error flaw => .error flaw
      | .ok (first, rest) =>
        match rest with
        | '-' :: ']' :: _ | '-' :: '-' :: _ =>
          match first.set? with
          | some set => add set rest
          | none => .error .badClass
        | '-' :: rest =>
          match first, member rest with
          | .char a, .ok (.char b, rest) =>
            if a ≤ b then add (.range a b) rest else .error .badClass
          | _, .error flaw => .error flaw
          | _, _ => .error .badClass
        | rest =>
          match first.set? with
          | some set => add set rest
          | none => .error .badClass
termination_by structural fuel => fuel

end

/-! ### Flags and repetition -/

/-- Reads flags up to a colon or a closing bracket, which is left; `set` tells whether they are
switched on, `read` which were read already, and `dangling` whether a minus has none behind it. -/
def flagsFrom : Flags → Bool → List Char → Bool → List Char → Except Flaw (Flags × List Char)
  | _, _, _, _, [] => .error .badFlags
  | flags, set, read, dangling, c :: cs =>
    if c = ':' ∨ c = ')' then
      if dangling then .error .badFlags else .ok (flags, c :: cs)
    else if read.contains c then .error .badFlags
    else if c = '-' then flagsFrom flags false (c :: read) true cs
    else
      let next (flags : Flags) := flagsFrom flags set (c :: read) false cs
      if c = 'i' then next { flags with caseless := set }
      else if c = 'm' then next { flags with multiline := set }
      else if c = 's' then next { flags with dotAll := set }
      else if c = 'x' then next { flags with verbose := set }
      else if c = 'u' ∨ c = 'U' ∨ c = 'R' then next flags
      else .error .badFlags

/-- Reads a count among blanks. -/
def count? (cs : List Char) : Option Nat × List Char :=
  let cs := cs.dropWhile Text.isBlank
  let digits := cs.takeWhile Literal.isDigit
  let rest := (cs.dropWhile Literal.isDigit).dropWhile Text.isBlank
  ((Literal.natural? 10 digits).filter fun n => decide (n < 0x100000000), rest)

/-- Reads the counts of a repetition after its brace. -/
def counts (cs : List Char) : Except Flaw ((Nat × Option Nat) × List Char) :=
  match count? cs with
  | (some least, '}' :: rest) => .ok ((least, some least), rest)
  | (some least, ',' :: rest) =>
    match rest.dropWhile Text.isBlank with
    | '}' :: rest => .ok ((least, none), rest)
    | rest =>
      match count? rest with
      | (some most, '}' :: rest) =>
        if least ≤ most then .ok ((least, some most), rest) else .error .badRepetition
      | _ => .error .badRepetition
  | _ => .error .badRepetition

/-- The characters behind a mark of laziness, if there is one. -/
def afterLazy : List Char → List Char
  | '?' :: rest => rest
  | rest => rest

/-- Passes over blanks and comments. -/
def skipVerbose : List Char → Bool → List Char
  | [], _ => []
  | c :: cs, comment =>
    if comment then skipVerbose cs (c ≠ '\n')
    else if Text.isBlank c then skipVerbose cs false
    else if c = '#' then skipVerbose cs true
    else c :: cs

/-! ### Expressions -/

/-- The expression for a single character that is no operator. -/
def primitive (flags : Flags) (c : Char) : Pattern :=
  if c = '.' then
    .oneOf (if flags.dotAll then .complement .none else .complement (single '\n'))
  else if c = '^' then if flags.multiline then .lineStart else .textStart
  else if c = '$' then if flags.multiline then .lineEnd else .textEnd
  else ofSet flags (single c)

/-- The sequence of items given backwards; an item without an expression sets flags. -/
def sequence (items : List (Option Pattern)) : Pattern :=
  items.foldl (fun rest item =>
    match item with
    | some p => .seq p rest
    | none => rest) .empty

/-- The alternatives given backwards, after the last of them. -/
def alternatives (earlier : List Pattern) (last : Pattern) : Pattern :=
  earlier.foldl (fun rest p => .either p rest) last

/-- Whether a character can stand in the name of a group. -/
def isNameChar (c : Char) : Bool :=
  Text.isWordChar c || c == '.' || c == '[' || c == ']'

/-- Reads the name of a group up to its bracket. -/
def groupName (cs : List Char) : Except Flaw (String × List Char) :=
  let name := cs.takeWhile isNameChar
  let starts := name.head?.any fun c => Text.isWordChar c && !Text.isDecimalDigit c
  match cs.dropWhile isNameChar with
  | '>' :: rest => if starts then .ok (String.ofList name, rest) else .error .badGroup
  | _ => .error .badGroup

/-- What a group is read with: the names of the groups so far. -/
abbrev Names : Type := List String

/-- Reads the items of a group up to its closing bracket, which is left, or to the end.
`earlier` holds the alternatives before this one and `items` what this one has so far, both
backwards. -/
def group : Nat → Flags → Names → List Pattern → List (Option Pattern) → List Char →
    Except Flaw (Pattern × Names × List Char)
  | 0, _, _, _, _, _ => .error .unclosedGroup
  | fuel + 1, flags, names, earlier, items, cs =>
    let cs := if flags.verbose then skipVerbose cs false else cs
    let finish (rest : List Char) := .ok (alternatives earlier (sequence items), names, rest)
    let add (p : Pattern) (rest : List Char) :=
      group fuel flags names earlier (some p :: items) rest
    let again (least : Nat) (most : Option Nat) (rest : List Char) :=
      match items with
      | some p :: before =>
        group fuel flags names earlier (some (.times p least most) :: before) (afterLazy rest)
      | _ => .error .nothingToRepeat
    let nested (inner : Flags) (names : Names) (rest : List Char) :=
      match group fuel inner names [] [] rest with
      | .error flaw => .error flaw
      | .ok (p, names, ')' :: rest) => group fuel flags names earlier (some p :: items) rest
      | .ok (_, _, _) => .error .unclosedGroup
    match cs with
    | [] => finish []
    | ')' :: _ => finish cs
    | '|' :: rest => group fuel flags names (sequence items :: earlier) [] rest
    | '*' :: rest => again 0 none rest
    | '+' :: rest => again 1 none rest
    | '?' :: rest => again 0 (some 1) rest
    | '{' :: rest =>
      match items with
      | some _ :: _ =>
        match counts rest with
        | .ok ((least, most), rest) => again least most rest
        | .error flaw => .error flaw
      | _ => .error .nothingToRepeat
    | '[' :: rest =>
      match classOpen flags fuel rest with
      | .ok (set, rest) => add (.oneOf set) rest
      | .error flaw => .error flaw
    | '\\' :: rest =>
      match escape rest with
      | .error flaw => .error flaw
      | .ok (.char c, rest) => add (ofSet flags (single c)) rest
      | .ok (.set set, rest) => add (.oneOf set) rest
      | .ok (.place p, rest) => add p rest
    | '(' :: '?' :: rest =>
      let name? := match rest with
        | 'P' :: '<' :: rest => some rest
        | '<' :: rest => some rest
        | _ => none
      match name? with
      | some rest =>
        match groupName rest with
        | .error flaw => .error flaw
        | .ok (name, rest) =>
          if names.contains name then .error .badGroup else nested flags (name :: names) rest
      | none =>
        match flagsFrom flags true [] false rest with
        | .error flaw => .error flaw
        | .ok (inner, ':' :: rest) => nested inner names rest
        | .ok (inner, ')' :: after) =>
          if rest.head? = some ')' then .error .nothingToRepeat
          else group fuel inner names earlier (none :: items) after
        | .ok _ => .error .badFlags
    | '(' :: rest => nested flags names rest
    | c :: rest => add (primitive flags c) rest

/-- The flags an expression is read with at first. -/
def Flags.initial (caseless : Bool) : Flags :=
  { caseless, multiline := false, dotAll := false, verbose := false }

/-- Reads an expression. -/
def read (caseless : Bool) (text : String) : Except Flaw Pattern :=
  let cs := text.toList
  match group (cs.length + 1) (Flags.initial caseless) [] [] [] cs with
  | .error flaw => .error flaw
  | .ok (p, _, []) => .ok p
  | .ok (_, _, _ :: _) => .error .unopenedGroup

/-- Reads an expression that has to match from the start of a text. -/
def readAnchored (caseless : Bool) (text : String) : Except Flaw Pattern :=
  read caseless ("^(?:" ++ text ++ ")")

end Pattern

end Docweave
