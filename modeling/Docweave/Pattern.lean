import Docweave.Text.Case
import Docweave.Text.Word

/-!
Regular expressions, and which texts they are found in.

An expression is matched by the places it can end at, starting from a place: a place is the
character before it and the characters after it.  Repetition without an upper bound goes on until
it reaches no new place; since a place is known by how many characters follow it, that takes no
more rounds than there are characters.
-/

namespace Docweave

/-- A set of characters in an expression. -/
inductive CharSet where
  | range (first last : Char)
  | digit
  | word
  | blank
  | union (left right : CharSet)
  | inter (left right : CharSet)
  | complement (inner : CharSet)
  /-- The characters that differ from one of the set in case alone. -/
  | caseless (inner : CharSet)
  | none

namespace CharSet

/-- Whether a character belongs to the set. -/
def contains : CharSet → Char → Bool
  | .range first last, c => decide (first ≤ c ∧ c ≤ last)
  | .digit, c => Text.isDecimalDigit c
  | .word, c => Text.isWordChar c
  | .blank, c => Text.isBlank c
  | .union left right, c => left.contains c || right.contains c
  | .inter left right, c => left.contains c && right.contains c
  | .complement inner, c => !inner.contains c
  | .caseless inner, c => (Text.caseVariants c).any fun d => inner.contains d
  | .none, _ => false

end CharSet

/-- A regular expression. -/
inductive Pattern where
  | empty
  | oneOf (set : CharSet)
  | textStart
  | textEnd
  | lineStart
  | lineEnd
  /-- A place between a word and something else, or, if negated, any other place. -/
  | wordEdge (negated : Bool)
  | seq (first second : Pattern)
  | either (first second : Pattern)
  /-- From `least` to `most` times; without `most` any number of times from `least` on. -/
  | times (inner : Pattern) (least : Nat) (most : Option Nat)

namespace Pattern

/-- A place in a text: the character before it and the characters after it. -/
structure Place where
  before : Option Char
  after : List Char

/-- The place at the start of a text. -/
def Place.start (cs : List Char) : Place :=
  ⟨.none, cs⟩

/-- Whether the place is next to a word on one side only. -/
def Place.isWordEdge (place : Place) : Bool :=
  place.before.any Text.isWordChar != place.after.head?.any Text.isWordChar

/-- The places of both lists, each once. -/
def merge (places more : List Place) : List Place :=
  more.foldl (fun places place =>
    if places.any fun p => p.after.length == place.after.length then places
    else places ++ [place]) places

/-- One round of an expression from several places. -/
def round (ends : Place → List Place) (places : List Place) : List Place :=
  places.foldl (fun reached place => merge reached (ends place)) []

/-- As many rounds as told. -/
def rounds (ends : Place → List Place) : Nat → List Place → List Place
  | 0, places => places
  | n + 1, places => rounds ends n (round ends places)

/-- The places reached by at most as many rounds as told. -/
def roundsUpTo (ends : Place → List Place) : Nat → List Place → List Place
  | 0, places => places
  | n + 1, places =>
    let reached := merge places (round ends places)
    if reached.length = places.length then places else roundsUpTo ends n reached

/-- The places an expression can end at. -/
def ends : Pattern → Place → List Place
  | .empty, place => [place]
  | .oneOf set, place =>
    match place.after with
    | c :: rest => if set.contains c then [⟨some c, rest⟩] else []
    | [] => []
  | .textStart, place => if place.before.isNone then [place] else []
  | .textEnd, place => if place.after.isEmpty then [place] else []
  | .lineStart, place => if place.before.all (· == '\n') then [place] else []
  | .lineEnd, place => if place.after.head?.all (· == '\n') then [place] else []
  | .wordEdge negated, place => if place.isWordEdge != negated then [place] else []
  | .seq first second, place => round (ends second) (ends first place)
  | .either first second, place => merge (ends first place) (ends second place)
  | .times inner least most, place =>
    let reached := rounds (ends inner) least [place]
    let more := match most with
      | some most => most - least
      | none => place.after.length + 1
    roundsUpTo (ends inner) more reached

/-- Whether the expression matches somewhere from the place on. -/
def foundFrom (pattern : Pattern) : Option Char → List Char → Bool
  | before, [] => !(pattern.ends ⟨before, []⟩).isEmpty
  | before, c :: cs =>
    !(pattern.ends ⟨before, c :: cs⟩).isEmpty || foundFrom pattern (some c) cs

/-- Whether the expression matches somewhere in the text. -/
def found (pattern : Pattern) (text : String) : Bool :=
  foundFrom pattern none text.toList

end Pattern

end Docweave
