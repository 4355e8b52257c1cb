import Docweave.Date.Limit
import Docweave.Matcher.Part
import Docweave.Pattern

/-!
Matchers: what a value may look like.

An expected value is a document in which matchers stand for some of the nodes: everything else in
it has to be there as it is.  The two types need each other, because a matcher for lists holds what
is expected of every element.

Limits of dates may be relative, so accepting a value depends on the moment of comparison.
-/

namespace Docweave


mutual

/-- What a value may look like. -/
inductive Matcher where
  | shape (shape : Shape)
  /-- Texts that an expression matches from the start. -/
  | textLike (pattern : String) (caseSensitive : Bool) (expression : Pattern)
  /-- Texts with a part. -/
  | textWith (part : String) (caseSensitive : Bool)
  /-- Numbers strictly on one side of a limit. -/
  | numberBeyond (side : Side) (limit : Double)
  /-- Numbers between two limits, which count as well. -/
  | numberWithin (min max : Double)
  /-- Lists of a length, with elements of a kind. -/
  | listOf (rule : SizeRule) (size? : Option Nat) (kind? : Option ValueKind)
  /-- Lists with a length between two limits, and elements of a kind. -/
  | listWithin (min max : Nat) (kind? : Option ValueKind)
  /-- Lists of a length with elements that are as expected. -/
  | listEach (rule : SizeRule) (size? : Option Nat) (element : Expected)
  /-- Texts that are dates. -/
  | date
  /-- Dates strictly on one side of a limit. -/
  | dateBeyond (side : Side) (limit : DateLimit)
  /-- Dates between two limits, which count as well. -/
  | dateWithin (earliest latest : DateLimit)

/-- A document in which matchers stand for some of the nodes. -/
inductive Expected where
  | matcher (matcher : Matcher)
  | map (fields : List (String × Expected))
  | list (items : List Expected)
  | exact (value : Value)

end

/-- The date that a value holds. -/
def Value.date? (v : Value) : Option Moment :=
  v.text?.bind Date.read?

/-- The number that a value holds, as a binary64 number. -/
def Value.double? (v : Value) : Option Double :=
  v.number?.map Number.toDouble

/-- Whether a number is strictly on a side of a limit. -/
def Side.ofNumber (side : Side) (limit n : Double) : Bool :=
  match side with
  | .below => n.less limit
  | .above => limit.less n

/-- Whether a moment is strictly on a side of a limit. -/
def Side.ofMoment (side : Side) (limit moment : Moment) : Bool :=
  match side with
  | .below => moment.less limit
  | .above => limit.less moment

/-- Whether a text has a part. -/
def hasPart (part : String) (caseSensitive : Bool) (text : String) : Bool :=
  if caseSensitive then Text.occursIn part.toList text.toList
  else Text.occursIn (Text.lower part.toList) (Text.lower text.toList)

/-! ### Accepting -/

mutual

/-- Whether a matcher accepts a value. -/
def Matcher.accepts (now : Moment) : Matcher → Value → Bool
  | .shape shape, v => shape.accepts v
  | .textLike _ _ expression, v => v.text?.any expression.found
  | .textWith part caseSensitive, v => v.text?.any (hasPart part caseSensitive)
  | .numberBeyond side limit, v => v.double?.any (side.ofNumber limit)
  | .numberWithin min max, v => v.double?.any fun n => min.atMost n && n.atMost max
  | .listOf rule size? kind?, v =>
    v.items?.any fun items => rule.holds size? items.length && haveKind kind? items
  | .listWithin min max kind?, v =>
    v.items?.any fun items =>
      decide (min ≤ items.length ∧ items.length ≤ max) && haveKind kind? items
  | .listEach rule size? element, v =>
    v.items?.any fun items =>
      rule.holds size? items.length && items.all fun item => element.accepts now item
  | .date, v => v.date?.isSome
  | .dateBeyond side limit, v =>
    match v.date?, limit.at? now with
    | some moment, some limit => side.ofMoment limit moment
    | _, _ => false
  | .dateWithin earliest latest, v =>
    match v.date?, earliest.at? now, latest.at? now with
    | some moment, some earliest, some latest => earliest.atMost moment && moment.atMost latest
    | _, _, _ => false

/-- Whether a value is as expected. -/
def Expected.accepts (now : Moment) : Expected → Value → Bool
  | .matcher m, v => m.accepts now v
  | .map wanted, .map got =>
    wanted.length == got.length && Expected.acceptsFields now wanted got
  | .list wanted, .list got => Expected.acceptsItems now wanted got
  | .exact wanted, v => wanted.same v
  | _, _ => false

/-- Whether every expected entry has a value as expected under its key. -/
def Expected.acceptsFields (now : Moment) : List (String × Expected) → Fields → Bool
  | [], _ => true
  | (key, wanted) :: rest, got =>
    (match Entries.find? got key with
      | some v => wanted.accepts now v
      | none => false) && Expected.acceptsFields now rest got

/-- Whether there are as many values as expected, each as expected. -/
def Expected.acceptsItems (now : Moment) : List Expected → List Value → Bool
  | [], [] => true
  | wanted :: rest, v :: vs => wanted.accepts now v && Expected.acceptsItems now rest vs
  | _, _ => false

end

end Docweave
