import Docweave.Matcher
import Docweave.Params
import Docweave.Pattern.Reader

/-!
The matchers there are, by name, and how each is built from its arguments.

A list matcher that holds what is expected of every element cannot be finished from its arguments
alone, since matchers may stand in what is expected.  Its draft names the argument, and whoever
knows the other matchers finishes it.
-/

namespace Docweave

/-- A matcher that is always there. -/
inductive Matcher.Builtin where
  | shape (shape : Shape)
  | textLike
  | textWith
  | numberBeyond (side : Side)
  | numberWithin
  | listOf (rule : SizeRule)
  | listWithin
  | listEach (rule : SizeRule)
  | date
  | dateBeyond (side : Side)
  | dateWithin
deriving DecidableEq

namespace Matcher.Builtin

/-- The name of a matcher. -/
def name : Builtin → String
  | .shape .anything => "Anything"
  | .shape .text => "AnyText"
  | .shape .number => "AnyNumber"
  | .shape .bool => "AnyBool"
  | .shape .map => "AnyDict"
  | .shape .nonEmptyMap => "AnyNonEmptyDict"
  | .shape .list => "AnyList"
  | .shape .nonEmptyList => "AnyNonEmptyList"
  | .textLike => "AnyTextLike"
  | .textWith => "AnyTextWith"
  | .numberBeyond .above => "AnyNumberGreaterThan"
  | .numberBeyond .below => "AnyNumberLessThan"
  | .numberWithin => "AnyNumberInRange"
  | .listOf .exactly => "AnyListOf"
  | .listOf .longer => "AnyListLongerThan"
  | .listOf .shorter => "AnyListShorterThan"
  | .listWithin => "AnyListOfRange"
  | .listEach .exactly => "AnyListOfMatchers"
  | .listEach .longer => "AnyListOfMatchersLongerThan"
  | .listEach .shorter => "AnyListOfMatchersShorterThan"
  | .date => "AnyDate"
  | .dateBeyond .below => "AnyDateBefore"
  | .dateBeyond .above => "AnyDateAfter"
  | .dateWithin => "AnyDateInRange"

/-- The names of the parameters of a matcher. -/
def params : Builtin → List String
  | .shape _ => []
  | .textLike => ["pattern", "case_sensitive"]
  | .textWith => ["substring", "case_sensitive"]
  | .numberBeyond _ => ["number"]
  | .numberWithin => ["min_number", "max_number"]
  | .listOf _ => ["size", "item_type"]
  | .listWithin => ["min_size", "max_size", "item_type"]
  | .listEach _ => ["matcher", "size"]
  | .date => []
  | .dateBeyond _ => ["date"]
  | .dateWithin => ["date_from", "date_to"]

/-- All of them. -/
def all : List Builtin :=
  [.shape .anything, .shape .text, .shape .number, .shape .bool, .shape .map,
    .shape .nonEmptyMap, .shape .list, .shape .nonEmptyList, .textLike, .textWith,
    .numberBeyond .above, .numberBeyond .below, .numberWithin, .listOf .exactly,
    .listOf .longer, .listOf .shorter, .listWithin, .listEach .exactly, .listEach .longer,
    .listEach .shorter, .date, .dateBeyond .below, .dateBeyond .above, .dateWithin]

theorem mem_all (b : Builtin) : b ∈ all := by
  match b with
  | .shape s => cases s <;> decide
  | .numberBeyond s | .dateBeyond s => cases s <;> decide
  | .listOf r | .listEach r => cases r <;> decide
  | .textLike | .textWith | .numberWithin | .listWithin | .date | .dateWithin => decide

end Matcher.Builtin

/-- The matcher that a matcher was built as. -/
def Matcher.builtin : Matcher → Matcher.Builtin
  | .shape s => .shape s
  | .textLike _ _ _ => .textLike
  | .textWith _ _ => .textWith
  | .numberBeyond side _ => .numberBeyond side
  | .numberWithin _ _ => .numberWithin
  | .listOf rule _ _ => .listOf rule
  | .listWithin _ _ _ => .listWithin
  | .listEach rule _ _ => .listEach rule
  | .date => .date
  | .dateBeyond side _ => .dateBeyond side
  | .dateWithin _ _ => .dateWithin

/-- The name of a matcher. -/
def Matcher.name (m : Matcher) : String :=
  m.builtin.name

/-- A matcher as far as its arguments alone tell. -/
inductive Matcher.Draft where
  | ready (matcher : Matcher)
  /-- What is expected of every element is still to be built; a bad size is a fault after that. -/
  | each (rule : SizeRule) (element : Value) (size : Except CallFault (Option Nat))

namespace Matcher.Draft

/-- The size of a rule: only lists of an exact length do without one. -/
def ruleSize (rule : SizeRule) (p : Params) (i : Nat) (missing : String) :
    Except CallFault (Option Nat) :=
  match p.size? i with
  | .error fault => .error fault
  | .ok none => if rule = .exactly then .ok none else .error (.missingArgument missing)
  | .ok (some size) => .ok (some size)

/-- A matcher for texts that an expression matches. -/
def textLike (p : Params) : Except CallFault Matcher := do
  let pattern ← p.required 0 (p.text? 0)
  let caseSensitive := (← p.flag? 1).getD false
  match Pattern.readAnchored (!caseSensitive) pattern with
  | .ok expression => .ok (.textLike pattern caseSensitive expression)
  | .error flaw => .error (.badPattern flaw.message)

/-- A matcher for texts with a part. -/
def textWith (p : Params) : Except CallFault Matcher := do
  let part ← p.required 0 (p.text? 0)
  let caseSensitive := (← p.flag? 1).getD false
  .ok (.textWith part caseSensitive)

/-- A matcher for numbers on a side of a limit. -/
def numberBeyond (side : Side) (p : Params) : Except CallFault Matcher := do
  .ok (.numberBeyond side (← p.required 0 (p.number? 0)))

/-- A matcher for numbers between limits, which have to be in order. -/
def numberWithin (p : Params) : Except CallFault Matcher := do
  let min ← p.required 0 (p.number? 0)
  let max ← p.required 1 (p.number? 1)
  if max.less min then .error (.numberLimits min max) else .ok (.numberWithin min max)

/-- A matcher for lists of a length. -/
def listOf (rule : SizeRule) (p : Params) : Except CallFault Matcher := do
  let size? ← ruleSize rule p 0 "size"
  .ok (.listOf rule size? ((p.get? 1).map Value.kind))

/-- A matcher for lists with a length between limits, which have to be in order and to differ. -/
def listWithin (p : Params) : Except CallFault Matcher := do
  let min ← p.required 0 (p.size? 0)
  let max ← p.required 1 (p.size? 1)
  if max ≤ min then .error (.sizeLimits min max)
  else .ok (.listWithin min max ((p.get? 2).map Value.kind))

/-- A matcher for dates on a side of a limit, which is the moment itself if it is not given. -/
def dateBeyond (side : Side) (p : Params) : Except CallFault Matcher := do
  let text := (← p.text? 0).getD "now"
  .ok (.dateBeyond side (← DateLimit.read text))

/-- A matcher for dates between limits, which have to be in order at the moment. -/
def dateWithin (now : Moment) (p : Params) : Except CallFault Matcher := do
  let first ← p.required 0 (p.text? 0)
  let last ← p.required 1 (p.text? 1)
  let earliest ← DateLimit.read first
  let latest ← DateLimit.read last
  let disordered := match earliest.at? now, latest.at? now with
    | some earliest, some latest => latest.less earliest
    | _, _ => false
  if disordered then .error (.dateLimits first last) else .ok (.dateWithin earliest latest)

/-- The draft of a matcher from bound arguments. -/
def ofParams (now : Moment) (p : Params) : Builtin → Except CallFault Draft
  | .shape s => .ok (.ready (.shape s))
  | .textLike => (textLike p).map .ready
  | .textWith => (textWith p).map .ready
  | .numberBeyond side => (numberBeyond side p).map .ready
  | .numberWithin => (numberWithin p).map .ready
  | .listOf rule => (listOf rule p).map .ready
  | .listWithin => (listWithin p).map .ready
  | .listEach rule =>
    match p.require 0 with
    | .error fault => .error fault
    | .ok element => .ok (.each rule element (ruleSize rule p 1 "size"))
  | .date => .ok (.ready .date)
  | .dateBeyond side => (dateBeyond side p).map .ready
  | .dateWithin => (dateWithin now p).map .ready

/-- The draft of a matcher from its arguments. -/
def ofArguments (now : Moment) (args : Arguments) (b : Builtin) : Except CallFault Draft :=
  match Params.bind b.params args with
  | .error fault => .error fault
  | .ok p => ofParams now p b

end Matcher.Draft

end Docweave
