import Docweave.Json.Writer

/-!
What matchers are made of: kinds and shapes of values, sides of limits, and rules for the length of
a list, each with its wording.
-/

namespace Docweave

/-! ### Kinds of values -/

/-- The kinds of values. -/
inductive ValueKind where
  | null
  | bool
  | number
  | text
  | list
  | map
deriving DecidableEq

/-- The word for a kind. -/
def ValueKind.label : ValueKind → String
  | .null => "null"
  | .bool => "bool"
  | .number => "number"
  | .text => "text"
  | .list => "list"
  | .map => "dict"

/-- The kind of a value. -/
def Value.kind : Value → ValueKind
  | .null => .null
  | .bool _ => .bool
  | .number _ => .number
  | .text _ => .text
  | .list _ => .list
  | .map _ => .map

/-- The text of a value, cut after eighty characters. -/
def Value.shortened (v : Value) : String :=
  let text := Json.compact v
  if text.length ≤ 80 then text else String.ofList (text.toList.take 80) ++ "..."

/-! ### Parts of matchers -/

/-- What a matcher without arguments asks for. -/
inductive Shape where
  | anything
  | text
  | number
  | bool
  | map
  | nonEmptyMap
  | list
  | nonEmptyList
deriving DecidableEq

/-- Whether a value has the shape. -/
def Shape.accepts : Shape → Value → Bool
  | .anything, _ => true
  | .text, .text _ => true
  | .number, .number _ => true
  | .bool, .bool _ => true
  | .map, .map _ => true
  | .nonEmptyMap, .map fields => !fields.isEmpty
  | .list, .list _ => true
  | .nonEmptyList, .list items => !items.isEmpty
  | _, _ => false

/-- The wording of a shape. -/
def Shape.describe : Shape → String
  | .anything => "<Anything>"
  | .text => "<Any Text>"
  | .number => "<Any Number>"
  | .bool => "<Any Bool>"
  | .map => "<Any Dict>"
  | .nonEmptyMap => "<Any Non-Empty Dict>"
  | .list => "<Any List>"
  | .nonEmptyList => "<Any Non-Empty List>"

/-- On which side of a limit. -/
inductive Side where
  | below
  | above
deriving DecidableEq

/-- How the length of a list compares to a size. -/
inductive SizeRule where
  | exactly
  | longer
  | shorter
deriving DecidableEq

/-- Whether a length keeps the rule; without a size every length does. -/
def SizeRule.holds (rule : SizeRule) (size? : Option Nat) (length : Nat) : Bool :=
  match size? with
  | none => true
  | some size =>
    match rule with
    | .exactly => length == size
    | .longer => decide (size < length)
    | .shorter => decide (length < size)

/-- The wording of a rule for lists of a kind of elements. -/
def SizeRule.describe : SizeRule → String
  | .exactly => "Any List Of"
  | .longer => "Any List Longer Than"
  | .shorter => "Any List Shorter Than"

/-- The wording of a rule and its size. -/
def SizeRule.describeSize (rule : SizeRule) (size? : Option Nat) : String :=
  match size? with
  | none => "any number of"
  | some size =>
    match rule with
    | .exactly => toString size
    | .longer => s!"more than {size}"
    | .shorter => s!"fewer than {size}"

/-- Whether all values are of a kind; without a kind they are. -/
def haveKind (kind? : Option ValueKind) (items : List Value) : Bool :=
  match kind? with
  | none => true
  | some kind => items.all fun item => decide (item.kind = kind)

/-- The wording of a kind of elements. -/
def describeKind : Option ValueKind → String
  | none => ""
  | some kind => " of type \"" ++ kind.label ++ "\""

/-- The word for heeding case or not. -/
def sensitivity (caseSensitive : Bool) : String :=
  if caseSensitive then "sensitive" else "insensitive"

end Docweave
