import Docweave.Matcher

/-!
What matchers say: their own wording, and why a value is not accepted.

An explanation is given exactly for the values that are not accepted, as long as the limits of
dates do not lead out of range.
-/

namespace Docweave

/-! ### Describing -/

mutual

/-- The wording of a matcher. -/
def Matcher.describe : Matcher → String
  | .shape shape => shape.describe
  | .textLike pattern caseSensitive _ =>
    "<Any Text Like " ++ quoted pattern ++ ", case " ++ sensitivity caseSensitive ++ ">"
  | .textWith part _ => "<Any Text With " ++ quoted part ++ ">"
  | .numberBeyond .above limit =>
    "<Any Number Greater Than " ++ limit.render Layout.sentence ++ ">"
  | .numberBeyond .below limit => "<Any Number Less Than " ++ limit.render Layout.sentence ++ ">"
  | .numberWithin min max =>
    "<Any Number In Range from " ++ min.render Layout.sentence ++ " to "
      ++ max.render Layout.sentence ++ ">"
  | .listOf rule size? kind? =>
    let size := match size? with
      | some size => s!" {size} item(s)"
      | none => ""
    "<" ++ rule.describe ++ size ++ describeKind kind? ++ ">"
  | .listWithin min max kind? =>
    s!"<Any List Of Range of {min} to {max} items" ++ describeKind kind? ++ ">"
  | .listEach rule size? element =>
    "<Any List Of Matchers (" ++ element.describe ++ ") of " ++ rule.describeSize size?
      ++ " item(s)>"
  | .date => "<Any Date>"
  | .dateBeyond .below limit => "<Any Date Before " ++ limit.render ++ ">"
  | .dateBeyond .above limit => "<Any Date After " ++ limit.render ++ ">"
  | .dateWithin earliest latest =>
    "<Any Date In Range between " ++ earliest.render ++ " and " ++ latest.render ++ ">"

/-- The wording of an expected value. -/
def Expected.describe : Expected → String
  | .matcher m => m.describe
  | .map fields => "\x7b" ++ ", ".intercalate (Expected.describeFields fields) ++ "\x7d"
  | .list items => "[" ++ ", ".intercalate (Expected.describeItems items) ++ "]"
  | .exact v => v.shortened

/-- The wordings of expected entries. -/
def Expected.describeFields : List (String × Expected) → List String
  | [] => []
  | (key, wanted) :: rest =>
    (quoted key ++ ": " ++ wanted.describe) :: Expected.describeFields rest

/-- The wordings of expected elements. -/
def Expected.describeItems : List Expected → List String
  | [] => []
  | wanted :: rest => wanted.describe :: Expected.describeItems rest

end

/-! ### Explaining -/

/-- The plain explanation: the value is not what is described. -/
def differs (v : Value) (description : String) : String :=
  v.shortened ++ " != " ++ description

/-- The explanation for a value that is no date. -/
def notADate (v : Value) : String :=
  v.shortened ++ " is not a date, only ISO 8601 formatted text is allowed"

/-- How much one moment is later or earlier than another. -/
def apart (moment limit : Moment) (word : String) (nanos : Int) : String :=
  moment.render ++ " is " ++ renderSpan nanos ++ " " ++ word ++ " than " ++ limit.render

/-- The explanation for a text that an expression does not match. -/
def explainTextLike (pattern : String) (caseSensitive : Bool) : Value → String
  | .text text =>
    quoted text ++ " doesn't match case " ++ sensitivity caseSensitive ++ " pattern "
      ++ quoted pattern
  | v => "type " ++ v.kind.label ++ " doesn't match expected text"

/-- The explanation for a number that is not between limits. -/
def explainNumberWithin (min max : Double) (v : Value) : String :=
  match v.double? with
  | some n =>
    if max.less n then
      n.render Layout.sentence ++ " is greater than " ++ max.render Layout.sentence
        ++ " (right limit)"
    else
      n.render Layout.sentence ++ " is less than " ++ min.render Layout.sentence
        ++ " (left limit)"
  | none => v.shortened ++ " is not a number"

/-- The explanation for a date that is not on a side of a limit. -/
def explainDateBeyond (now : Moment) (side : Side) (limit : DateLimit) (v : Value) :
    Option String :=
  match v.date? with
  | none => some (notADate v)
  | some moment =>
    (limit.at? now).map fun limit =>
      match side with
      | .below => apart moment limit "later" (moment.since limit)
      | .above => apart moment limit "earlier" (limit.since moment)

/-- The explanation for a date that is not between limits. -/
def explainDateWithin (now : Moment) (earliest latest : DateLimit) (v : Value) :
    Option String :=
  match v.date? with
  | none => some (notADate v)
  | some moment =>
    match earliest.at? now, latest.at? now with
    | some earliest, some latest =>
      if moment.less earliest then
        some (apart moment earliest "earlier" (earliest.since moment) ++ " (left limit)")
      else some (apart moment latest "later" (moment.since latest) ++ " (right limit)")
    | _, _ => none

/-- The lines about elements that are not as expected, with their positions. -/
def elementLines (explain : Value → Option String) (items : List Value) : List String :=
  items.zipIdx.filterMap fun (item, i) =>
    (explain item).map fun reason => s!"  {i}) " ++ item.shortened ++ ": " ++ reason

/-- The explanation for a list, from the lines about its elements. -/
def explainListEach (rule : SizeRule) (size? : Option Nat) (description : String)
    (items : List Value) (lines : List String) : Option String :=
  let sizeLines :=
    if rule.holds size? items.length then []
    else
      [s!"size {items.length} doesn't match expected " ++ rule.describeSize size? ++ " item(s)"]
  let all :=
    if lines.isEmpty then sizeLines
    else sizeLines ++ ("elements that don't match " ++ description ++ ":") :: lines
  if all.isEmpty then none else some ("\n".intercalate all)

mutual

/-- Why a matcher does not accept a value; nothing if it does. -/
def Matcher.explain (now : Moment) : Matcher → Value → Option String
  | .listEach rule size? element, v =>
    match v with
    | .list items =>
      explainListEach rule size? element.describe items
        (elementLines (fun item => element.explain now item) items)
    | v => some ("type " ++ v.kind.label ++ " doesn't match expected list")
  | .textLike pattern caseSensitive expression, v =>
    if (Matcher.textLike pattern caseSensitive expression).accepts now v then none
    else some (explainTextLike pattern caseSensitive v)
  | .numberWithin min max, v =>
    if (Matcher.numberWithin min max).accepts now v then none
    else some (explainNumberWithin min max v)
  | .date, v => if Matcher.date.accepts now v then none else some (notADate v)
  | .dateBeyond side limit, v =>
    if (Matcher.dateBeyond side limit).accepts now v then none
    else explainDateBeyond now side limit v
  | .dateWithin earliest latest, v =>
    if (Matcher.dateWithin earliest latest).accepts now v then none
    else explainDateWithin now earliest latest v
  | m, v => if m.accepts now v then none else some (differs v m.describe)

/-- Why a value is not as expected; nothing if it is. -/
def Expected.explain (now : Moment) : Expected → Value → Option String
  | .matcher m, v => m.explain now v
  | wanted, v => if wanted.accepts now v then none else some (differs v wanted.describe)

end

end Docweave
