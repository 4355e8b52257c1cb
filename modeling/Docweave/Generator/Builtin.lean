import Docweave.Generator
import Docweave.Text.Word

/-!
The generators that are always there: what each makes of its arguments.
-/

namespace Docweave

/-- A generator that is always there. -/
inductive Generator.Builtin where
  | firstName
  | lastName
  | number
  | identifier
  | text
  | choice
  | bool
deriving DecidableEq

namespace Generator.Builtin

/-- First names of men, after the first of them. -/
def moreMaleNames : List String :=
  ["John", "Alex", "Keanu", "Michel", "Aaron", "Richard", "Ricardo"]

/-- First names of women, after the first of them. -/
def moreFemaleNames : List String :=
  ["Kate", "Maria", "Marry", "Lucia", "Tiffany", "Aki", "Noelle"]

/-- Last names, after the first of them. -/
def moreLastNames : List String :=
  ["Robinson", "Walker", "Reaves", "Smith", "Levi", "Yamamoto", "Brodski", "Danielopoulos",
    "McNuggets", "Lopez", "Hernandez"]

/-- The name of a generator. -/
def name : Generator.Builtin → String
  | .firstName => "FirstName"
  | .lastName => "LastName"
  | .number => "Number"
  | .identifier => "Uuid"
  | .text => "Text"
  | .choice => "Choice"
  | .bool => "Bool"

/-- The names of the parameters of a generator. -/
def params : Generator.Builtin → List String
  | .firstName => ["gender"]
  | .lastName => []
  | .number => ["min", "max"]
  | .identifier => []
  | .text => ["length", "prefix"]
  | .choice => ["options"]
  | .bool => []

/-- All of them. -/
def all : List Generator.Builtin :=
  [.firstName, .lastName, .number, .identifier, .text, .choice, .bool]

/-- One of some texts. -/
def oneText (first : String) (rest : List String) : Template :=
  .oneOf (.text first) (rest.map .text)

/-- Whether a text says male, in letters of either case and with blanks around it. -/
def isMale (gender : String) : Bool :=
  (String.ofList (Text.trim gender.toList)).toLower == "male"

/-- First names; any word but one asks for the names of women. -/
def firstNames (p : Params) : Except CallFault Template := do
  let gender := (← p.text? 0).getD "male"
  if isMale gender then .ok (oneText "James" moreMaleNames)
  else .ok (oneText "Karen" moreFemaleNames)

/-- Integers between two limits, which have to be in order. -/
def integers (p : Params) : Except CallFault Template := do
  let min := (← p.integer? 0).getD 0
  let max := (← p.integer? 1).getD 100
  if max < min then .error (.emptyInterval min max)
  else .ok (.integers min (max - min).toNat)

/-- Letters and digits after a beginning. -/
def letters (p : Params) : Except CallFault Template := do
  let length := (← p.size? 0).getD 8
  let beginning := (← p.text? 1).getD ""
  .ok (.letters beginning length)

/-- The elements of a list that is not empty. -/
def options (p : Params) : Except CallFault Template :=
  match p.require 0 with
  | .error fault => .error fault
  | .ok (.list (first :: rest)) => .ok (.oneOf first rest)
  | .ok v => .error (.badOptions v)

/-- What a generator chooses from, given bound arguments. -/
def ofParams (p : Params) : Generator.Builtin → Except CallFault Template
  | .firstName => firstNames p
  | .lastName => .ok (oneText "Harris" moreLastNames)
  | .number => integers p
  | .identifier => .ok .identifier
  | .text => letters p
  | .choice => options p
  | .bool => .ok (.oneOf (.bool false) [.bool true])

/-- What a generator chooses from, given its arguments. -/
def template (b : Generator.Builtin) (args : Arguments) : Except CallFault Template :=
  match Params.bind b.params args with
  | .error fault => .error fault
  | .ok p => ofParams p b

/-- The generator. -/
def generator {σ : Type} (chance : Chance σ) (b : Generator.Builtin) : Generator σ :=
  fun args state =>
    match b.template args with
    | .error cause => (.error (.call .generator b.name cause), state)
    | .ok template =>
      let (v, state) := template.draw chance state
      (.ok v, state)

end Generator.Builtin

/-- The generators that are always there. -/
def Generators.standard {σ : Type} (chance : Chance σ) : Generators σ :=
  Registry.ofList (Generator.Builtin.all.map fun b => (b.name, b.generator chance))

end Docweave
