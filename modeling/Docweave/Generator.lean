import Docweave.Params
import Docweave.Registry

/-!
Generators: values that are made up.

A generator makes a value of its arguments and of numbers without a pattern, which it takes from a
state one after the other.  What it can make is settled by its arguments; the numbers only choose.
-/

namespace Docweave

/-- Where numbers without a pattern come from. -/
abbrev Chance (σ : Type) : Type := StateM σ Nat

/-- Makes a value of its arguments.  The state is kept also when that fails. -/
abbrev Generator (σ : Type) : Type := Arguments → ExceptT Fault (StateM σ) Value

/-- The generators there are, by name. -/
abbrev Generators (σ : Type) : Type := Registry (Generator σ)

namespace Generators

/-- Registers a generator under a name that is free. -/
def register {σ : Type} (generators : Generators σ) (name : String) (generator : Generator σ) :
    Except Fault (Generators σ) :=
  match generators.register? name generator with
  | some generators => .ok generators
  | none => .error (.call .generator name .alreadyRegistered)

/-- Makes a value with the generator under a name. -/
def generate {σ : Type} (generators : Generators σ) (name : String) : Generator σ :=
  fun args state =>
    match generators.find? name with
    | some generator => generator args state
    | none => (.error (.call .generator name .notRegistered), state)

end Generators

/-- The values that a generator chooses from. -/
inductive Template where
  | oneOf (first : Value) (rest : List Value)
  /-- The integers from `min` on, `more` more of them. -/
  | integers (min : Int) (more : Nat)
  /-- A beginning, and so many letters and digits. -/
  | letters (beginning : String) (length : Nat)
  /-- Random identifiers: thirty-two hexadecimal digits in groups, two of which tell the version. -/
  | identifier

namespace Template

/-- The letters and digits of texts. -/
def alphabet : List Char :=
  "abcdefghijklmnopqrstuvwxyzABCDEFGHIJKLMNOPQRSTUVWXYZ0123456789".toList

/-- The digits of identifiers. -/
def hexDigits : List Char :=
  "0123456789abcdef".toList

/-- The first digits of the group that tells the variant of an identifier. -/
def variantDigits : List Char :=
  "89ab".toList

/-- One of some values. -/
def choose {σ α : Type} (chance : Chance σ) (first : α) (rest : List α) : StateM σ α := do
  let n ← chance
  pure ((first :: rest).getD (n % (rest.length + 1)) first)

/-- So many characters of an alphabet. -/
def characters {σ : Type} (chance : Chance σ) (first : Char) (rest : List Char) :
    Nat → StateM σ (List Char)
  | 0 => pure []
  | n + 1 => do
    let c ← choose chance first rest
    let cs ← characters chance first rest n
    pure (c :: cs)

/-- The text of an identifier. -/
def identifierText {σ : Type} (chance : Chance σ) : StateM σ String := do
  let digits := characters chance '0' (hexDigits.drop 1)
  let a ← digits 8
  let b ← digits 4
  let c ← digits 3
  let variant ← choose chance '8' (variantDigits.drop 1)
  let d ← digits 3
  let e ← digits 12
  pure (String.ofList (a ++ '-' :: b ++ '-' :: '4' :: c ++ '-' :: variant :: d ++ '-' :: e))

/-- Makes a value of a template. -/
def draw {σ : Type} (chance : Chance σ) : Template → StateM σ Value
  | .oneOf first rest => choose chance first rest
  | .integers min more => do
    let n ← chance
    pure (.int (min + (n % (more + 1) : Nat)))
  | .letters beginning length => do
    let cs ← characters chance 'a' (alphabet.drop 1) length
    pure (.text (beginning ++ String.ofList cs))
  | .identifier => do
    pure (.text (← identifierText chance))

end Template

end Docweave
