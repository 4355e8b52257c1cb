import Docweave.Entries

/-!
What is known under names: every name once, in the order of the names.
-/

namespace Docweave

/-- What is known under names. -/
structure Registry (α : Type u) where
  entries : Entries α

namespace Registry

variable {α : Type u}

/-- Nothing. -/
def empty : Registry α :=
  ⟨[]⟩

/-- Gives a name its place in the order, or what stands there a new value. -/
def place : Entries α → String → α → Entries α
  | [], name, value => [(name, value)]
  | (k, v) :: es, name, value =>
    if name < k then (name, value) :: (k, v) :: es
    else if k = name then (k, value) :: es
    else (k, v) :: place es name value

/-- What is known under the names given. -/
def ofList (pairs : List (String × α)) : Registry α :=
  ⟨pairs.foldl (fun es entry => place es entry.1 entry.2) []⟩

/-- What is known under a name. -/
def find? (registry : Registry α) (name : String) : Option α :=
  Entries.find? registry.entries name

/-- Whether something is known under a name. -/
def contains (registry : Registry α) (name : String) : Bool :=
  Entries.contains registry.entries name

/-- The names in order. -/
def names (registry : Registry α) : List String :=
  Entries.keys registry.entries

/-- Registers something under a name that is free. -/
def register? (registry : Registry α) (name : String) (value : α) : Option (Registry α) :=
  if registry.contains name then none else some ⟨place registry.entries name value⟩

theorem find?_place (es : Entries α) (name : String) (value : α) (other : String) :
    Entries.find? (place es name value) other
      = if name = other then some value else Entries.find? es other := by
  induction es with
  | nil => rfl
  | cons e es ih =>
    obtain ⟨k, v⟩ := e
    simp only [place]
    split
    · rfl
    · split
      · next h => subst h; simp only [Entries.find?_cons]; split <;> rfl
      · next h => simp only [Entries.find?_cons, ih]; grind

end Registry

end Docweave
