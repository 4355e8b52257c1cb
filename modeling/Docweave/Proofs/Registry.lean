import Docweave.Generator.Builtin
import Docweave.Matchers
import Mathlib.Data.List.Induction

/-!
What is known under a name.

A registry is filled entry by entry, so of two entries with one name the later one counts
(`Registry.find?_ofList`).  No two of the matchers that are always there have one name, and no two
of the generators have, so each of them is known under its own name and nothing else is known under
any.
-/

namespace Docweave

namespace Registry

variable {α : Type}

/-- Of the entries with a name the last one counts. -/
theorem find?_ofList (pairs : List (String × α)) (name : String) :
    (ofList pairs).find? name = Entries.find? pairs.reverse name := by
  induction pairs using List.reverseRecOn with
  | nil => rfl
  | append_singleton front e ih =>
      have hplace : ofList (front ++ [e]) = ⟨place (ofList front).entries e.1 e.2⟩ := by
        unfold ofList
        rw [List.foldl_append, List.foldl_cons, List.foldl_nil]
      rw [hplace, find?, find?_place, List.reverse_append, List.reverse_singleton,
        List.singleton_append, Entries.find?_cons, ← ih, find?]

theorem find?_ofList_of_distinct {pairs : List (String × α)} (h : Entries.Distinct pairs)
    (name : String) : (ofList pairs).find? name = Entries.find? pairs name := by
  rw [find?_ofList, h.find?_of_perm (List.reverse_perm pairs).symm]

/-- What is known under a name was entered. -/
theorem mem_of_find?_ofList {pairs : List (String × α)} {name : String} {value : α}
    (h : (ofList pairs).find? name = some value) : (name, value) ∈ pairs := by
  rw [find?_ofList] at h
  exact List.mem_reverse.mp (Entries.mem_of_find? h)

end Registry

/-- Under the name of a matcher that is always there, and under no other, it is known. -/
theorem Matchers.find?_standard_iff {name : String} {recipe : Matcher.Recipe} :
    standard.find? name = some recipe ↔ ∃ b, b.name = name ∧ recipe = .builtin b := by
  constructor
  · intro h
    obtain ⟨b, -, heq⟩ := List.mem_map.mp (Registry.mem_of_find?_ofList h)
    obtain ⟨hname, hrecipe⟩ := Prod.mk.inj heq
    exact ⟨b, hname, hrecipe.symm⟩
  · rintro ⟨b, rfl, rfl⟩
    have hdistinct : Entries.Distinct
        (Matcher.Builtin.all.map fun b => (b.name, Matcher.Recipe.builtin b)) := by
      unfold Entries.Distinct Entries.keys
      rw [List.map_map]
      decide
    rw [standard, Registry.find?_ofList_of_distinct hdistinct]
    exact hdistinct.find?_of_mem (List.mem_map.mpr ⟨b, Matcher.Builtin.mem_all b, rfl⟩)

/-- Under the name of a generator that is always there, and under no other, it is known. -/
theorem Generators.find?_standard_iff {σ : Type} {chance : Chance σ} {name : String}
    {generator : Generator σ} :
    (standard chance).find? name = some generator ↔
      ∃ b : Generator.Builtin, b.name = name ∧ generator = b.generator chance := by
  constructor
  · intro h
    obtain ⟨b, -, heq⟩ := List.mem_map.mp (Registry.mem_of_find?_ofList h)
    obtain ⟨hname, hgenerator⟩ := Prod.mk.inj heq
    exact ⟨b, hname, hgenerator.symm⟩
  · rintro ⟨b, rfl, rfl⟩
    have hdistinct : Entries.Distinct
        (Generator.Builtin.all.map fun b => (b.name, b.generator chance)) := by
      unfold Entries.Distinct Entries.keys
      rw [List.map_map]
      show (Generator.Builtin.all.map Generator.Builtin.name).Nodup
      decide
    have hall : b ∈ Generator.Builtin.all := by cases b <;> decide
    rw [standard, Registry.find?_ofList_of_distinct hdistinct]
    exact hdistinct.find?_of_mem (List.mem_map.mpr ⟨b, hall, rfl⟩)

end Docweave
