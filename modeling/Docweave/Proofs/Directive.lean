import Docweave.Directive
import Docweave.Proofs.Children

/-!
Which values are directives, and who takes them.

A directive is a map with a marker, so whether a node is one can be read off its head: whatever
happens below a node, it stays a directive or stays none.  Handlers that match exactly on their
markers take every directive between them.
-/

namespace Docweave

theorem isDirective_eq_false_of_isContainer {markers : List String} {v : Value}
    (h : v.isContainer = false) : isDirective markers v = false := by
  cases v <;> first | rfl | exact absurd h (by simp [Value.isContainer])

/-- Whether a node is a directive can be read off its head. -/
theorem isDirective_of_head_eq {markers : List String} {v w : Value} (h : v.head = w.head) :
    isDirective markers v = isDirective markers w := by
  cases w with
  | map fields =>
      obtain ⟨fields', rfl, hkeys⟩ := Value.map_of_head_eq h
      simp only [isDirective, Entries.contains]
      congr 1
      funext marker
      rw [Bool.eq_iff_iff, Entries.find?_isSome_iff, Entries.find?_isSome_iff, hkeys]
  | list items =>
      obtain ⟨items', rfl, -⟩ := Value.list_of_head_eq h
      rfl
  | _ => rw [Value.eq_of_head_eq_of_scalar h rfl]

theorem isContainer_of_isDirective {markers : List String} {v : Value}
    (h : isDirective markers v = true) : v.isContainer = true := by
  cases v <;> first | rfl | exact absurd h (by simp [isDirective])

theorem isDirective_map_iff {markers : List String} {fields : Fields} :
    isDirective markers (.map fields) = true ↔
      ∃ marker ∈ markers, Entries.contains fields marker = true := by
  simp only [isDirective, List.any_eq_true]

/-- In a value with scalars only there is no directive. -/
theorem isDirective_inside_of_scalars {markers : List String} {v : Value}
    (h : ∀ e ∈ v.entries, e.2.isContainer = false) : ∀ below d, below ≠ [] →
      v.node? below = some d → isDirective markers d = false := by
  intro below d hne hn
  cases below with
  | nil => exact absurd rfl hne
  | cons token below =>
      rw [Value.node?_cons] at hn
      obtain ⟨c, hc, hn⟩ := Option.bind_eq_some_iff.mp hn
      have hscalar : c.isContainer = false := h _ (Value.mem_entries_of_child? hc)
      cases below with
      | nil =>
          rw [Value.node?_nil] at hn
          exact Option.some.inj hn ▸ isDirective_eq_false_of_isContainer hscalar
      | cons token below =>
          rw [Value.node?_cons] at hn
          obtain ⟨c', hc', -⟩ := Option.bind_eq_some_iff.mp hn
          have hmem := Value.mem_entries_of_child? hc'
          rw [Value.entries_of_isContainer_eq_false hscalar] at hmem
          exact absurd hmem List.not_mem_nil

namespace Handler

variable {μ : Type} {handlers : List (Handler μ)}

/-- Every directive is taken by some handler. -/
def Taking (handlers : List (Handler μ)) : Prop :=
  ∀ directive, isDirective (markers handlers) (.map directive) = true →
    find? handlers directive ≠ none

/-- Each handler takes exactly the maps that have its marker as a key. -/
def MatchesMarkers (handlers : List (Handler μ)) : Prop :=
  ∀ handler ∈ handlers, ∀ directive,
    handler.takes directive = Entries.contains directive handler.marker

theorem taking_of_matchesMarkers (h : MatchesMarkers handlers) : Taking handlers := by
  intro directive hdirective hnone
  obtain ⟨marker, hmarker, hcontains⟩ := isDirective_map_iff.mp hdirective
  obtain ⟨handler, hmem, rfl⟩ := List.mem_map.mp hmarker
  have := List.find?_eq_none.mp hnone handler hmem
  rw [h handler hmem, hcontains] at this
  exact this rfl

/-- What a handler takes is a directive. -/
theorem isDirective_of_find? (h : MatchesMarkers handlers) {directive : Fields}
    {handler : Handler μ} (hfind : find? handlers directive = some handler) :
    isDirective (markers handlers) (.map directive) = true := by
  have hmem := List.mem_of_find?_eq_some hfind
  have htakes := List.find?_some hfind
  rw [h handler hmem] at htakes
  exact isDirective_map_iff.mpr ⟨handler.marker, List.mem_map.mpr ⟨handler, hmem, rfl⟩, htakes⟩

end Handler

end Docweave
