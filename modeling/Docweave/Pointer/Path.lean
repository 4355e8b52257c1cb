/-!
Paths: the segments from the root of a document down to a node.

The order of ancestry is the order of leading parts.  The lexicographic order of paths puts every
node right before the nodes below it.
-/

namespace Docweave

/-- The segments from the root to a node, unescaped; the root has none. -/
abbrev Path : Type := List String

namespace Path

/-- Whether the first path lies strictly below the second. -/
def isBelow (p q : Path) : Bool :=
  decide (q.length < p.length) && q.isPrefixOf p

/-- Whether the first path is the second or lies below it. -/
def isWithin (p q : Path) : Bool :=
  q.isPrefixOf p

/-- The path of the node above; the root is above itself. -/
def parent (p : Path) : Path :=
  p.dropLast

/-- The path of a child. -/
def child (p : Path) (segment : String) : Path :=
  p ++ [segment]

/-- The order by segments, an ancestor before its descendants. -/
def atMost : Path → Path → Bool
  | [], _ => true
  | _ :: _, [] => false
  | a :: p, b :: q => decide (a < b) || (a == b && atMost p q)

theorem isBelow_iff (p q : Path) : isBelow p q = true ↔ ∃ s, s ≠ [] ∧ p = q ++ s := by
  simp only [isBelow, Bool.and_eq_true, decide_eq_true_eq, List.isPrefixOf_iff_prefix]
  constructor
  · rintro ⟨hlt, s, rfl⟩
    exact ⟨s, by rintro rfl; simp at hlt, rfl⟩
  · rintro ⟨s, hs, rfl⟩
    refine ⟨?_, s, rfl⟩
    have : 0 < s.length := List.length_pos_iff.mpr hs
    simp only [List.length_append]
    omega

theorem isBelow_iff_prefix_ne {p q : Path} : p.isBelow q = true ↔ q <+: p ∧ p ≠ q := by
  rw [isBelow_iff]
  constructor
  · rintro ⟨s, hs, rfl⟩
    exact ⟨List.prefix_append q s, fun h => hs (List.append_right_eq_self.mp h)⟩
  · rintro ⟨⟨s, rfl⟩, hne⟩
    exact ⟨s, fun h => hne (by rw [h, List.append_nil]), rfl⟩

theorem prefix_antisymm {p q : Path} (hpq : p <+: q) (hqp : q <+: p) : p = q :=
  hpq.eq_of_length (Nat.le_antisymm hpq.length_le hqp.length_le)

theorem isBelow_trans {p q r : Path} (hpq : p.isBelow q = true) (hqr : q.isBelow r = true) :
    p.isBelow r = true := by
  obtain ⟨hqp, hne⟩ := isBelow_iff_prefix_ne.mp hpq
  obtain ⟨hrq, -⟩ := isBelow_iff_prefix_ne.mp hqr
  refine isBelow_iff_prefix_ne.mpr ⟨hrq.trans hqp, fun heq => ?_⟩
  exact hne (prefix_antisymm (heq ▸ hrq) hqp)

@[simp] theorem parent_child (p : Path) (segment : String) : (p.child segment).parent = p :=
  List.dropLast_concat

@[simp] theorem getLast?_child (p : Path) (segment : String) :
    (p.child segment).getLast? = some segment :=
  List.getLast?_concat

theorem child_ne_nil (p : Path) (segment : String) : p.child segment ≠ [] :=
  List.append_ne_nil_of_right_ne_nil p (List.cons_ne_nil segment [])

/-- A path leads through one child of a node. -/
theorem child_inj_of_prefix {p q : Path} {a b : String} (ha : p.child a <+: q)
    (hb : p.child b <+: q) : a = b := by
  obtain ⟨s, rfl⟩ := ha
  obtain ⟨t, ht⟩ := hb
  simp only [child, List.append_assoc, List.singleton_append] at ht
  exact (List.cons.inj (List.append_cancel_left ht)).1.symm

theorem prefix_of_child_prefix {p q : Path} {a : String} (h : p.child a <+: q) : p <+: q :=
  (List.prefix_append p [a]).trans h

theorem eq_nil_or_child (p : Path) : p = [] ∨ ∃ q segment, p = child q segment := by
  cases hlast : p.getLast? with
  | none => exact Or.inl (List.getLast?_eq_none_iff.mp hlast)
  | some segment =>
    obtain ⟨q, hq⟩ := List.getLast?_eq_some_iff.mp hlast
    exact Or.inr ⟨q, segment, hq⟩

end Path

end Docweave
