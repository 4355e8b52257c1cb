import Docweave.Composer.Worklist
import Mathlib.Data.List.Basic
import Mathlib.Data.List.Induction
import Mathlib.Data.List.Nodup
import Mathlib.Data.String.Basic

/-!
What normalizing a worklist keeps.

A normalized worklist names nothing new (`mem_of_mem_normalize`), names no node twice and none
below another (`eq_of_prefix_of_mem_normalize`), and every node that was named is at or below one
that still is (`exists_prefix_of_mem`), in the order in which they came first
(`pairwise_idxOf_eraseDups`).  The nodes that are dropped are found in one walk over the sorted
list.  That the walk has to remember only the last node that it kept is because in the order of
paths everything between a node and one below it is below it as well (`prefix_of_between`).
-/

namespace Docweave

namespace Path

theorem atMost_cons_iff {a b : String} {p q : Path} :
    atMost (a :: p) (b :: q) = true ↔ a < b ∨ a = b ∧ atMost p q = true := by
  simp only [atMost, Bool.or_eq_true, Bool.and_eq_true, decide_eq_true_eq, beq_iff_eq]

theorem atMost_total (p q : Path) : (atMost p q || atMost q p) = true := by
  rw [Bool.or_eq_true]
  induction p generalizing q with
  | nil => exact Or.inl rfl
  | cons a p ih =>
      cases q with
      | nil => exact Or.inr rfl
      | cons b q =>
          rw [atMost_cons_iff, atMost_cons_iff]
          rcases lt_trichotomy a b with h | rfl | h
          · exact Or.inl (Or.inl h)
          · exact (ih q).imp (fun h => Or.inr ⟨rfl, h⟩) fun h => Or.inr ⟨rfl, h⟩
          · exact Or.inr (Or.inl h)

theorem atMost_trans (p q r : Path) (hpq : atMost p q = true) (hqr : atMost q r = true) :
    atMost p r = true := by
  induction p generalizing q r with
  | nil => rfl
  | cons a p ih =>
      cases q with
      | nil => exact absurd hpq (by simp [atMost])
      | cons b q =>
          cases r with
          | nil => exact absurd hqr (by simp [atMost])
          | cons c r =>
              rw [atMost_cons_iff] at hpq hqr ⊢
              rcases hpq with hab | ⟨rfl, hpq⟩
              · rcases hqr with hbc | ⟨rfl, -⟩
                · exact Or.inl (lt_trans hab hbc)
                · exact Or.inl hab
              · exact hqr.imp id fun h => ⟨h.1, ih q r hpq h.2⟩

theorem atMost_of_prefix {p q : Path} (h : p <+: q) : atMost p q = true := by
  induction p generalizing q with
  | nil => rfl
  | cons a p ih =>
      obtain ⟨s, rfl⟩ := h
      exact atMost_cons_iff.mpr (Or.inr ⟨rfl, ih (List.prefix_append p s)⟩)

/-- What is between a node and one below it is below it as well. -/
theorem prefix_of_between {p q r : Path} (hpq : atMost p q = true) (hqr : atMost q r = true)
    (h : p <+: r) : p <+: q := by
  induction p generalizing q r with
  | nil => exact List.nil_prefix
  | cons a p ih =>
      cases q with
      | nil => exact absurd hpq (by simp [atMost])
      | cons b q =>
          obtain ⟨s, rfl⟩ := h
          rw [List.cons_append, atMost_cons_iff] at hqr
          rw [atMost_cons_iff] at hpq
          rcases hpq with hab | ⟨rfl, hpq⟩
          · rcases hqr with hba | ⟨rfl, -⟩
            · exact absurd (lt_trans hab hba) (lt_irrefl a)
            · exact absurd hab (lt_irrefl b)
          · rcases hqr with haa | ⟨-, hqr⟩
            · exact absurd haa (lt_irrefl a)
            · exact List.cons_prefix_cons.mpr ⟨rfl, ih hpq hqr (List.prefix_append p s)⟩

end Path

namespace Worklist

theorem mem_of_mem_nested {path : Path} {last? : Option Path} {sorted : List Path}
    (h : path ∈ nested last? sorted) : path ∈ sorted := by
  induction sorted generalizing last? with
  | nil => exact absurd h List.not_mem_nil
  | cons q rest ih =>
      rw [nested] at h
      split at h
      · rcases List.mem_cons.mp h with rfl | h
        · exact List.mem_cons_self
        · exact List.mem_cons_of_mem _ (ih h)
      · exact List.mem_cons_of_mem _ (ih h)

private theorem exists_of_any {α : Type} {a? : Option α} {test : α → Bool}
    (h : a?.any test = true) : ∃ a, a? = some a ∧ test a = true := by
  cases a? with
  | none => exact absurd h (by simp)
  | some a => exact ⟨a, rfl, h⟩

/-- A node that is dropped is below one that is not. -/
theorem exists_kept_of_mem_nested {path : Path} {last? : Option Path} {sorted : List Path}
    (hnodup : sorted.Nodup) (h : path ∈ nested last? sorted) :
    ∃ kept, kept <+: path ∧ (last? = some kept ∨ kept ∈ sorted ∧ kept ∉ nested last? sorted) := by
  induction sorted generalizing last? with
  | nil => exact absurd h List.not_mem_nil
  | cons q rest ih =>
      obtain ⟨hq, hrest⟩ := List.nodup_cons.mp hnodup
      rw [nested] at h ⊢
      split at h
      · rename_i hbelow
        rw [if_pos hbelow]
        rcases List.mem_cons.mp h with rfl | h
        · obtain ⟨last, rfl, hlast⟩ := exists_of_any hbelow
          exact ⟨last, (Path.isBelow_iff_prefix_ne.mp hlast).1, Or.inl rfl⟩
        · obtain ⟨kept, hfront, hkept⟩ := ih hrest h
          refine ⟨kept, hfront, hkept.imp id fun hkept => ⟨List.mem_cons_of_mem _ hkept.1, ?_⟩⟩
          refine fun hmem => (List.mem_cons.mp hmem).elim (fun heq => hq (heq ▸ hkept.1)) hkept.2
      · rename_i hbelow
        rw [if_neg hbelow]
        obtain ⟨kept, hfront, hkept⟩ := ih hrest h
        refine ⟨kept, hfront, Or.inr ?_⟩
        rcases hkept with heq | ⟨hmem, hnot⟩
        · obtain rfl := Option.some.inj heq
          exact ⟨List.mem_cons_self, fun hmem => hq (mem_of_mem_nested hmem)⟩
        · exact ⟨List.mem_cons_of_mem _ hmem, hnot⟩

/-- A node below another one is dropped. -/
theorem mem_nested {path : Path} {last? : Option Path} {sorted : List Path} (above : Path)
    (hsorted : sorted.Pairwise fun p q => Path.atMost p q = true)
    (hlast : ∀ last, last? = some last → ∀ q ∈ sorted, Path.atMost last q = true)
    (hpath : path ∈ sorted) (habove : last? = some above ∨ above ∈ sorted)
    (hbelow : path.isBelow above = true) : path ∈ nested last? sorted := by
  induction sorted generalizing last? above with
  | nil => exact absurd hpath List.not_mem_nil
  | cons q rest ih =>
      obtain ⟨hq, hrest⟩ := List.pairwise_cons.mp hsorted
      obtain ⟨hfront, hne⟩ := Path.isBelow_iff_prefix_ne.mp hbelow
      rw [nested]
      rcases List.mem_cons.mp hpath with rfl | hpath
      · -- The node itself is at the front, so the node above it was passed already.
        have hlastabove : last? = some above := by
          rcases habove with h | h
          · exact h
          · rcases List.mem_cons.mp h with rfl | h
            · exact absurd rfl hne
            · have hback := Path.prefix_of_between (hq above h) (Path.atMost_of_prefix hfront)
                (List.prefix_refl path)
              exact absurd (Path.prefix_antisymm hback hfront) hne
        rw [if_pos (by rw [hlastabove]; exact hbelow)]
        exact List.mem_cons_self
      · split
        · rename_i hqbelow
          obtain ⟨last, rfl, hqlast⟩ := exists_of_any hqbelow
          refine List.mem_cons_of_mem _ (ih (if above = q then last else above) hrest
            (fun l hl r hr => hlast l hl r (List.mem_cons_of_mem _ hr)) hpath ?_ ?_)
          · split
            · exact Or.inl rfl
            · exact habove.imp id fun h => (List.mem_cons.mp h).resolve_left ‹_›
          · split
            · rename_i heq
              subst heq
              exact Path.isBelow_trans hbelow hqlast
            · exact hbelow
        · rename_i hqbelow
          refine ih above hrest (fun l hl r hr => Option.some.inj hl ▸ hq r hr) hpath ?_ hbelow
          rcases habove with rfl | h
          · -- The last node that was kept is above everything up to the node.
            have hbetween := Path.prefix_of_between (hlast above rfl q List.mem_cons_self)
              (hq path hpath) hfront
            by_cases heq : q = above
            · exact Or.inl (congrArg some heq)
            · exact absurd (Path.isBelow_iff_prefix_ne.mpr ⟨hbetween, heq⟩) hqbelow
          · rcases List.mem_cons.mp h with rfl | h
            · exact Or.inl rfl
            · exact Or.inr h

/-! ### Normalizing -/

theorem eraseDups_sublist_nodup (paths : List Path) :
    paths.eraseDups.Sublist paths ∧ paths.eraseDups.Nodup := by
  induction hlength : paths.length using Nat.strong_induction_on generalizing paths with
  | _ n ih =>
      cases paths with
      | nil => exact ⟨List.Sublist.slnil, List.nodup_nil⟩
      | cons a rest =>
          rw [List.eraseDups_cons]
          have hfilter : (rest.filter fun b => !b == a).Sublist rest := List.filter_sublist
          obtain ⟨hsublist, hnodup⟩ := ih (rest.filter fun b => !b == a).length (by
            have := hfilter.length_le
            simp only [List.length_cons] at hlength
            omega) _ rfl
          refine ⟨(hsublist.trans hfilter).cons_cons a,
            List.nodup_cons.mpr ⟨fun hmem => ?_, hnodup⟩⟩
          have := (List.mem_filter.mp (List.mem_eraseDups.mp hmem)).2
          simp at this

/-- Different nodes stay in the order in which they came first. -/
theorem pairwise_idxOf_eraseDups (paths : List Path) :
    paths.eraseDups.Pairwise fun a b => paths.idxOf a < paths.idxOf b := by
  induction paths using List.reverseRecOn with
  | nil => exact List.Pairwise.nil
  | append_singleton paths path ih =>
      have hfirst : ∀ a ∈ paths.eraseDups, (paths ++ [path]).idxOf a = paths.idxOf a :=
        fun a ha => List.idxOf_append_of_mem (List.mem_eraseDups.mp ha)
      have hbefore : paths.eraseDups.Pairwise fun a b =>
          (paths ++ [path]).idxOf a < (paths ++ [path]).idxOf b := by
        refine ih.imp_of_mem fun {a b} ha hb hlt => ?_
        rwa [hfirst a ha, hfirst b hb]
      by_cases hpath : path ∈ paths
      · have hold : [path].removeAll paths = [] := by simp [List.removeAll, hpath]
        rwa [List.eraseDups_append, hold, List.eraseDups_nil, List.append_nil]
      · have hnew : [path].removeAll paths = [path] := by simp [List.removeAll, hpath]
        rw [List.eraseDups_append, hnew, List.eraseDups_cons, List.filter_nil, List.eraseDups_nil]
        refine List.pairwise_append.mpr ⟨hbefore, List.pairwise_singleton _ _, fun a ha b hb => ?_⟩
        -- A node that came already came before the last position, where the new one comes first.
        obtain rfl := List.mem_singleton.mp hb
        rw [hfirst a ha, List.idxOf_append_of_notMem hpath]
        exact Nat.lt_add_right _ (List.idxOf_lt_length_iff.mpr (List.mem_eraseDups.mp ha))

private theorem mem_sort_iff {path : Path} {paths : List Path} :
    path ∈ paths.eraseDups.mergeSort Path.atMost ↔ path ∈ paths := by
  rw [List.mem_mergeSort, List.mem_eraseDups]

theorem normalize_sublist (paths : List Path) : (normalize paths).Sublist paths :=
  List.filter_sublist.trans (eraseDups_sublist_nodup paths).1

theorem nodup_normalize (paths : List Path) : (normalize paths).Nodup :=
  (eraseDups_sublist_nodup paths).2.filter _

theorem mem_of_mem_normalize {path : Path} {paths : List Path} (h : path ∈ normalize paths) :
    path ∈ paths :=
  (normalize_sublist paths).mem h

/-- **Every node of a list is at or below one of the normalized list.** -/
theorem exists_prefix_of_mem {path : Path} {paths : List Path} (h : path ∈ paths) :
    ∃ kept ∈ normalize paths, kept <+: path := by
  have hnodup : (paths.eraseDups.mergeSort Path.atMost).Nodup :=
    (List.mergeSort_perm _ _).nodup_iff.mpr (eraseDups_sublist_nodup paths).2
  have hkeep : ∀ kept ∈ paths, kept ∉ nested none (paths.eraseDups.mergeSort Path.atMost) →
      kept ∈ normalize paths := by
    intro kept hmem hnot
    refine List.mem_filter.mpr ⟨List.mem_eraseDups.mpr hmem, ?_⟩
    rw [Bool.not_eq_true', Bool.eq_false_iff, Ne, List.contains_iff_mem]
    exact hnot
  by_cases hnested : path ∈ nested none (paths.eraseDups.mergeSort Path.atMost)
  · obtain ⟨kept, hfront, hkept⟩ := exists_kept_of_mem_nested hnodup hnested
    rcases hkept with h | ⟨hmem, hnot⟩
    · exact absurd h (by simp)
    · exact ⟨kept, hkeep kept (mem_sort_iff.mp hmem) hnot, hfront⟩
  · exact ⟨path, hkeep path h hnested, List.prefix_refl path⟩

/-- **No node of a normalized list is below another.** -/
theorem eq_of_prefix_of_mem_normalize {a b : Path} {paths : List Path}
    (ha : a ∈ normalize paths) (hb : b ∈ normalize paths) (h : a <+: b) : a = b := by
  by_contra hne
  have hsorted := List.pairwise_mergeSort Path.atMost_trans Path.atMost_total paths.eraseDups
  have hmem := mem_nested a hsorted (fun _ (h : none = some _) => absurd h (by simp))
    (mem_sort_iff.mpr (mem_of_mem_normalize hb))
    (Or.inr (mem_sort_iff.mpr (mem_of_mem_normalize ha)))
    (Path.isBelow_iff_prefix_ne.mpr ⟨h, fun heq => hne heq.symm⟩)
  have hnot := (List.mem_filter.mp hb).2
  rw [Bool.not_eq_true', Bool.eq_false_iff, Ne, List.contains_iff_mem] at hnot
  exact hnot hmem

theorem pairwise_normalize (paths : List Path) :
    (normalize paths).Pairwise fun a b => ¬ a <+: b ∧ ¬ b <+: a :=
  (nodup_normalize paths).pairwise_of_forall_ne fun _ ha _ hb hne =>
    ⟨fun h => hne (eq_of_prefix_of_mem_normalize ha hb h),
      fun h => hne (eq_of_prefix_of_mem_normalize hb ha h).symm⟩

theorem normalize_eq_nil_iff {paths : List Path} : normalize paths = [] ↔ paths = [] := by
  constructor
  · intro h
    refine List.eq_nil_iff_forall_not_mem.mpr fun path hpath => ?_
    obtain ⟨kept, hkept, -⟩ := exists_prefix_of_mem hpath
    rw [h] at hkept
    exact List.not_mem_nil hkept
  · rintro rfl
    rfl

/-- Just the nodes with no other above them are kept. -/
theorem mem_normalize_iff {path : Path} {paths : List Path} :
    path ∈ normalize paths ↔ path ∈ paths ∧ ∀ above ∈ paths, above <+: path → above = path := by
  constructor
  · refine fun h => ⟨mem_of_mem_normalize h, fun above habove hfront => ?_⟩
    obtain ⟨kept, hkept, hback⟩ := exists_prefix_of_mem habove
    obtain rfl := eq_of_prefix_of_mem_normalize hkept h (hback.trans hfront)
    exact Path.prefix_antisymm hfront hback
  · rintro ⟨hmem, htop⟩
    obtain ⟨kept, hkept, hfront⟩ := exists_prefix_of_mem hmem
    exact htop kept (mem_of_mem_normalize hkept) hfront ▸ hkept

/-- Normalizing is going through the different nodes in order. -/
theorem normalize_eq_filter (paths : List Path) :
    normalize paths = paths.eraseDups.filter fun path => decide (path ∈ normalize paths) := by
  refine List.filter_congr fun path hpath => ?_
  rw [Bool.eq_iff_iff, decide_eq_true_iff]
  exact ⟨fun h => List.mem_filter.mpr ⟨hpath, h⟩, fun h => (List.mem_filter.mp h).2⟩

/-- Lists without a node of one at or below a node of the other are normalized by themselves. -/
theorem normalize_append {front back : List Path}
    (hapart : ∀ a ∈ front, ∀ b ∈ back, ¬ a <+: b ∧ ¬ b <+: a) :
    normalize (front ++ back) = normalize front ++ normalize back := by
  have hback : back.removeAll front = back := by
    refine List.filter_eq_self.mpr fun b hb => ?_
    rw [Bool.not_eq_true', ← Bool.not_eq_true, List.elem_iff]
    exact fun hmem => (hapart b hmem b hb).1 (List.prefix_refl b)
  rw [normalize_eq_filter (front ++ back), List.eraseDups_append, hback, List.filter_append,
    normalize_eq_filter front, normalize_eq_filter back]
  congr 1
  · refine List.filter_congr fun a ha => ?_
    rw [decide_eq_decide, mem_normalize_iff, mem_normalize_iff]
    have ha := List.mem_eraseDups.mp ha
    refine and_congr (iff_of_true (List.mem_append_left back ha) ha)
      ⟨fun h above habove => h above (List.mem_append_left back habove),
        fun h above habove hfront => ?_⟩
    exact (List.mem_append.mp habove).elim (fun habove => h above habove hfront)
      fun habove => absurd hfront (hapart a ha above habove).2
  · refine List.filter_congr fun b hb => ?_
    rw [decide_eq_decide, mem_normalize_iff, mem_normalize_iff]
    have hb := List.mem_eraseDups.mp hb
    refine and_congr (iff_of_true (List.mem_append_right front hb) hb)
      ⟨fun h above habove => h above (List.mem_append_right front habove),
        fun h above habove hfront => ?_⟩
    exact (List.mem_append.mp habove).elim
      (fun habove => absurd hfront (hapart above habove b hb).1)
      fun habove => h above habove hfront

/-- Of a node and what is at or below it only the node is kept. -/
theorem normalize_concat {path : Path} {paths : List Path} (h : ∀ r ∈ paths, path <+: r) :
    normalize (paths ++ [path]) = [path] := by
  have hmem : ∀ r, r ∈ normalize (paths ++ [path]) ↔ r = path := by
    intro r
    rw [mem_normalize_iff]
    constructor
    · rintro ⟨hr, htop⟩
      refine (htop path (List.mem_append_right _ List.mem_cons_self) ?_).symm
      rcases List.mem_append.mp hr with hr | hr
      · exact h r hr
      · exact List.mem_singleton.mp hr ▸ List.prefix_refl path
    · rintro rfl
      refine ⟨List.mem_append_right _ List.mem_cons_self, fun above habove hfront => ?_⟩
      rcases List.mem_append.mp habove with habove | habove
      · exact Path.prefix_antisymm hfront (h above habove)
      · exact List.mem_singleton.mp habove
  exact List.perm_singleton.mp <|
    (List.perm_ext_iff_of_nodup (nodup_normalize _) (List.nodup_singleton path)).mpr fun r =>
      (hmem r).trans List.mem_singleton.symm

/-- **A normalized list is made of the nodes that no other is above, in the order in which they
came first.**  None of them comes twice or lies below another, and none of the list is lost:
whatever was named is one of them or lies below one. -/
theorem normalize_topmost (paths : List Path) :
    (normalize paths).Sublist paths ∧
      ((normalize paths).Pairwise fun a b => paths.idxOf a < paths.idxOf b) ∧
      ((normalize paths).Pairwise fun a b =>
        a ≠ b ∧ a.isBelow b = false ∧ b.isBelow a = false) ∧
      ∀ path ∈ paths, ∃ kept ∈ normalize paths, path = kept ∨ path.isBelow kept = true := by
  have hbelow : ∀ {a b : Path}, ¬ b <+: a → a.isBelow b = false := fun hnot =>
    Bool.eq_false_iff.mpr fun hbelow => hnot (Path.isBelow_iff_prefix_ne.mp hbelow).1
  have hapart : (normalize paths).Pairwise fun a b =>
      a ≠ b ∧ a.isBelow b = false ∧ b.isBelow a = false := by
    refine (pairwise_normalize paths).imp fun {a b} ⟨hab, hba⟩ => ⟨?_, hbelow hba, hbelow hab⟩
    rintro rfl
    exact hab (List.prefix_refl a)
  refine ⟨normalize_sublist paths, (pairwise_idxOf_eraseDups paths).sublist List.filter_sublist,
    hapart, fun path hpath => ?_⟩
  obtain ⟨kept, hkept, hfront⟩ := exists_prefix_of_mem hpath
  refine ⟨kept, hkept, or_iff_not_imp_left.mpr fun hne => ?_⟩
  exact Path.isBelow_iff_prefix_ne.mpr ⟨hfront, hne⟩

end Worklist

end Docweave
