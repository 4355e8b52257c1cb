import Docweave.Proofs.Including.Isolation
import Mathlib.Data.ENat.Lattice

/-!
Documents that include others, which are to be composed on their own.

What such a document stands for can be said without composing anything: every include is replaced by
what the content of its file stands for, and so on (`Expands`), and there is one such document at
most (`Expands.unique`).  There is none if the files include each other in a circle.  How deep
includes are nested is a number of its own (`Value.height`): one more than in the deepest of the
contents that are included (`Value.height_eq`), so without end on a circle
(`Value.height_of_cycle`).

While a document is composed, some of its includes are replaced already and the others are as they
were (`Filled`).  Replacing one more keeps that, and where none is left the document is expanded
(`Filled.expands`).
-/

namespace Docweave

open Relation

/-! ### Documents that include others -/

/-- A document includes another, which is to be composed on its own.  `load` reads the content of a
file. -/
def Value.Includes (load : String → Except Fault Value) (v c : Value) : Prop :=
  ∃ path fields raw, v.node? path = some (.map fields) ∧
    Directive.IncludesComposed fields raw ∧ load raw = .ok c

/-- The only directives of a document are includes of content that is there, is to be composed on
its own and is no directive as a whole. -/
def Value.OnlyIncludes (load : String → Except Fault Value) (v : Value) : Prop :=
  ∀ path d, v.node? path = some d → isDirective Composer.standardMarkers d = true →
    ∃ fields raw c, d = .map fields ∧ Directive.IncludesComposed fields raw ∧ load raw = .ok c ∧
      isDirective Composer.standardMarkers c = false

/-- A document with every include replaced by what the content of the file is expanded to. -/
inductive Expands (load : String → Except Fault Value) : Value → Value → Prop
  | content {fields : Fields} {raw : String} {c w : Value}
      (hdirective : Directive.IncludesComposed fields raw) (hload : load raw = .ok c)
      (h : Expands load c w) : Expands load (.map fields) w
  | node {v w : Value} (hplain : isDirective Composer.standardMarkers v = false)
      (hhead : w.head = v.head)
      (hchildren : ∀ token c d, v.child? token = some c → w.child? token = some d →
        Expands load c d) : Expands load v w

/-- Includes are nested in a document less than so deep. -/
def Value.Shallower (load : String → Except Fault Value) : Nat → Value → Prop
  | 0, _ => False
  | n + 1, v => ∀ c, v.Includes load c → c.Shallower load n

/-- How deep includes are nested in a document: not at all if there are none, and otherwise one
deeper than in the deepest of the contents that it includes (`height_eq`). -/
noncomputable def Value.height (load : String → Except Fault Value) (v : Value) : ℕ∞ :=
  ⨅ (n : ℕ) (_ : v.Shallower load (n + 1)), (n : ℕ∞)

variable {load : String → Except Fault Value} {v w c d u D : Value} {fields : Fields} {raw : String}
  {path : Path} {token : String} {n : Nat}

/-! ### What a document includes -/

namespace Directive.IncludesComposed

/-- There is nothing to include in an include but the content of its file. -/
theorem includes_iff (h : IncludesComposed fields raw) :
    (Value.map fields).Includes load c ↔ load raw = .ok c := by
  constructor
  · rintro ⟨path, fields', raw', hn, hdirective, hload⟩
    cases path with
    | nil =>
        rw [Value.node?_nil] at hn
        obtain rfl := Value.map.inj (Option.some.inj hn)
        have hfind := (h.find? includeMarker).symm.trans (hdirective.find? includeMarker)
        obtain rfl : raw = raw' := by simpa using hfind
        exact hload
    | cons token path =>
        have hplain : Docweave.isDirective Composer.standardMarkers (.map fields') = false :=
          h.bare (token :: path) _ (List.cons_ne_nil _ _) hn
        exact absurd (hplain.symm.trans hdirective.isDirective) (by simp)
  · exact fun hload => ⟨[], fields, raw, Value.node?_nil _, h, hload⟩

theorem onlyIncludes (h : IncludesComposed fields raw) (hload : load raw = .ok c)
    (hplain : Docweave.isDirective Composer.standardMarkers c = false) :
    (Value.map fields).OnlyIncludes load := by
  intro path d hn hdirective
  cases path with
  | nil => exact ⟨fields, raw, c, (Option.some.inj hn).symm, h, hload, hplain⟩
  | cons token path =>
      have hbare : Docweave.isDirective Composer.standardMarkers d = false :=
        h.bare (token :: path) d (List.cons_ne_nil _ _) hn
      exact absurd (hbare.symm.trans hdirective) (by simp)

end Directive.IncludesComposed

namespace Value

theorem Includes.of_child (hc : v.child? token = some u) (h : u.Includes load c) :
    v.Includes load c := by
  obtain ⟨path, fields, raw, hn, hdirective, hload⟩ := h
  refine ⟨token :: path, fields, raw, ?_, hdirective, hload⟩
  rw [node?_cons, hc, Option.bind_some, hn]

/-- What a document that is no directive as a whole includes is included in a child of it. -/
theorem Includes.exists_child (hplain : isDirective Composer.standardMarkers v = false)
    (h : v.Includes load c) : ∃ token u, v.child? token = some u ∧ u.Includes load c := by
  obtain ⟨path, fields, raw, hn, hdirective, hload⟩ := h
  cases path with
  | nil =>
      rw [node?_nil] at hn
      obtain rfl := Option.some.inj hn
      exact absurd (hplain.symm.trans hdirective.isDirective) (by simp)
  | cons token path =>
      rw [node?_cons] at hn
      obtain ⟨u, hu, hn⟩ := Option.bind_eq_some_iff.mp hn
      exact ⟨token, u, hu, path, fields, raw, hn, hdirective, hload⟩

theorem OnlyIncludes.of_child (h : v.OnlyIncludes load) (hc : v.child? token = some u) :
    u.OnlyIncludes load := fun path d hn =>
  h (token :: path) d (by rw [node?_cons, hc, Option.bind_some, hn])

theorem onlyIncludes_of_children (hplain : isDirective Composer.standardMarkers v = false)
    (h : ∀ token u, v.child? token = some u → u.OnlyIncludes load) : v.OnlyIncludes load := by
  intro path d hn hdirective
  cases path with
  | nil =>
      rw [node?_nil] at hn
      obtain rfl := Option.some.inj hn
      exact absurd (hplain.symm.trans hdirective) (by simp)
  | cons token path =>
      rw [node?_cons] at hn
      obtain ⟨u, hu, hn⟩ := Option.bind_eq_some_iff.mp hn
      exact h token u hu path d hn hdirective

/-- In a document, and in everything that it includes, there is nothing but includes if that is so
of the document and of what it includes directly. -/
theorem onlyIncludes_of_includes (hv : v.OnlyIncludes load)
    (h : ∀ c, v.Includes load c → ∀ u, ReflTransGen (Includes load) c u → u.OnlyIncludes load) :
    ∀ u, ReflTransGen (Includes load) v u → u.OnlyIncludes load := by
  intro u hu
  obtain rfl | ⟨c, hc, hu⟩ := ReflTransGen.cases_head hu
  · exact hv
  · exact h c hc u hu

theorem onlyIncludes_of_plain (h : ∀ path d, v.node? path = some d →
    isDirective Composer.standardMarkers d = false) : v.OnlyIncludes load :=
  fun path d hn hdirective => absurd ((h path d hn).symm.trans hdirective) (by simp)

theorem not_includes_of_plain (h : ∀ path d, v.node? path = some d →
    isDirective Composer.standardMarkers d = false) : ¬ v.Includes load c :=
  fun ⟨path, fields, _, hn, hdirective, _⟩ =>
    absurd ((h path (.map fields) hn).symm.trans hdirective.isDirective) (by simp)

/-! ### How deep includes are nested -/

theorem Shallower.mono {m : Nat} (h : v.Shallower load n) (hle : n ≤ m) : v.Shallower load m := by
  induction n generalizing v m with
  | zero => exact absurd h not_false
  | succ n ih =>
      obtain ⟨m, rfl⟩ : ∃ k, m = k + 1 := ⟨m - 1, by omega⟩
      exact fun c hc => ih (h c hc) (Nat.le_of_succ_le_succ hle)

theorem height_lt_iff : v.height load < n ↔ v.Shallower load n := by
  simp only [height, iInf_lt_iff, Nat.cast_lt, exists_prop]
  constructor
  · rintro ⟨k, hk, hlt⟩
    exact hk.mono hlt
  · intro h
    cases n with
    | zero => exact absurd h not_false
    | succ n => exact ⟨n, h, Nat.lt_succ_self n⟩

theorem height_le_iff : v.height load ≤ n ↔ ∀ c, v.Includes load c → c.height load < n := by
  rw [← ENat.lt_natCast_add_one_iff, ← Nat.cast_one (R := ℕ∞), ← Nat.cast_add, height_lt_iff]
  simp only [height_lt_iff]
  rfl

/-- **Includes are nested in a document one deeper than in the deepest of the contents that it
includes**, and not at all if there are none. -/
theorem height_eq : v.height load = ⨆ (c : Value) (_ : v.Includes load c), (c.height load + 1) := by
  refine eq_of_forall_ge_iff fun bound => ?_
  rw [iSup₂_le_iff]
  cases bound with
  | top => simp
  | coe n => simp only [height_le_iff, ENat.add_one_le_natCast_iff]

theorem height_add_one_le (h : TransGen (Includes load) v c) :
    c.height load + 1 ≤ v.height load := by
  have hone : ∀ {v c : Value}, v.Includes load c → c.height load + 1 ≤ v.height load := by
    intro v c h
    rw [v.height_eq]
    exact le_iSup₂_of_le c h le_rfl
  induction h with
  | single h => exact hone h
  | tail _ h ih => exact ((hone h).trans le_self_add).trans ih

/-- **On a cycle includes are nested without end.** -/
theorem height_of_cycle (h : TransGen (Includes load) v v) : v.height load = ⊤ := by
  by_contra hfinite
  exact absurd ((ENat.add_one_le_iff hfinite).mp (height_add_one_le h)) (lt_irrefl _)

end Value

/-! ### What a document is expanded to -/

/-- **What a document is expanded to has no directives.** -/
theorem Expands.plain (h : Expands load v w) {d : Value} (hn : w.node? path = some d) :
    isDirective Composer.standardMarkers d = false := by
  induction h generalizing path with
  | content _ _ _ ih => exact ih hn
  | node hplain hhead _ ih =>
      cases path with
      | nil =>
          rw [Value.node?_nil] at hn
          exact Option.some.inj hn ▸ (isDirective_of_head_eq hhead).trans hplain
      | cons token path =>
          rw [Value.node?_cons] at hn
          obtain ⟨d', hd', hn⟩ := Option.bind_eq_some_iff.mp hn
          obtain ⟨c, hc⟩ := Value.exists_child?_of_head_eq hhead hd'
          exact ih token c d' hc hd' hn

/-- A document without directives is expanded already. -/
theorem expands_of_plain (v : Value) (h : ∀ path d, v.node? path = some d →
    isDirective Composer.standardMarkers d = false) : Expands load v v := by
  induction v using Value.entries_induction with
  | node v ih =>
      refine .node (h [] v (Value.node?_nil v)) rfl fun token c d hc hd => ?_
      obtain rfl := Option.some.inj (hc.symm.trans hd)
      refine ih _ (Value.mem_entries_of_child? hc) fun path d hn => h (token :: path) d ?_
      rw [Value.node?_cons, hc, Option.bind_some, hn]

theorem Expands.wellFormed (h : Expands load v w) (hload : ∀ raw c, load raw = .ok c → c.WellFormed)
    (hv : v.WellFormed) : w.WellFormed := by
  induction h with
  | content _ hc _ ih => exact ih (hload _ _ hc)
  | node _ hhead _ ih =>
      refine Value.WellFormed.of_head_eq hv hhead fun token d hd => ?_
      obtain ⟨c, hc⟩ := Value.exists_child?_of_head_eq hhead hd
      exact ih token c d hc hd (hv.of_child? hc)

/-- **A document is expanded to one document only.** -/
theorem Expands.unique (hload : ∀ raw c, load raw = .ok c → c.WellFormed) (hv : v.WellFormed)
    (h : Expands load v w) (h' : Expands load v u) : w = u := by
  induction h generalizing u with
  | content hdirective hc _ ih =>
      cases h' with
      | content hdirective' hc' h' =>
          have hc'' := hdirective.includes_iff.mp (hdirective'.includes_iff.mpr hc')
          obtain rfl := Except.ok.inj (hc.symm.trans hc'')
          exact ih (hload _ _ hc) h'
      | node hplain _ _ => exact absurd (hdirective.isDirective.symm.trans hplain) (by simp)
  | @node v w hplain hhead hchildren ih =>
      cases h' with
      | content hdirective _ _ => exact absurd (hdirective.isDirective.symm.trans hplain) (by simp)
      | node hplain' hhead' hchildren' =>
          have hw := (Expands.node hplain hhead hchildren).wellFormed hload hv
          have hu := (Expands.node hplain' hhead' hchildren').wellFormed hload hv
          have hsame := hhead.trans hhead'.symm
          refine Value.eq_of_head_eq hw hu hsame fun token => ?_
          cases hd : w.child? token with
          | none =>
              have hnone := Value.child?_isSome_of_head_eq hsame token
              rw [hd] at hnone
              exact (Option.isNone_iff_eq_none.mp (by simpa using hnone.symm)).symm
          | some d =>
              obtain ⟨c, hc⟩ := Value.exists_child?_of_head_eq hhead hd
              obtain ⟨d', hd'⟩ := Value.exists_child?_of_head_eq hsame hd
              rw [hd', ih token c d hc hd (hv.of_child? hc) (hchildren' token c d' hc hd')]

/-! ### Documents with some of their includes replaced -/

/-- A document with some of its includes replaced by what their content is expanded to, if includes
are nested in the content less than so deep. -/
inductive Filled (load : String → Except Fault Value) (n : Nat) : Value → Value → Prop
  | kept {fields : Fields} {raw : String} (hdirective : Directive.IncludesComposed fields raw) :
      Filled load n (.map fields) (.map fields)
  | filled {fields : Fields} {raw : String} {c w : Value}
      (hdirective : Directive.IncludesComposed fields raw) (hload : load raw = .ok c)
      (hheight : c.height load < n) (h : Expands load c w) : Filled load n (.map fields) w
  | node {v D : Value} (hplain : isDirective Composer.standardMarkers v = false)
      (hhead : D.head = v.head)
      (hchildren : ∀ token c d, v.child? token = some c → D.child? token = some d →
        Filled load n c d) : Filled load n v D

namespace Filled

/-- At first nothing is replaced. -/
theorem refl (v : Value) (h : v.OnlyIncludes load) : Filled load n v v := by
  induction v using Value.entries_induction with
  | node v ih =>
      cases hdirective : isDirective Composer.standardMarkers v with
      | true =>
          obtain ⟨fields, raw, c, rfl, hincludes, -⟩ := h [] v (Value.node?_nil v) hdirective
          exact .kept hincludes
      | false =>
          refine .node hdirective rfl fun token c d hc hd => ?_
          obtain rfl := Option.some.inj (hc.symm.trans hd)
          exact ih _ (Value.mem_entries_of_child? hc) (h.of_child hc)

/-- What directives are left are where they were. -/
theorem node?_of_directive (h : Filled load n v D) (hn : D.node? path = some d)
    (hdirective : isDirective Composer.standardMarkers d = true) : v.node? path = some d := by
  induction h generalizing path with
  | kept _ => exact hn
  | filled _ _ _ h => exact absurd (hdirective.symm.trans (h.plain hn)) (by simp)
  | node hplain hhead _ ih =>
      cases path with
      | nil =>
          rw [Value.node?_nil] at hn
          obtain rfl := Option.some.inj hn
          rw [isDirective_of_head_eq hhead, hplain] at hdirective
          exact absurd hdirective (by simp)
      | cons token path =>
          rw [Value.node?_cons] at hn ⊢
          obtain ⟨d', hd', hn⟩ := Option.bind_eq_some_iff.mp hn
          obtain ⟨c, hc⟩ := Value.exists_child?_of_head_eq hhead hd'
          rw [hc, Option.bind_some]
          exact ih token c d' hc hd' hn

/-- One more include is replaced. -/
theorem put (h : Filled load n v D) (hn : D.node? path = some (.map fields))
    (hdirective : Directive.IncludesComposed fields raw) (hload : load raw = .ok c)
    (hheight : c.height load < n) (hw : Expands load c w) : Filled load n v (D.put path w) := by
  induction h generalizing path with
  | kept hkept =>
      cases path with
      | nil =>
          rw [Value.node?_nil] at hn
          obtain rfl := Value.map.inj (Option.some.inj hn)
          exact .filled hdirective hload hheight hw
      | cons token path =>
          have hplain : isDirective Composer.standardMarkers (.map fields) = false :=
            hkept.bare (token :: path) _ (List.cons_ne_nil _ _) hn
          exact absurd (hdirective.isDirective.symm.trans hplain) (by simp)
  | filled _ _ _ h => exact absurd (hdirective.isDirective.symm.trans (h.plain hn)) (by simp)
  | @node v D hplain hhead hchildren ih =>
      cases path with
      | nil =>
          rw [Value.node?_nil] at hn
          obtain rfl := Option.some.inj hn
          have hplain' := (isDirective_of_head_eq hhead).trans hplain
          exact absurd (hdirective.isDirective.symm.trans hplain') (by simp)
      | cons token path =>
          rw [Value.node?_cons] at hn
          obtain ⟨d, hd, hn⟩ := Option.bind_eq_some_iff.mp hn
          rw [Value.put_cons_of_child? hd]
          refine .node hplain ((Value.head_setChild hd _).trans hhead) fun other c' d' hc' hd' => ?_
          by_cases hother : token = other
          · subst hother
            rw [Value.child?_setChild_self hd] at hd'
            exact Option.some.inj hd' ▸ ih token c' d hc' hd hn
          · rw [Value.child?_setChild_of_ne D hother] at hd'
            exact hchildren other c' d' hc' hd'

/-- Where every include is replaced, the document is expanded, and in no content includes are nested
too deep. -/
theorem expands (h : Filled load n v D)
    (hplain : ∀ path d, D.node? path = some d → isDirective Composer.standardMarkers d = false) :
    Expands load v D ∧ ∀ c, v.Includes load c → c.height load < n := by
  induction h with
  | kept hdirective =>
      have hplain' := hplain [] _ (Value.node?_nil _)
      exact absurd (hdirective.isDirective.symm.trans hplain') (by simp)
  | filled hdirective hload hheight h =>
      refine ⟨.content hdirective hload h, fun c hc => ?_⟩
      exact Except.ok.inj (hload.symm.trans (hdirective.includes_iff.mp hc)) ▸ hheight
  | @node v D hroot hhead _ ih =>
      have hchildren : ∀ token c d, v.child? token = some c → D.child? token = some d →
          Expands load c d ∧ ∀ c', c.Includes load c' → c'.height load < n := by
        refine fun token c d hc hd => ih token c d hc hd fun path d' hn => ?_
        exact hplain (token :: path) d' (by rw [Value.node?_cons, hd, Option.bind_some, hn])
      refine ⟨.node hroot hhead fun token c d hc hd => (hchildren token c d hc hd).1,
        fun c hc => ?_⟩
      obtain ⟨token, u, hu, hc⟩ := hc.exists_child hroot
      obtain ⟨d, hd⟩ := Value.exists_child?_of_head_eq hhead.symm hu
      exact (hchildren token u d hu hd).2 c hc

end Filled

end Docweave
