import Docweave.Proofs.References.Composing

/-!
References that bring themselves back.

A copy of a node has copies of all the references in it.  So a reference whose target is above
another one brings that one with it, which in turn brings those below its own target, and so on
(`Value.Brings`).  If one of them is the reference at the beginning, it is on a circle
(`Value.Circles`).

No copy breaks a circle.  One that is made elsewhere leaves it as it was, and one that is made at a
reference of the circle puts the next reference in its place, so that a shorter circle is left
(`Copying.circles`).  Nor does a reference on a circle ever have to wait (`Leads.exists_ahead`), as
the node that its chain leads to has the next reference of the circle in it.  A circle of a single
reference is one whose target is above it, and that is a fault.
-/

namespace Docweave

/-- A copy of the node at `t` has a reference in it, the node that this one leads to has another,
and so on; after so many references one leads to `u`. -/
inductive Value.Brings (D : Value) : Nat → Path → Path → Prop
  | none {t : Path} : Value.Brings D 0 t t
  | next {n : Nat} {t l s u : Path} (hl : D.PointsTo l s) (hbelow : t <+: l)
      (hrest : Value.Brings D n s u) : Value.Brings D (n + 1) t u

/-- The reference at `l` brings itself back, with so many others in between. -/
def Value.Circles (D : Value) (n : Nat) (l : Path) : Prop :=
  ∃ t u, D.PointsTo l t ∧ D.Brings n t u ∧ u <+: l

/-- Some reference brings itself back, with fewer others in between. -/
def Value.CirclesBelow (D : Value) (n : Nat) : Prop :=
  ∃ m < n, ∃ l, D.Circles m l

/-- No reference brings itself back. -/
def Value.CircleFree (D : Value) : Prop :=
  ∀ n l, ¬ D.Circles n l

variable {markers : List String} {D : Value} {k l s t u last : Path} {m n : Nat} {x : Value}

namespace Value.Brings

theorem trans (h : D.Brings m s t) (h' : D.Brings n t u) : D.Brings (m + n) s u := by
  induction h with
  | none => rwa [Nat.zero_add]
  | next hl hbelow _ ih =>
      rw [Nat.succ_add]
      exact .next hl hbelow (ih h')

/-- Where something is brought back, there is a circle. -/
theorem circles (h : D.Brings (n + 1) t t) : ∃ l, D.Circles n l := by
  cases h with
  | @next _ _ l s _ hl hbelow hrest => exact ⟨l, s, t, hl, hrest, hbelow⟩

end Value.Brings

/-- A copy is made of the node at the end of a chain that leads by references only. -/
theorem Chain.leads {site path : Path} (hmarker : Directive.referenceMarker ∈ markers)
    (h : Chain markers D site path last) : Leads D site path last := by
  induction h with
  | found habove hn hplain =>
      refine .stops habove fun fields hfields => ?_
      obtain rfl := Option.some.inj (hfields.symm.trans hn)
      by_contra hcontains
      rw [isDirective_map_iff.mpr ⟨_, hmarker, Bool.of_not_eq_false hcontains⟩] at hplain
      exact absurd hplain (by simp)
  | link habove hn _ htarget _ ih => exact .link habove hn htarget ih

/-- **The node that a chain on a circle leads to has the next reference of the circle in it.** -/
theorem Leads.exists_ahead (hmarker : Directive.referenceMarker ∈ markers)
    (hrefs : RefsOnly markers D) (h : Leads D k t last) (hbrings : D.Brings n t u)
    (hback : u <+: k) :
    ∃ m < n, ∃ r s, D.PointsTo (last ++ r) s ∧ D.Brings m s u := by
  induction h generalizing n with
  | stops habove _ =>
      cases hbrings with
      | none => exact absurd hback habove
      | @next m _ l s _ hl hbelow hrest =>
          obtain ⟨r, rfl⟩ := hbelow
          exact ⟨m, Nat.lt_succ_self m, r, s, hl, hrest⟩
  | @link t next last fields habove hn htarget _ ih =>
      cases hbrings with
      | none => exact absurd hback habove
      | @next m _ l s _ hl hbelow hrest =>
          -- Below a reference there is no other, so the way goes on by the link.
          have hdirective : isDirective markers (.map fields) = true :=
            isDirective_map_iff.mpr ⟨_, hmarker, Directive.contains_of_target htarget⟩
          have hlink : D.PointsTo t next := .of_directive hrefs hn hdirective htarget
          obtain rfl := hlink.eq_of_reference hmarker hrefs hl hbelow
          obtain rfl := hl.unique hlink
          obtain ⟨m', hlt, hahead⟩ := ih hrest
          exact ⟨m', Nat.lt_succ_of_lt hlt, hahead⟩

namespace Copying

variable (hmarker : Directive.referenceMarker ∈ markers) (hc : Copying markers D k last x)

include hmarker hc

/-- A copy takes the place of a reference and has those that are in the node that is copied. -/
theorem pointsTo_iff : (D.put k x).PointsTo l t ↔
    D.PointsTo l t ∧ l ≠ k ∨ ∃ r, l = k ++ r ∧ D.PointsTo (last ++ r) t := by
  obtain ⟨target, hat⟩ := hc.reference
  obtain ⟨raw, hk, -⟩ := id hat
  constructor
  · rintro ⟨raw', hn, htarget⟩
    by_cases hfront : k <+: l
    · obtain ⟨r, rfl⟩ := hfront
      exact .inr ⟨r, rfl, raw', (hc.below r).symm.trans hn, htarget⟩
    · have hl : (D.put k x).PointsTo l t := ⟨raw', hn, htarget⟩
      have hback : ¬ l <+: k := fun hback =>
        hfront (hl.eq_of_prefix hmarker hc.refs' hc.free hc.copy hback ▸ List.prefix_refl k)
      refine .inl ⟨⟨raw', ?_, htarget⟩, fun heq => hfront (heq ▸ List.prefix_refl l)⟩
      rwa [Value.node?_put_beside D hfront hback] at hn
  · rintro (⟨hl, hne⟩ | ⟨r, rfl, raw', hn, htarget⟩)
    · refine hc.stands hl fun hfront => hne ?_
      exact hl.eq_of_prefix hmarker hc.refs hc.free hk hfront
    · exact ⟨raw', (hc.below r).trans hn, htarget⟩

/-- What references bring they bring after a copy as well, as far as to the reference that the copy
is made at. -/
theorem brings_put (h : D.Brings n t u) (hback : u <+: k) :
    ∃ m ≤ n, ∃ a, (D.put k x).Brings m t a ∧ a <+: k := by
  induction h with
  | none => exact ⟨0, Nat.le_refl 0, _, .none, hback⟩
  | @next n t l s u hl hbelow _ ih =>
      by_cases hlk : l = k
      · exact ⟨0, Nat.zero_le _, t, .none, hlk ▸ hbelow⟩
      · obtain ⟨m, hle, a, hbrings, ha⟩ := ih hback
        exact ⟨m + 1, Nat.succ_le_succ hle, a,
          .next ((hc.pointsTo_iff hmarker).mpr (.inl ⟨hl, hlk⟩)) hbelow hbrings, ha⟩

/-- What references bring they bring after a copy as well, if the copy is not made at one of
them. -/
theorem brings_put_or (h : D.Brings n t u) : (D.put k x).Brings n t u ∨
    ∃ i j a target, i + 1 + j = n ∧ D.Brings i t a ∧ a <+: k ∧ D.PointsTo k target ∧
      D.Brings j target u := by
  induction h with
  | none => exact .inl .none
  | @next n t l s u hl hbelow hrest ih =>
      by_cases hlk : l = k
      · subst hlk
        exact .inr ⟨0, n, t, s, by omega, .none, hbelow, hl, hrest⟩
      · obtain hbrings | ⟨i, j, a, target, rfl, hbrings, ha, hk, hrest'⟩ := ih
        · exact .inl (.next ((hc.pointsTo_iff hmarker).mpr (.inl ⟨hl, hlk⟩)) hbelow hbrings)
        · exact .inr ⟨i + 1, j, a, target, by omega, .next hl hbelow hbrings, ha, hk, hrest'⟩

variable {target : Path} (hk : D.PointsTo k target) (hchain : Chain markers D k target last)

include hk hchain

/-- **A copy at a reference of a circle leaves a shorter one.** -/
theorem circles_lt (h : D.Circles n k) : (D.put k x).CirclesBelow n := by
  obtain ⟨t, u, hat, hbrings, hback⟩ := h
  obtain rfl := hat.unique hk
  obtain ⟨m, hlt, r, s, hahead, hrest⟩ :=
    (hchain.leads hmarker).exists_ahead hmarker hc.refs hbrings hback
  obtain ⟨m', hle, a, hbrings', ha⟩ := hc.brings_put hmarker hrest hback
  have hcopied : (D.put k x).PointsTo (k ++ r) s :=
    (hc.pointsTo_iff hmarker).mpr (.inr ⟨r, rfl, hahead⟩)
  exact ⟨m', Nat.lt_of_le_of_lt hle hlt, k ++ r, s, a, hcopied, hbrings',
    ha.trans (List.prefix_append k r)⟩

/-- **A copy leaves a circle as it is, or a shorter one.** -/
theorem circles (h : D.Circles n l) :
    l ≠ k ∧ (D.put k x).Circles n l ∨ (D.put k x).CirclesBelow n := by
  by_cases hlk : l = k
  · subst hlk
    exact .inr (hc.circles_lt hmarker hk hchain h)
  obtain ⟨t, u, hat, hbrings, hback⟩ := h
  obtain hbrings' | ⟨i, j, a, target', rfl, hto, ha, hk', hfrom⟩ := hc.brings_put_or hmarker hbrings
  · exact .inl ⟨hlk, t, u, (hc.pointsTo_iff hmarker).mpr (.inl ⟨hat, hlk⟩), hbrings', hback⟩
  · -- The circle goes by the reference that the copy is made at.
    have hround : D.Brings (j + (i + 1)) target' a := hfrom.trans (.next hat hback hto)
    have hcircle : D.Circles (i + 1 + j) k :=
      ⟨target', a, hk', by rwa [Nat.add_comm] at hround, ha⟩
    exact .inr (hc.circles_lt hmarker hk hchain hcircle)

theorem circlesBelow (h : D.CirclesBelow n) : (D.put k x).CirclesBelow n := by
  obtain ⟨m, hlt, l, hcircle⟩ := h
  obtain ⟨-, hcircle⟩ | ⟨m', hlt', l', hcircle⟩ := hc.circles hmarker hk hchain hcircle
  · exact ⟨m, hlt, l, hcircle⟩
  · exact ⟨m', hlt'.trans hlt, l', hcircle⟩

end Copying

end Docweave
