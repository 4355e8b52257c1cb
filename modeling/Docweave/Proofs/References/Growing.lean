import Docweave.Proofs.Composing.Termination
import Docweave.Proofs.References.Circles
import Mathlib.Logic.Hydra

/-!
How often copies can be made.

A copy cuts off one reference and lets all those grow that are in the node that is copied, so the
references of a document are the heads of a hydra.  The battle with it ends as long as whatever
grows comes after what is cut off in some order without infinite descent.  Such an order is that of
what a target brings (`Value.Feeds`), as long as nothing brings itself back
(`Value.CircleFree.wellFounded`).

The order lasts while no target comes to exist that did not before (`Copying.feeds_of_put`): the
references below a target are then those that were there already or in what it brought.  There are
only so many targets, and none is ever lost.  So a document from which copies can be made for ever
comes to a circle (`wellFounded_grows`).
-/

namespace Docweave

open Relation

variable {markers : List String} {D D' : Value} {k l s t u last target : Path} {m n : Nat}
  {x : Value}

/-! ### What a target brings -/

/-- Sooner or later a copy of the node at `t` brings a reference to `u`. -/
def Value.Feeds (D : Value) (t u : Path) : Prop :=
  ∃ n, D.Brings (n + 1) t u

namespace Value.Feeds

theorem of_pointsTo (hl : D.PointsTo l s) (hbelow : t <+: l) : D.Feeds t s :=
  ⟨0, .next hl hbelow .none⟩

theorem trans (h : D.Feeds s t) (h' : D.Feeds t u) : D.Feeds s u := by
  obtain ⟨m, hm⟩ := h
  obtain ⟨n, hn⟩ := h'
  exact ⟨m + 1 + n, hm.trans hn⟩

/-- What is brought is the target of a reference. -/
theorem exists_pointsTo (h : D.Feeds t u) : ∃ l, D.PointsTo l u := by
  obtain ⟨n, hn⟩ := h
  induction n generalizing t with
  | zero =>
      cases hn with
      | next hl _ hrest =>
          cases hrest
          exact ⟨_, hl⟩
  | succ n ih =>
      cases hn with
      | next _ _ hrest => exact ih hrest

end Value.Feeds

/-- A chain of references brings whatever references are in the node that it leads to. -/
theorem Chain.feeds {site : Path} (hrefs : RefsOnly markers D) (h : Chain markers D site t last)
    (hl : D.PointsTo l s) (hbelow : last <+: l) : D.Feeds t s := by
  induction h with
  | found _ _ _ => exact .of_pointsTo hl hbelow
  | link _ hn hdirective htarget _ ih =>
      have hlink := Value.PointsTo.of_directive hrefs hn hdirective htarget
      exact (Value.Feeds.of_pointsTo hlink (List.prefix_refl _)).trans (ih hbelow)

/-! ### The references of a document -/

theorem Value.finite_pointsTo (D : Value) : {e : Path × Path | D.PointsTo e.1 e.2}.Finite := by
  refine Set.Finite.of_finite_image (f := Prod.fst) ?_ ?_
  · refine D.finite_nodes.subset ?_
    rintro _ ⟨⟨l, t⟩, ⟨raw, hn, -⟩, rfl⟩
    exact Option.isSome_of_eq_some hn
  · rintro ⟨l, t⟩ hl ⟨l', t'⟩ hl' rfl
    exact Prod.ext rfl (Value.PointsTo.unique hl hl')

/-- The references of a document, each with its target. -/
noncomputable def Value.references (D : Value) : Finset (Path × Path) :=
  D.finite_pointsTo.toFinset

theorem Value.mem_references_iff : (l, t) ∈ D.references ↔ D.PointsTo l t :=
  D.finite_pointsTo.mem_toFinset

theorem Value.finite_targets (D : Value) : {t | ∃ l, D.PointsTo l t}.Finite := by
  refine (D.finite_pointsTo.image Prod.snd).subset ?_
  rintro t ⟨l, hl⟩
  exact ⟨(l, t), hl, rfl⟩

/-- **As long as no reference brings itself back, nothing can be brought for ever.** -/
theorem Value.CircleFree.wellFounded (hfree : D.CircleFree) :
    WellFounded fun u t => D.Feeds t u := by
  have hfinite : ∀ t, {u | D.Feeds t u}.Finite := fun t =>
    D.finite_targets.subset fun _ hu => Value.Feeds.exists_pointsTo hu
  refine Subrelation.wf (r := InvImage (· < ·) fun t => {u | D.Feeds t u}.ncard)
    (fun {u t} hfeeds => ?_) (InvImage.wf _ wellFounded_lt)
  refine Set.ncard_lt_ncard ⟨fun v hv => hfeeds.trans hv, fun hback => ?_⟩ (hfinite t)
  obtain ⟨n, hn⟩ := hback hfeeds
  obtain ⟨l, hl⟩ := hn.circles
  exact hfree n l hl

/-- The targets that lead to no node. -/
def Value.missing (D : Value) : Set Path :=
  {t | (∃ l, D.PointsTo l t) ∧ D.node? t = none}

theorem Value.finite_missing (D : Value) : D.missing.Finite :=
  D.finite_targets.subset fun _ ht => ht.1

/-! ### What a copy does to them -/

namespace Copying

variable (hmarker : Directive.referenceMarker ∈ markers) (hc : Copying markers D k last x)

include hmarker hc

/-- A copy brings no new targets. -/
theorem target_of_put (h : ∃ l, (D.put k x).PointsTo l t) : ∃ l, D.PointsTo l t := by
  obtain ⟨l, hl⟩ := h
  obtain ⟨hl, -⟩ | ⟨r, -, hl⟩ := (hc.pointsTo_iff hmarker).mp hl
  · exact ⟨l, hl⟩
  · exact ⟨last ++ r, hl⟩

/-- No node is lost with a copy. -/
theorem node?_put (hfree : Directive.referenceMarker ∉ t) (hn : (D.node? t).isSome = true) :
    ((D.put k x).node? t).isSome = true := by
  obtain ⟨w, hw⟩ := Option.isSome_iff_exists.mp hn
  by_cases hfront : k <+: t
  · obtain ⟨target, hat⟩ := hc.reference
    obtain rfl := hat.eq_of_prefix hmarker hc.refs hfree hw hfront
    exact Option.isSome_of_eq_some hc.copy
  · obtain ⟨w', hw', -⟩ := Value.head_node?_put hfront hw x
    exact Option.isSome_of_eq_some hw'

theorem missing_subset : (D.put k x).missing ⊆ D.missing := by
  rintro t ⟨htarget, hnone⟩
  obtain ⟨l, hl⟩ := hc.target_of_put hmarker htarget
  refine ⟨⟨l, hl⟩, ?_⟩
  by_contra hn
  have hsome := hc.node?_put hmarker (hl.marker_not_mem hmarker hc.refs)
    (Option.isSome_iff_ne_none.mpr hn)
  rw [hnone] at hsome
  exact absurd hsome (by simp)

variable (hk : D.PointsTo k target) (hchain : Chain markers D k target last)

include hk hchain

/-- **If a copy makes no target exist, targets bring nothing that they did not bring before.** -/
theorem feeds_of_put (hstable : D.missing ⊆ (D.put k x).missing)
    (ht : ∃ l, (D.put k x).PointsTo l t) (h : (D.put k x).Feeds t u) : D.Feeds t u := by
  have hhere : ∀ {t l s}, (∃ l, (D.put k x).PointsTo l t) → (D.put k x).PointsTo l s → t <+: l →
      D.Feeds t s := by
    intro t l s ht hl hbelow
    obtain ⟨hl, -⟩ | ⟨r, rfl, hcopied⟩ := (hc.pointsTo_iff hmarker).mp hl
    · exact .of_pointsTo hl hbelow
    suffices hfront : t <+: k from
      (Value.Feeds.of_pointsTo hk hfront).trans
        (hchain.feeds hc.refs hcopied (List.prefix_append last r))
    refine (List.prefix_or_prefix_of_prefix hbelow (List.prefix_append k r)).elim id fun hback => ?_
    -- Below the reference there was nothing, so the target would be a new one.
    obtain ⟨raw, hn, -⟩ := hl
    have hnow := Value.node?_isSome_of_prefix hbelow (Option.isSome_of_eq_some hn)
    obtain ⟨l', hl'⟩ := hc.target_of_put hmarker ht
    obtain ⟨w, hw⟩ : ∃ w, D.node? t = some w := by
      by_contra hnone
      have hmissing := hstable ⟨⟨l', hl'⟩, Option.eq_none_iff_forall_ne_some.mpr fun w hw =>
        hnone ⟨w, hw⟩⟩
      rw [hmissing.2] at hnow
      exact absurd hnow (by simp)
    exact hk.eq_of_prefix hmarker hc.refs (hl'.marker_not_mem hmarker hc.refs) hw hback ▸
      List.prefix_refl _
  obtain ⟨n, hn⟩ := h
  induction n generalizing t with
  | zero =>
      cases hn with
      | next hl hbelow hrest =>
          cases hrest
          exact hhere ht hl hbelow
  | succ n ih =>
      cases hn with
      | next hl hbelow hrest => exact (hhere ht hl hbelow).trans (ih ⟨_, hl⟩ hrest)

omit hchain in
/-- The references that a copy leaves as they are. -/
theorem references_beside :
    (D.put k x).references.filter (fun e => ¬ k <+: e.1) = D.references.erase (k, target) := by
  ext ⟨l, s⟩
  rw [Finset.mem_filter, Finset.mem_erase, Value.mem_references_iff, Value.mem_references_iff]
  constructor
  · rintro ⟨hl, hbeside⟩
    obtain ⟨hl, hne⟩ | ⟨r, rfl, -⟩ := (hc.pointsTo_iff hmarker).mp hl
    · exact ⟨fun heq => hne (Prod.mk.inj heq).1, hl⟩
    · exact absurd (List.prefix_append k r) hbeside
  · rintro ⟨hne, hl⟩
    have hlk : l ≠ k := fun heq => by
      subst heq
      exact hne (Prod.ext rfl (hl.unique hk))
    exact ⟨(hc.pointsTo_iff hmarker).mpr (.inl ⟨hl, hlk⟩), fun hfront =>
      hlk (hk.eq_of_reference hmarker hc.refs hl hfront).symm⟩

/-- **A copy cuts off a reference and lets those grow that its target brings.** -/
theorem cutExpand_put {R : Path × Path → Path × Path → Prop}
    (hR : ∀ {l s}, D.Feeds target s → R (l, s) (k, target)) :
    CutExpand R (D.put k x).references.val D.references.val := by
  refine ⟨((D.put k x).references.filter fun e => k <+: e.1).val, (k, target),
    fun ⟨l, s⟩ hgrown => ?_, ?_⟩
  · obtain ⟨hl, hfront⟩ := Finset.mem_filter.mp hgrown
    obtain ⟨hl, hne⟩ | ⟨r, -, hcopied⟩ :=
      (hc.pointsTo_iff hmarker).mp (Value.mem_references_iff.mp hl)
    · exact absurd (hk.eq_of_reference hmarker hc.refs hl hfront).symm hne
    · exact hR (hchain.feeds hc.refs hcopied (List.prefix_append last r))
  · have hcut : (k, target) ∈ D.references.val := Value.mem_references_iff.mpr hk
    have hrest := congrArg Finset.val (hc.references_beside hmarker hk)
    rw [Finset.filter_val, Finset.erase_val] at hrest
    rw [Finset.filter_val]
    calc (D.put k x).references.val + {(k, target)}
        = (D.put k x).references.val.filter (fun e => k <+: e.1) +
            (D.references.val.erase (k, target) + {(k, target)}) := by
          rw [← hrest, ← add_assoc, Multiset.filter_add_not]
      _ = D.references.val + (D.put k x).references.val.filter (fun e => k <+: e.1) := by
          rw [add_comm _ {(k, target)}, Multiset.singleton_add, Multiset.cons_erase hcut, add_comm]

end Copying

/-- **A copy that leaves a document without circles was made in one.** -/
theorem Copied.circleFree (hmarker : Directive.referenceMarker ∈ markers)
    (h : Copied markers D D') (hfree : D'.CircleFree) : D.CircleFree := by
  obtain ⟨k, target, last, x, rfl, hrefs, hk, hchain, hlast⟩ := h.exists_chain
  intro n l hcircle
  obtain ⟨-, hcircle⟩ | ⟨m, -, l, hcircle⟩ :=
    (hchain.copying hmarker hrefs hk hlast).circles hmarker hk hchain hcircle
  · exact hfree n l hcircle
  · exact hfree m l hcircle

/-- A document with a copy made in it, and without circles still. -/
def Grows (markers : List String) (D' D : Value) : Prop :=
  Copied markers D D' ∧ D'.CircleFree

/-- **No copies can be made for ever without coming to a circle.** -/
theorem wellFounded_grows (hmarker : Directive.referenceMarker ∈ markers) :
    WellFounded (Grows markers) := by
  refine ⟨fun D => ?_⟩
  induction hcount : D.missing.ncard using Nat.strong_induction_on generalizing D with
  | _ count ih =>
      by_cases hfree : D.CircleFree
      · have hend : WellFounded (CutExpand fun e e' : Path × Path => D.Feeds e'.2 e.2) :=
          (InvImage.wf Prod.snd hfree.wellFounded).cutExpand
        suffices hgrown : ∀ E : Value,
            (∀ {t u}, (∃ l, E.PointsTo l t) → E.Feeds t u → D.Feeds t u) →
            E.missing.ncard = count → Acc (Grows markers) E from hgrown D (fun _ h => h) hcount
        -- As long as no target comes to exist, the references that grow are less in the same order.
        intro E hfeeds hmissing
        induction hheads : E.references.val using hend.induction generalizing E with
        | _ heads ihheads =>
            refine Acc.intro E fun E' ⟨hcopied, hfree'⟩ => ?_
            obtain ⟨k, target, last, x, rfl, hrefs, hk, hchain, hlast⟩ := hcopied.exists_chain
            have hc := hchain.copying hmarker hrefs hk hlast
            have hsubset := hc.missing_subset hmarker
            by_cases hstable : E.missing ⊆ (E.put k x).missing
            · refine ihheads _ ?_ (E.put k x) (fun ht h => ?_) ?_ rfl
              · rw [← hheads]
                exact hc.cutExpand_put hmarker hk hchain fun h => hfeeds ⟨k, hk⟩ h
              · exact hfeeds (hc.target_of_put hmarker ht)
                  (hc.feeds_of_put hmarker hk hchain hstable ht h)
              · rw [hsubset.antisymm hstable, hmissing]
            · refine ih _ ?_ _ rfl
              exact hmissing ▸ Set.ncard_lt_ncard ⟨hsubset, hstable⟩ E.finite_missing
      · refine Acc.intro D fun D' hgrows => absurd ?_ hfree
        exact hgrows.1.circleFree hmarker hgrows.2

theorem transGen_grows (hmarker : Directive.referenceMarker ∈ markers)
    (h : TransGen (Copied markers) D D') (hfree : D'.CircleFree) :
    TransGen (Grows markers) D' D := by
  induction h with
  | single hcopied => exact .single ⟨hcopied, hfree⟩
  | tail _ hcopied ih => exact .head ⟨hcopied, hfree⟩ (ih (hcopied.circleFree hmarker hfree))

end Docweave
