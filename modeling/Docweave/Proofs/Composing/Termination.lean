import Docweave.Proofs.Composing.Coverage
import Docweave.Proofs.Composing.Tidy
import Mathlib.Data.Set.Card

/-!
When composing ends.

There is no limit to the number of passes.  Composing gives up when a pass writes nothing and leaves
the very worklist that it began with, and this is all that has to happen: composing ends exactly if
every pass of it does and only finitely many of them write to the document
(`passes_isSome_iff`).

The measure is the number of nodes at or below the worklist.  A pass that writes nothing only notes
nodes that are there and are at or below its worklist, so the measure does not grow.  If it stays
the same, the next worklist has the same nodes.  A pass notes nodes in the order of its worklist,
so they are even in the same order, and composing gives up.
-/

namespace Docweave

/-- A document has finitely many nodes. -/
theorem Value.finite_nodes (v : Value) : {q | (v.node? q).isSome = true}.Finite := by
  obtain ⟨paths, -, hpaths⟩ := v.exists_nodes
  exact (List.finite_toSet paths).subset hpaths

namespace Worklist

/-! ### The order of a pass -/

/-- Paths that come up when the nodes of a worklist are looked through in order: first some at or
below the first node, then some at or below the second, and so on. -/
inductive Follows : List Path → List Path → Prop
  | nil : Follows [] []
  | skip {path : Path} {rest paths : List Path} (h : Follows rest paths) :
      Follows (path :: rest) paths
  | take {path r : Path} {rest paths : List Path} (hr : path <+: r)
      (h : Follows (path :: rest) paths) : Follows (path :: rest) (r :: paths)

variable {worklist paths : List Path} {path : Path}

theorem Follows.block {block : List Path} (h : Follows worklist paths)
    (hblock : ∀ r ∈ block, path <+: r) : Follows (path :: worklist) (block ++ paths) := by
  induction block with
  | nil => exact .skip h
  | cons r block ih =>
      obtain ⟨hr, hblock⟩ := List.forall_mem_cons.mp hblock
      exact .take hr (ih hblock)

theorem Follows.of_sublist (h : Follows worklist paths) {some : List Path}
    (hsome : some.Sublist paths) : Follows worklist some := by
  induction h generalizing some with
  | nil => exact List.sublist_nil.mp hsome ▸ .nil
  | skip h ih => exact .skip (ih hsome)
  | take hr h ih =>
      cases hsome with
      | cons _ hsome => exact ih hsome
      | cons_cons _ hsome => exact .take hr (ih hsome)

theorem Follows.exists_prefix (h : Follows worklist paths) :
    ∀ r ∈ paths, ∃ path ∈ worklist, path <+: r := by
  induction h with
  | nil => exact fun r hr => absurd hr List.not_mem_nil
  | skip h ih =>
      intro r hr
      obtain ⟨path, hpath, hfront⟩ := ih r hr
      exact ⟨path, List.mem_cons_of_mem _ hpath, hfront⟩
  | take hr h ih => exact List.forall_mem_cons.mpr ⟨⟨_, List.mem_cons_self, hr⟩, ih⟩

/-- If the paths that come up are nodes of the worklist, which has none below another, they come up
in its order. -/
theorem Follows.sublist (h : Follows worklist paths) (hnodup : paths.Nodup)
    (hapart : ∀ a ∈ worklist, ∀ r ∈ paths, a <+: r → a = r) : paths.Sublist worklist := by
  induction h with
  | nil => exact List.Sublist.slnil
  | skip h ih =>
      exact (ih hnodup fun a ha => hapart a (List.mem_cons_of_mem _ ha)).cons _
  | @take path r rest paths hr h ih =>
      obtain rfl := hapart path List.mem_cons_self r List.mem_cons_self hr
      obtain ⟨hnot, hrestnodup⟩ := List.nodup_cons.mp hnodup
      have hrest := ih hrestnodup fun a ha q hq => hapart a ha q (List.mem_cons_of_mem _ hq)
      cases hrest with
      | cons _ hrest => exact hrest.cons_cons path
      | cons_cons _ hrest => exact absurd List.mem_cons_self hnot

/-! ### The measure -/

/-- The nodes of a document at or below a worklist. -/
def within (document : Value) (worklist : List Path) : Set Path :=
  {q | (document.node? q).isSome = true ∧ ∃ path ∈ worklist, path <+: q}

/-- A worklist as a pass leaves it: nodes that are there, none of them twice or below another. -/
structure Proper (document : Value) (worklist : List Path) : Prop where
  nodup : worklist.Nodup
  apart : ∀ a ∈ worklist, ∀ b ∈ worklist, a <+: b → a = b
  nodes : ∀ path ∈ worklist, (document.node? path).isSome = true

theorem within_subset {document : Value} {next : List Path} (h : Follows worklist next) :
    within document next ⊆ within document worklist := by
  rintro q ⟨hq, r, hr, hrq⟩
  obtain ⟨path, hpath, hfront⟩ := h.exists_prefix r hr
  exact ⟨hq, path, hpath, hfront.trans hrq⟩

theorem mem_of_within_subset {document : Value} {next : List Path}
    (hworklist : Proper document worklist)
    (hback : within document worklist ⊆ within document next) (hfollows : Follows worklist next) :
    ∀ path ∈ worklist, path ∈ next := by
  intro path hpath
  obtain ⟨-, r, hr, hrpath⟩ :=
    hback ⟨hworklist.nodes path hpath, path, hpath, List.prefix_refl path⟩
  obtain ⟨above, habove, hfront⟩ := hfollows.exists_prefix r hr
  obtain rfl := hworklist.apart above habove path hpath (hfront.trans hrpath)
  obtain rfl := Path.prefix_antisymm hfront hrpath
  exact hr

/-- **A worklist that follows another has fewer nodes at or below it, or is the same.** -/
theorem ncard_within_lt {document : Value} {next : List Path} (hworklist : Proper document worklist)
    (hnext : Proper document next) (hfollows : Follows worklist next) (hne : next ≠ worklist) :
    (within document next).ncard < (within document worklist).ncard := by
  have hfinite : (within document worklist).Finite :=
    document.finite_nodes.subset fun q hq => hq.1
  refine Set.ncard_lt_ncard ⟨within_subset hfollows, fun hback => hne ?_⟩ hfinite
  have hmem := mem_of_within_subset hworklist hback hfollows
  have hapart : ∀ a ∈ worklist, ∀ r ∈ next, a <+: r → a = r := fun a ha r hr =>
    hnext.apart a (hmem a ha) r hr
  have hsublist := hfollows.sublist hnext.nodup hapart
  exact hsublist.eq_of_length_le (hworklist.nodup.subperm hmem).length_le

end Worklist

namespace Composing

variable {μ : Type} {workshop : Workshop μ} {Inv : Progress μ → Prop} {p q : Progress μ}
  {worklist next : List Path} {path : Path} {b : Bool}

/-! ### Passes that write nothing -/

/-- Handing a directive over notes no node but its own. -/
theorem Effect.mem_revisit (h : Effect path p b q) : ∀ r ∈ q.revisit, r ∈ p.revisit ∨ r = path := by
  intro r hr
  cases h with
  | retry => exact (List.mem_cons.mp hr).symm
  | expanded hv hcontainer hwrite => exact hwrite.revisit_eq ▸ (List.mem_cons.mp hr).symm
  | replaced hv hscalar hwrite => exact .inl (hwrite.revisit_eq ▸ hr)
  | completed hv hwrite => exact .inl (hwrite.revisit_eq ▸ hr)

/-- A property of whatever is noted while the document stays as it is. -/
structure Notes (workshop : Workshop μ) (Inv : Progress μ → Prop) (P : Store → Path → Prop) :
    Prop where
  waiting : ∀ {path v p q}, Inv p → p.document.content.node? path = some v →
    isDirective (Handler.markers workshop.handlers) v = true →
    scanFields workshop path v.entries p = some (.ok true, q) → P p.document path
  invoked : ∀ {path p b q}, path ≠ [] → Inv p → Invoked workshop path p b q → q.changed = false →
    ∀ r ∈ q.revisit, r ∈ p.revisit ∨ P p.document r

variable {P : Store → Path → Prop}

/-- If what is noted in each of some entries has a property, what is noted in all of them has it. -/
theorem scanFields_noted (hK : Kept workshop Inv) {es : List (String × Value)}
    (hscan : ∀ e ∈ es, ∀ path p b q, scan workshop path e.2 p = some (.ok b, q) → Inv p →
      p.document.content.node? path = some e.2 → q.changed = false →
      ∀ r ∈ q.revisit, r ∈ p.revisit ∨ P p.document r)
    (h : scanFields workshop path es p = some (.ok b, q)) (hp : Inv p)
    (hes : ∀ e ∈ es, p.document.content.node? (path.child e.1) = some e.2)
    (hchanged : q.changed = false) :
    ∀ r ∈ q.revisit, r ∈ p.revisit ∨ P p.document r := by
  induction es generalizing p b with
  | nil =>
      obtain ⟨-, rfl⟩ := scanFields_nil_eq_ok.mp h
      exact fun r hr => .inl hr
  | cons e es ih =>
      obtain ⟨here, there, m, hhere, hthere, -⟩ := scanFields_cons_eq_ok.mp h
      obtain ⟨he, hes⟩ := List.forall_mem_cons.mp hes
      obtain ⟨hscane, hscanes⟩ := List.forall_mem_cons.mp hscan
      obtain ⟨hm, hmoved⟩ := hK.scan hhere hp
      obtain ⟨hmchanged, -⟩ := (hK.scanFields hthere hm).2.unchanged hchanged
      obtain ⟨-, hdocument⟩ := hmoved.unchanged hmchanged
      have hrest := ih hscanes hthere hm (hdocument ▸ hes)
      intro r hr
      rcases hrest r hr with hr | hr
      · exact hscane _ _ _ _ hhere hp he hmchanged r hr
      · exact .inr (hdocument ▸ hr)

/-- Whatever is noted in a node while the document stays as it is has the property. -/
theorem scan_noted (hK : Kept workshop Inv) (hP : Notes workshop Inv P) (v : Value) :
    ∀ path p b q, scan workshop path v p = some (.ok b, q) → Inv p →
      p.document.content.node? path = some v → q.changed = false →
      ∀ r ∈ q.revisit, r ∈ p.revisit ∨ P p.document r := by
  induction v using Value.entries_induction with
  | node v ih =>
      intro path p b q h hp hn hchanged
      have hwell : v.WellFormed := (hK.sound hp).wellFormed.of_node? hn
      have hes := fun e he => Value.node?_child_of_mem_entries hn hwell (e := e) he
      have hnoted := fun {b q} (hscan : scanFields workshop path v.entries p = some (.ok b, q)) =>
        scanFields_noted hK ih hscan hp hes
      cases Scanned.of_scan h with
      | completed hdone => exact fun r hr => .inl hr
      | plain hplain hscan => exact hnoted hscan hchanged
      | waiting hdirective hroot hscan =>
          intro r hr
          rcases List.mem_cons.mp hr with rfl | hr
          · exact .inr (hP.waiting hp hn hdirective hscan)
          · exact hnoted hscan hchanged r hr
      | @invoked b m q hdirective hroot hscan hinvoke =>
          obtain ⟨hm, hmoved⟩ := hK.scanFields hscan hp
          obtain ⟨hmchanged, -⟩ := (hK.moved_of_invoked hroot hm hinvoke).unchanged hchanged
          obtain ⟨-, hdocument⟩ := hmoved.unchanged hmchanged
          intro r hr
          rcases hP.invoked hroot hm hinvoke hchanged r hr with hr | hr
          · exact hnoted hscan hmchanged r hr
          · exact .inr (hdocument ▸ hr)

theorem Passed.noted (hK : Kept workshop Inv) (hP : Notes workshop Inv P)
    (h : Passed workshop worklist p q) (hp : Inv p) (hchanged : q.changed = false) :
    q.document = p.document ∧ ∃ extra, q.revisit = extra ++ p.revisit ∧
      Worklist.Follows worklist extra.reverse ∧ ∀ r ∈ extra, r ∈ p.revisit ∨ P p.document r := by
  induction h with
  | nil => exact ⟨rfl, [], rfl, .nil, fun r hr => absurd hr List.not_mem_nil⟩
  | gone hgone hrest ih =>
      obtain ⟨hdocument, extra, hextra, hfollows, hnodes⟩ := ih hp hchanged
      exact ⟨hdocument, extra, hextra, .skip hfollows, hnodes⟩
  | @scanned path rest p q r v b hget hscan hrest ih =>
      obtain ⟨hq, hmoved⟩ := hK.scan hscan hp
      obtain ⟨hdocument', extra', hextra', hfollows', hnodes'⟩ := ih hq hchanged
      obtain ⟨hqchanged, -⟩ := (hK.frame.passed hrest hq).2.unchanged hchanged
      obtain ⟨-, hdocument⟩ := hmoved.unchanged hqchanged
      obtain ⟨extra, hextra, hwithin⟩ := hmoved.revisit
      have hn := (Store.get_plain_eq_ok_iff (hK.sound hp)).mp hget
      have hnodes := scan_noted hK hP v path p b q hscan hp hn hqchanged
      refine ⟨hdocument'.trans hdocument, extra' ++ extra, ?_, ?_, fun r hr => ?_⟩
      · rw [hextra', hextra, List.append_assoc]
      · rw [List.reverse_append]
        exact hfollows'.block fun r hr => hwithin r (List.mem_reverse.mp hr)
      · rw [hdocument, hextra] at hnodes'
        have hnoted := fun hr => hnodes r (hextra ▸ List.mem_append_left p.revisit hr)
        rcases List.mem_append.mp hr with hr | hr
        · rcases hnodes' r hr with hr | hr
          · exact (List.mem_append.mp hr).elim hnoted .inl
          · exact .inr hr
        · exact hnoted hr

/-- Whatever is noted while the document stays as it is is one of its nodes. -/
theorem notes_nodes (hK : Kept workshop Inv) :
    Notes workshop Inv fun document r => (document.content.node? r).isSome = true where
  waiting _ hn _ _ := Option.isSome_of_eq_some hn
  invoked := fun {path p b q} hroot hp h _ => by
    intro r hr
    obtain ⟨-, rfl, -⟩ | ⟨memory, heffect⟩ := hK.effect hroot hp h
    · exact .inl hr
    · obtain ⟨old, hn⟩ := h.exists_node (hK.sound hp)
      rcases heffect.mem_revisit r hr with hr | rfl
      · exact .inl hr
      · exact .inr (Option.isSome_of_eq_some hn)

/-- The round after a pass that writes nothing. -/
theorem round_unchanged (hK : Kept workshop Inv) (hp : Inv p)
    (h : round workshop worklist p = some (.next next q)) (hchanged : q.changed = false) :
    Inv q ∧ q.document = p.document ∧ next ≠ worklist ∧ Worklist.Follows worklist next ∧
      Worklist.Proper p.document.content next := by
  obtain ⟨hpass, rfl, -, hstall⟩ := round_eq_next h
  obtain ⟨hdocument, extra, hextra, hfollows, hnodes⟩ :=
    hpass.noted hK (notes_nodes hK) (hK.fresh hp) hchanged
  have hrevisit : q.revisit = extra := by rw [hextra]; exact List.append_nil extra
  refine ⟨hK.passed hpass (hK.fresh hp), hdocument, fun heq => ?_, ?_, ?_⟩
  · rw [hstall heq] at hchanged
    exact absurd hchanged (by simp)
  · rw [leftOver, hrevisit]
    exact hfollows.of_sublist (Worklist.normalize_sublist _)
  · refine ⟨Worklist.nodup_normalize _,
      fun a ha b hb => Worklist.eq_of_prefix_of_mem_normalize ha hb, fun path hpath => ?_⟩
    have hmem := List.mem_reverse.mp (Worklist.mem_of_mem_normalize hpath)
    exact (hnodes path (hrevisit ▸ hmem)).resolve_left List.not_mem_nil

/-! ### Rounds one after the other -/

/-- What there is after so many rounds. -/
def rounds (workshop : Workshop μ) (worklist : List Path) (progress : Progress μ) :
    Nat → Option (Round μ)
  | 0 => some (.next worklist progress)
  | n + 1 =>
    match rounds workshop worklist progress n with
    | some (.next worklist progress) => round workshop worklist progress
    | other => other

/-- Every pass ends, and from some pass on nothing is written to the document. -/
structure Calms (workshop : Workshop μ) (worklist : List Path) (progress : Progress μ) : Prop where
  passes_end : ∀ n, rounds workshop worklist progress n ≠ none
  calm : ∃ N, ∀ n, N < n → ∀ next q, rounds workshop worklist progress n = some (.next next q) →
    q.changed = false

/-- Rounds go on where they have come to. -/
theorem rounds_add (m n : Nat) : rounds workshop worklist p (m + n) =
    match rounds workshop worklist p m with
    | some (.next next q) => rounds workshop next q n
    | other => other := by
  induction n with
  | zero => rcases rounds workshop worklist p m with _ | _ | _ <;> rfl
  | succ n ih =>
      rw [← Nat.add_assoc, rounds, ih]
      rcases rounds workshop worklist p m with _ | _ | _ <;> rfl

theorem rounds_add_of_next {m : Nat} (h : rounds workshop worklist p m = some (.next next q))
    (n : Nat) : rounds workshop worklist p (m + n) = rounds workshop next q n := by
  rw [rounds_add, h]

theorem rounds_succ_of_next {m : Nat} (h : rounds workshop worklist p m = some (.next next q)) :
    rounds workshop worklist p (m + 1) = round workshop next q := by
  rw [rounds, h]

theorem rounds_one : rounds workshop worklist p 1 = round workshop worklist p := rfl

theorem ran_iff_rounds {result : Except Fault Unit} :
    Ran workshop worklist p (result, q) ↔
      ∃ n, rounds workshop worklist p n = some (.ended result q) := by
  constructor
  · intro h
    generalize hend : (result, q) = end_ at h
    induction h with
    | ended hround =>
        obtain ⟨rfl, rfl⟩ := Prod.mk.inj hend
        exact ⟨1, hround⟩
    | next hround hrest ih =>
        obtain ⟨n, hn⟩ := ih hend
        exact ⟨1 + n, by rw [rounds_add, rounds_one, hround]; exact hn⟩
  · rintro ⟨n, h⟩
    induction n generalizing worklist p with
    | zero => exact absurd h (by simp [rounds])
    | succ n ih =>
        rw [Nat.add_comm, rounds_add, rounds_one] at h
        split at h
        · exact .next ‹_› (ih h)
        · exact .ended h

theorem Kept.rounds (hK : Kept workshop Inv) (hp : Inv p) {n : Nat}
    (h : Composing.rounds workshop worklist p n = some (.next next q)) : Inv q := by
  induction n generalizing next q with
  | zero =>
      obtain ⟨-, rfl⟩ := Round.next.inj (Option.some.inj h)
      exact hp
  | succ n ih =>
      rw [Composing.rounds] at h
      split at h
      · rename_i worklist' p' hbefore
        obtain ⟨hpass, -⟩ := round_eq_next h
        exact hK.passed hpass (hK.fresh (ih hbefore))
      · rename_i hother
        exact absurd h (hother next q)

/-- **If no pass writes anything any more, the passes come to an end.** -/
theorem exists_ended_of_calm (hK : Kept workshop Inv) (hp : Inv p)
    (hworklist : Worklist.Proper p.document.content worklist)
    (hend : ∀ n, rounds workshop worklist p n ≠ none)
    (hcalm : ∀ n, 0 < n → ∀ next q, rounds workshop worklist p n = some (.next next q) →
      q.changed = false) :
    ∃ n result q, rounds workshop worklist p n = some (.ended result q) := by
  induction hmeasure : (Worklist.within p.document.content worklist).ncard
    using Nat.strong_induction_on generalizing worklist p with
  | _ measure ih =>
      rcases hround : rounds workshop worklist p 1 with _ | ⟨result, q⟩ | ⟨next, q⟩
      · exact absurd hround (hend 1)
      · exact ⟨1, result, q, hround⟩
      · have hchanged := hcalm 1 Nat.one_pos next q hround
        obtain ⟨hq, hdocument, hne, hfollows, hnext⟩ := round_unchanged hK hp hround hchanged
        have hshift := rounds_add_of_next hround
        rw [← hdocument] at hworklist hnext hmeasure
        obtain ⟨n, result, r, hn⟩ := ih _
          (hmeasure ▸ Worklist.ncard_within_lt hworklist hnext hfollows hne) hq hnext
          (fun n => hshift n ▸ hend (1 + n))
          (fun n _ => hshift n ▸ hcalm (1 + n) (by omega)) rfl
        exact ⟨1 + n, result, r, (hshift n).trans hn⟩

theorem Calms.exists_ended (hK : Kept workshop Inv) (hp : Inv p) (h : Calms workshop worklist p) :
    ∃ n result q, rounds workshop worklist p n = some (.ended result q) := by
  obtain ⟨hend, N, hcalm⟩ := h
  rcases hN : rounds workshop worklist p N with _ | ⟨result, q⟩ | ⟨w, r⟩
  · exact absurd hN (hend N)
  · exact ⟨N, result, q, hN⟩
  -- One more round, and the worklist is one that a pass over this very document has left.
  rcases hround : rounds workshop worklist p (N + 1) with _ | ⟨result, q⟩ | ⟨next, q⟩
  · exact absurd hround (hend (N + 1))
  · exact ⟨N + 1, result, q, hround⟩
  · have hchanged := hcalm (N + 1) (by omega) next q hround
    have hshift := rounds_add_of_next hround
    rw [rounds_succ_of_next hN] at hround
    obtain ⟨hq, hdocument, -, -, hnext⟩ :=
      round_unchanged hK (hK.rounds hp hN) hround hchanged
    obtain ⟨n, result, s, hn⟩ := exists_ended_of_calm hK hq (hdocument ▸ hnext)
      (fun n => hshift n ▸ hend (N + 1 + n))
      (fun n _ => hshift n ▸ hcalm (N + 1 + n) (by omega))
    exact ⟨N + 1 + n, result, s, (hshift n).trans hn⟩

/-- **Composing ends exactly if every pass does and only finitely many write to the document.** -/
theorem passes_isSome_iff (hK : Kept workshop Inv) (hp : Inv p) :
    (passes workshop worklist p).isSome = true ↔ Calms workshop worklist p := by
  constructor
  · intro h
    obtain ⟨⟨result, q⟩, hpasses⟩ := Option.isSome_iff_exists.mp h
    obtain ⟨N, hN⟩ := ran_iff_rounds.mp (passes_eq_some_iff.mp hpasses)
    have hended : ∀ n, rounds workshop worklist p (N + n) = some (.ended result q) := by
      intro n
      rw [rounds_add, hN]
    refine ⟨fun n hnone => ?_, N, fun n hn next r hnext => ?_⟩
    · have hafter := hended n
      rw [Nat.add_comm, rounds_add, hnone] at hafter
      exact absurd hafter (by simp)
    · obtain ⟨m, rfl⟩ := Nat.exists_eq_add_of_lt hn
      rw [Nat.add_assoc, hended] at hnext
      exact absurd hnext (by simp)
  · intro h
    obtain ⟨n, result, q, hn⟩ := h.exists_ended hK hp
    have hpasses := passes_eq_some_iff.mpr (ran_iff_rounds.mpr ⟨n, hn⟩)
    exact Option.isSome_of_eq_some hpasses

theorem passes_isSome_of_rounds {n : Nat}
    (h : rounds workshop worklist p n = some (.next next q))
    (hends : (passes workshop next q).isSome = true) :
    (passes workshop worklist p).isSome = true := by
  obtain ⟨⟨result, r⟩, hpasses⟩ := Option.isSome_iff_exists.mp hends
  obtain ⟨m, hm⟩ := ran_iff_rounds.mp (passes_eq_some_iff.mp hpasses)
  have hended : rounds workshop worklist p (n + m) = some (.ended result r) :=
    (rounds_add_of_next h m).trans hm
  exact Option.isSome_of_eq_some (passes_eq_some_iff.mpr (ran_iff_rounds.mpr ⟨_, hended⟩))

/-- If composing ends from wherever a pass that writes has come to, it ends. -/
theorem passes_isSome_of_writes (hK : Kept workshop Inv) (hp : Inv p)
    (hend : ∀ n, rounds workshop worklist p n ≠ none)
    (hwrites : ∀ n next q, rounds workshop worklist p (n + 1) = some (.next next q) →
      q.changed = true → (passes workshop next q).isSome = true) :
    (passes workshop worklist p).isSome = true := by
  by_cases hcalm : ∀ n, 0 < n → ∀ next q, rounds workshop worklist p n = some (.next next q) →
      q.changed = false
  · exact (passes_isSome_iff hK hp).mpr ⟨hend, 0, hcalm⟩
  · push Not at hcalm
    obtain ⟨n, hn, next, q, hround, hchanged⟩ := hcalm
    obtain ⟨m, rfl⟩ := Nat.exists_eq_succ_of_ne_zero (Nat.ne_of_gt hn)
    exact passes_isSome_of_rounds hround
      (hwrites m next q hround (Bool.eq_true_of_not_eq_false hchanged))

end Composing

end Docweave
