import Docweave.Proofs.Composing.Completeness
import Docweave.Proofs.Composing.Faults
import Docweave.Proofs.Handlers

/-!
What composing leaves as it is, however it ends.

All that composing ever writes to is a directive it has found, in the first pass or in a later one,
and by then the document may have been written to many times.  A node is `Claimed` if it is at or
below a directive that the document had at the start, at or below the node that composing starts at.
The nodes that are not claimed keep their heads (`Untouched`), and whether a node is a directive can
be read off its head, so a directive that is found later is claimed as well (`Untouched.claimed`).

An action that ends in a fault leaves the document as it stood before the fault, so what every step
keeps also holds after a run that fails halfway.
-/

namespace Docweave

namespace Composing

/-! ### Claimed nodes -/

/-- A node is at or below one of some nodes. -/
def Within (starts : List Path) (path : Path) : Prop :=
  ∃ top ∈ starts, top <+: path

theorem Within.of_prefix {starts : List Path} {path below : Path} (h : Within starts path)
    (hbelow : path <+: below) : Within starts below :=
  have ⟨top, htop, hpath⟩ := h
  ⟨top, htop, hpath.trans hbelow⟩

/-- A node is at or below a directive of a document, which is at or below a start. -/
def Claimed (markers : List String) (root : Value) (starts : List Path) (path : Path) : Prop :=
  ∃ site directive, Within starts site ∧ site <+: path ∧ root.node? site = some directive ∧
    isDirective markers directive = true

/-- A document has come from another by changes to claimed nodes. -/
structure Untouched (markers : List String) (root : Value) (starts : List Path)
    (content : Value) : Prop where
  /-- What is not claimed is there as before, but for its children. -/
  head : ∀ path, ¬ Claimed markers root starts path →
    (content.node? path).map Value.head = (root.node? path).map Value.head
  beside : ∀ path, (∀ top ∈ starts, ¬ top <+: path ∧ ¬ path <+: top) →
    content.node? path = root.node? path

section

variable {markers : List String} {root content : Value} {starts : List Path} {path : Path}

theorem Claimed.of_prefix {below : Path} (h : Claimed markers root starts path)
    (hbelow : path <+: below) : Claimed markers root starts below :=
  have ⟨site, directive, hstart, hsite, hn, hdirective⟩ := h
  ⟨site, directive, hstart, hsite.trans hbelow, hn, hdirective⟩

theorem Claimed.within (h : Claimed markers root starts path) : Within starts path :=
  have ⟨_, _, hstart, hsite, _⟩ := h
  hstart.of_prefix hsite

namespace Untouched

theorem refl (markers : List String) (root : Value) (starts : List Path) :
    Untouched markers root starts root :=
  ⟨fun _ _ => rfl, fun _ _ => rfl⟩

/-- What is found as a directive is claimed, however the document has changed. -/
theorem claimed (h : Untouched markers root starts content) (hwithin : Within starts path)
    {d : Value} (hn : content.node? path = some d) (hd : isDirective markers d = true) :
    Claimed markers root starts path := by
  by_contra hnot
  have hhead := h.head path hnot
  rw [hn] at hhead
  obtain ⟨d', hn', hd'⟩ := Option.map_eq_some_iff.mp hhead.symm
  exact hnot ⟨path, d', hwithin, List.prefix_refl path, hn', (isDirective_of_head_eq hd').trans hd⟩

/-- A claimed node may be written. -/
theorem put (h : Untouched markers root starts content)
    (hclaimed : Claimed markers root starts path)
    (v : Value) : Untouched markers root starts (content.put path v) where
  head other hnot := by
    have hpath : ¬ path <+: other := fun hbelow => hnot (hclaimed.of_prefix hbelow)
    rw [← h.head other hnot]
    cases hn : content.node? other with
    | some w =>
        obtain ⟨w', hw', hhead⟩ := Value.head_node?_put hpath hn v
        rw [hw', Option.map_some, Option.map_some, hhead]
    | none =>
        refine Option.map_eq_none_iff.mpr (Option.eq_none_iff_forall_ne_some.mpr fun w hw => ?_)
        obtain ⟨w', hw', -⟩ := Value.head_node?_of_put hpath hw
        exact absurd (hn.symm.trans hw') (by simp)
  beside other hbeside := by
    obtain ⟨top, htop, hpath⟩ := hclaimed.within
    obtain ⟨hbelow, habove⟩ := hbeside top htop
    rw [← h.beside other hbeside]
    refine Value.node?_put_beside content (fun hfront => hbelow (hpath.trans hfront)) ?_ v
    -- Two nodes that lie above one node lie one above the other.
    exact fun hfront => (List.prefix_or_prefix_of_prefix hpath hfront).elim hbelow habove

end Untouched

end

/-! ### Actions -/

variable {μ α β : Type} {workshop : Workshop μ} {p q : Progress μ} {path : Path} {fault : Fault}

/-- From a state as `Inv` says an action comes to another, or to one as `Last` says if it fails. -/
def Keeps (Inv Last : Progress μ → Prop) (x : Composing μ α) : Prop :=
  ∀ p result q, Inv p → x p = some (result, q) →
    match result with
    | .ok _ => Inv q
    | .error _ => Last q

theorem Keeps.bind {Inv Last : Progress μ → Prop} {x : Composing μ α} {f : α → Composing μ β}
    (hx : Keeps Inv Last x) (hf : ∀ a, Keeps Inv Last (f a)) : Keeps Inv Last (x >>= f) := by
  intro p result q hp h
  cases result with
  | ok b =>
      obtain ⟨a, r, hxp, hfr⟩ := bind_eq_ok.mp h
      exact hf a _ _ _ (hx _ _ _ hp hxp) hfr
  | error fault =>
      obtain hxp | ⟨a, r, hxp, hfr⟩ := bind_eq_error.mp h
      · exact hx _ _ _ hp hxp
      · exact hf a _ _ _ (hx _ _ _ hp hxp) hfr

theorem Keeps.pure {Inv Last : Progress μ → Prop} (a : α) :
    Keeps Inv Last (pure a : Composing μ α) := by
  intro p result q hp h
  obtain ⟨rfl, rfl⟩ := Prod.mk.inj (Option.some.inj h)
  exact hp

theorem Keeps.ite {Inv Last : Progress μ → Prop} {c : Prop} [Decidable c] {x y : Composing μ α}
    (hx : Keeps Inv Last x) (hy : Keeps Inv Last y) : Keeps Inv Last (if c then x else y) := by
  split
  · exact hx
  · exact hy

/-- How far composing has come from a document, all the changes being to claimed nodes. -/
structure Tracked (remembers : μ → Prop) (markers : List String) (root : Value) (starts : List Path)
    (p : Progress μ) : Prop where
  proper : Proper remembers p
  untouched : Untouched markers root starts p.document.content
  revisit : ∀ path ∈ p.revisit, Within starts path

theorem Tracked.fresh {remembers : μ → Prop} {markers : List String} {root : Value}
    {starts : List Path} (h : Tracked remembers markers root starts p) :
    Tracked remembers markers root starts p.fresh :=
  ⟨⟨h.proper.sound, h.proper.memory⟩, h.untouched, fun _ h => absurd h List.not_mem_nil⟩

/-- What is left of it after a fault. -/
abbrev TrackedLast (markers : List String) (root : Value) (starts : List Path)
    (p : Progress μ) : Prop :=
  Untouched markers root starts p.document.content

variable {remembers : μ → Prop} {root : Value} {starts : List Path}

/-- Nothing happens but to claimed nodes. -/
abbrev KeepsTrack (remembers : μ → Prop) (workshop : Workshop μ) (root : Value) (starts : List Path)
    (x : Composing μ α) : Prop :=
  Keeps (Tracked remembers (Handler.markers workshop.handlers) root starts)
    (TrackedLast (Handler.markers workshop.handlers) root starts) x

theorem keeps_again (hwithin : Within starts path) :
    KeepsTrack remembers workshop root starts (again path) := by
  intro p result q hp h
  obtain ⟨rfl, rfl⟩ := Prod.mk.inj (Option.some.inj h)
  exact ⟨⟨hp.proper.sound, hp.proper.memory⟩, hp.untouched,
    List.forall_mem_cons.mpr ⟨hwithin, hp.revisit⟩⟩

/-- **Handing over a claimed directive changes nothing but claimed nodes, also if its handler
fails.** -/
theorem keeps_invoke (htidy : workshop.Tidy remembers) (hroot : path ≠ [])
    (hclaimed : Claimed (Handler.markers workshop.handlers) root starts path) :
    KeepsTrack remembers workshop root starts (invoke workshop path) := by
  intro p result q hp h
  cases result with
  | error fault =>
      show Untouched _ root starts q.document.content
      rw [(invoke_eq_error h).1]
      exact hp.untouched
  | ok b =>
      have hK := kept_of_tidy htidy
      have hinvoked := Invoked.of_invoke h
      have hmoved := hK.moved_of_invoked hroot hp.proper hinvoked
      obtain ⟨v, hv⟩ := hmoved.content
      obtain ⟨extra, hextra, hextra'⟩ := hmoved.revisit
      refine ⟨hK.invoked hroot hp.proper hinvoked, hv ▸ hp.untouched.put hclaimed v, ?_⟩
      rw [hextra]
      intro r hr
      exact (List.mem_append.mp hr).elim (fun hr => hclaimed.within.of_prefix (hextra' r hr))
        (hp.revisit r)

theorem keeps_scanFields {es : List (String × Value)}
    (hscan : ∀ e ∈ es, KeepsTrack remembers workshop root starts
      (scan workshop (path.child e.1) e.2)) :
    KeepsTrack remembers workshop root starts (scanFields workshop path es) := by
  induction es with
  | nil =>
      rw [scanFields]
      exact Keeps.pure false
  | cons e es ih =>
      obtain ⟨he, hes⟩ := List.forall_mem_cons.mp hscan
      rw [scanFields]
      exact he.bind fun here => (ih hes).bind fun there => Keeps.pure (here || there)

/-- **Looking through a snapshot whose directives are claimed changes nothing but claimed
nodes.** -/
theorem keeps_scan (htidy : workshop.Tidy remembers) (v : Value) : ∀ path, v.WellFormed →
    (∀ below d, v.node? below = some d →
      isDirective (Handler.markers workshop.handlers) d = true →
      Claimed (Handler.markers workshop.handlers) root starts (path ++ below)) →
    KeepsTrack remembers workshop root starts (scan workshop path v) := by
  induction v using Value.entries_induction with
  | node v ih =>
      intro path hwell hclaimed
      have hentries : KeepsTrack remembers workshop root starts
          (scanFields workshop path v.entries) := by
        refine keeps_scanFields fun e he => ih e he _ (hwell.of_mem_entries he) ?_
        intro below d hn hd
        have hchild := Value.child?_of_mem_entries hwell he
        have := hclaimed (e.1 :: below) d
          (by rw [Value.node?_cons, hchild, Option.bind_some, hn]) hd
        rwa [List.append_cons] at this
      intro p result q hp h
      rw [scan_eq] at h
      split at h
      · obtain ⟨rfl, rfl⟩ := Prod.mk.inj (Option.some.inj h)
        exact hp
      split at h
      · rename_i hdirective
        have hhere := hclaimed [] v (Value.node?_nil v) hdirective
        rw [List.append_nil] at hhere
        split at h
        · obtain ⟨rfl, rfl⟩ := Prod.mk.inj (Option.some.inj h)
          exact hp.untouched
        · rename_i hroot
          refine Keeps.bind hentries (fun inside => ?_) _ _ _ hp h
          exact Keeps.ite (keeps_again hhere.within) (keeps_invoke htidy hroot hhere)
      · exact hentries _ _ _ hp h

theorem keeps_pass (htidy : workshop.Tidy remembers) {worklist : List Path}
    (hworklist : ∀ path ∈ worklist, Within starts path) :
    KeepsTrack remembers workshop root starts (pass workshop worklist) := by
  induction worklist with
  | nil => exact Keeps.pure ()
  | cons path rest ih =>
      obtain ⟨hpath, hrest⟩ := List.forall_mem_cons.mp hworklist
      intro p result q hp h
      have hsound := hp.proper.sound
      cases hn : p.document.content.node? path with
      | none =>
          rw [pass_cons_of_gone hsound rest hn] at h
          exact ih hrest _ _ _ hp h
      | some v =>
          rw [pass_cons_of_node hsound rest hn] at h
          refine Keeps.bind ?_ (fun _ => ih hrest) _ _ _ hp h
          refine keeps_scan htidy v path (hsound.wellFormed.of_node? hn) fun below d hd => ?_
          refine hp.untouched.claimed (hpath.of_prefix (List.prefix_append path below)) ?_
          rw [Value.node?_append, hn, Option.bind_some, hd]

theorem exists_pass_of_round_ended {worklist : List Path} {result : Except Fault Unit}
    (h : round workshop worklist p = some (.ended result q)) :
    ∃ result', pass workshop worklist p.fresh = some (result', q) := by
  simp only [round] at h
  split at h
  · exact absurd h (by simp)
  · rename_i hpass
    obtain ⟨-, rfl⟩ := Round.ended.inj (Option.some.inj h)
    exact ⟨_, hpass⟩
  · rename_i r hpass
    simp only [verdict, Option.some.injEq] at h
    split at h
    · obtain ⟨-, rfl⟩ := Round.ended.inj h
      exact ⟨_, hpass⟩
    · split at h
      · obtain ⟨-, rfl⟩ := Round.ended.inj h
        exact ⟨_, hpass⟩
      · exact absurd h (by simp)

theorem pass_of_round_next {worklist next : List Path}
    (h : round workshop worklist p = some (.next next q)) :
    pass workshop worklist p.fresh = some (.ok (), q) := by
  simp only [round] at h
  split at h
  · exact absurd h (by simp)
  · exact absurd h (by simp)
  · rename_i r hpass
    simp only [verdict, Option.some.injEq] at h
    split at h
    · exact absurd h (by simp)
    · split at h
      · exact absurd h (by simp)
      · obtain ⟨-, rfl⟩ := Round.next.inj h
        exact hpass

/-- **A run of rounds changes nothing but claimed nodes, whatever its end.** -/
theorem Ran.untouched (htidy : workshop.Tidy remembers) {worklist : List Path}
    {end_ : Except Fault Unit × Progress μ} (h : Ran workshop worklist p end_)
    (hworklist : ∀ path ∈ worklist, Within starts path)
    (hp : Tracked remembers (Handler.markers workshop.handlers) root starts p) :
    Untouched (Handler.markers workshop.handlers) root starts end_.2.document.content := by
  induction h with
  | ended hround =>
      obtain ⟨result, hpass⟩ := exists_pass_of_round_ended hround
      have hq := keeps_pass htidy hworklist _ _ _ hp.fresh hpass
      cases result with
      | ok _ => exact hq.untouched
      | error fault => exact hq
  | next hround hrest ih =>
      have hq := keeps_pass htidy hworklist _ _ _ hp.fresh (pass_of_round_next hround)
      obtain ⟨-, rfl, -⟩ := round_eq_next hround
      exact ih (fun path hpath => hq.revisit path (mem_revisit_of_mem_leftOver hpath)) hq

end Composing

namespace Composer

open Composing

variable {μ : Type} {composer composer' : Composer μ} {setting : Setting} {start : Pointer}

theorem mem_startWorklist_iff {path : Path} :
    path ∈ startWorklist start ↔ start.path? = some path := by
  unfold startWorklist
  cases start.path? with
  | none => simp
  | some top => rw [List.mem_singleton, Option.some.injEq, eq_comm]

/-- **Composing touches nothing but directives, whatever its end.**  A node that is neither at nor
below a directive at or below the start is there afterwards exactly if it was before, with the same
kind and the same keys in their order, the same length, or the same scalar; and what is outside of
the start is the same altogether.  A fault may end composing after it has written much, and nothing
is taken back then. -/
theorem composeAt_untouched {remembers : μ → Prop} {result : Except Fault Unit}
    (htidy : ∀ handler ∈ composer.handlers, handler.Tidy remembers)
    (hsound : composer.store.Sound) (hmemory : remembers composer.memory)
    (h : composer.composeAt setting start = some (result, composer')) :
    (∀ path, (∀ top, start.path? = some top → ∀ site directive, top <+: site → site <+: path →
        composer.store.content.node? site = some directive →
        isDirective (Handler.markers composer.handlers) directive = false) →
      (composer'.store.content.node? path).map Value.head =
        (composer.store.content.node? path).map Value.head) ∧
    ∀ path, (∀ top, start.path? = some top → ¬ top <+: path ∧ ¬ path <+: top) →
      composer'.store.content.node? path = composer.store.content.node? path := by
  obtain ⟨q, hran, rfl⟩ := exists_ran_of_composeAt h
  have huntouched : Untouched (Handler.markers composer.handlers) composer.store.content
      (startWorklist start) q.document.content :=
    hran.untouched (workshop_tidy htidy setting)
      (fun top htop => ⟨top, htop, List.prefix_refl top⟩)
      ⟨⟨hsound, hmemory⟩, .refl _ _ _, fun _ h => absurd h List.not_mem_nil⟩
  refine ⟨fun path hnot => huntouched.head path ?_, fun path hnot => huntouched.beside path ?_⟩
  · rintro ⟨site, directive, ⟨top, htop, hsite⟩, hpath, hn, hdirective⟩
    rw [hnot top (mem_startWorklist_iff.mp htop) site directive hsite hpath hn] at hdirective
    exact absurd hdirective (by simp)
  · exact fun top htop => hnot top (mem_startWorklist_iff.mp htop)

/-- A part of a document with two directives, the second of which cannot be composed. -/
def halfway : Value :=
  .map [("part", .map [("first", .map [("!ref", .text "/c")]), ("second", .map [("!ref", .null)]),
      ("kept", .list [.bool true])]),
    ("other", .map [("!ref", .text "/c")]), ("c", .text "x")]

/-- A composer of the document, with the standard handlers. -/
def halfwayComposer : Composer (Memory Unit) :=
  .standard (Generators.standard fun _ => (0, ())) () { backend := .direct } halfway

/-- Composing the part has written to it by the time it fails, and the rest is as it was. -/
theorem composeAt_halfway_untouched :
    (∀ handler ∈ halfwayComposer.handlers, handler.Tidy Memory.WellFormed) ∧
      halfwayComposer.store.Sound ∧ halfwayComposer.memory.WellFormed ∧
      ∃ result composer, halfwayComposer.composeAt bareSetting (.plain ["part"]) =
          some (result, composer) ∧ result ≠ .ok () ∧
        composer.store.content.node? ["part", "first"] = some (.text "x") ∧
        (composer.store.content.node? ["part", "kept"]).map Value.head =
          some (.list 1 []) ∧
        composer.store.content.node? ["other"] = halfway.node? ["other"] := by
  have htidy : ∀ handler ∈ halfwayComposer.handlers, handler.Tidy Memory.WellFormed :=
    Handler.tidy_of_mem_standard (Generators.tidy_standard _)
  have hsound : halfwayComposer.store.Sound := by
    refine Store.sound_wrap ?_ .direct
    simp [halfway, Value.wellFormed_map_iff, Value.wellFormed_list_iff, Entries.Distinct,
      Entries.keys]
  have hmemory : halfwayComposer.memory.WellFormed := Memory.wellFormed_start ()
  obtain ⟨fault, q, hround, hfirst⟩ : ∃ fault q,
      round (halfwayComposer.workshop bareSetting) [["part"]] halfwayComposer.progress =
        some (.ended (.error fault) q) ∧
      q.document.content.node? ["part", "first"] = some (.text "x") := ⟨_, _, rfl, rfl⟩
  have hcompose : halfwayComposer.composeAt bareSetting (.plain ["part"]) =
      some (.error fault, halfwayComposer.resume q) :=
    composeAt_of_ran (.ended hround)
  obtain ⟨hhead, hbeside⟩ := composeAt_untouched htidy hsound hmemory hcompose
  refine ⟨htidy, hsound, hmemory, _, _, hcompose, by simp, hfirst, ?_, ?_⟩
  · refine hhead ["part", "kept"] fun top htop site directive hsite hpath hn => ?_
    obtain rfl := Option.some.inj htop
    obtain ⟨below, rfl⟩ := hsite
    obtain rfl | rfl : below = [] ∨ below = ["kept"] := by
      simpa [List.prefix_cons_iff] using hpath
    · obtain rfl := Option.some.inj hn
      decide
    · obtain rfl := Option.some.inj hn
      decide
  · refine hbeside ["other"] fun top htop => ?_
    obtain rfl := Option.some.inj htop
    decide

end Composer

end Docweave
