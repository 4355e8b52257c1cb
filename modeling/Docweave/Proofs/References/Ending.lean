import Docweave.Proofs.Composing.Placing
import Docweave.Proofs.Composing.Stalling
import Docweave.Proofs.References.Growing
import Docweave.Proofs.References.Settling

/-!
Composing a document with references only ends.

A reference on a circle never waits: it is answered with a copy, which leaves a shorter circle, or
with a fault.  As a pass comes by every reference that is at or below its worklist, the circles of a
document get shorter with every pass, and before there is none left there is a fault
(`isSome_of_circles`).  And as long as there are no circles, copies cannot be made for ever
(`wellFounded_grows`), so from some pass on nothing is written (`isSome_of_referring`).

The references that are not at or below the worklist matter.  If one of them is on a circle, nothing
ever makes that shorter, and what is composed can grow by it without end.  With the whole document
there are none, so composing it ends with what it comes to, or with a fault if it comes to nothing
(`Composer.compose_comes_or_fails`).
-/

namespace Docweave

open Relation

namespace Composing

variable {σ : Type} {generators : Generators σ} {matchers : Matchers} {access : FileAccess}
  {workshop : Workshop (Memory σ)} {p q : Progress (Memory σ)} {path l : Path} {b : Bool} {n : Nat}
  {worklist next : List Path}

section

variable (hhandlers : workshop.handlers = Handler.standard generators matchers access)

include hhandlers

/-! ### Handing over -/

/-- A reference on a circle does not wait. -/
theorem not_stuck_of_circles (hp : Referring (Handler.markers workshop.handlers) p)
    (h : p.document.content.Circles n path) : ¬ Stuck workshop p.document path := by
  have hmarker := referenceMarker_mem hhandlers
  rintro ⟨raw, hn, hretry⟩
  obtain ⟨t, u, hat, hbrings, hback⟩ := h
  simp only [Directive.composeReference, hat.target_eq hn, bind, Except.bind] at hretry
  split at hretry
  · exact absurd hretry (by simp)
  rename_i found hfollow
  obtain ⟨last, hleads, rfl⟩ := (Directive.follow_eq_ok_iff hp.sound hmarker).mp hfollow
  obtain ⟨m, -, r, s, ⟨raw', hahead, -⟩, -⟩ :=
    hleads.exists_ahead hmarker hp.refsOnly hbrings hback
  obtain ⟨v, hv⟩ := Option.isSome_iff_exists.mp
    (Value.node?_isSome_of_prefix (List.prefix_append last r) (Option.isSome_of_eq_some hahead))
  have hplain : isDirective (Handler.markers workshop.handlers) v = false := by
    by_contra hd
    obtain ⟨raw, rfl, -⟩ := (hp.refsOnly.of_node? hv).reference_of_directive
      (Bool.of_not_eq_false hd)
    exact absurd (hleads.stops_at hv) (by simp [Entries.contains, Entries.find?_cons])
  rw [Directive.Target.ofNode?_eq_found_iff.mpr ⟨hv, hplain⟩] at hretry
  exact absurd hretry (by simp)

/-- **Handing over a reference on a circle leaves a shorter one, and any other leaves a circle as it
is, or a shorter one.** -/
theorem circles_of_invoked (hroot : path ≠ [])
    (hp : Referring (Handler.markers workshop.handlers) p) (h : Invoked workshop path p b q) :
    (p.document.content.CirclesBelow n → q.document.content.CirclesBelow n) ∧
    (p.document.content.Circles n l →
      l ≠ path ∧ q.document.content.Circles n l ∨ q.document.content.CirclesBelow n) := by
  have hmarker := referenceMarker_mem hhandlers
  obtain ⟨-, rfl, hnone⟩ | ⟨-, -, ⟨rfl, hstuck⟩ |
      ⟨-, target, last, x, hk, hchain, hlast, hcontent⟩⟩ := invoked_chain hhandlers hroot hp h
  · refine ⟨id, fun hcircle => .inl ⟨?_, hcircle⟩⟩
    rintro rfl
    obtain ⟨t, u, ⟨raw, hn, -⟩, -⟩ := hcircle
    have hfind := hnone _ ((Store.get_plain_eq_ok_iff hp.sound).mpr hn)
    rw [hhandlers, Handler.find?_standard_reference] at hfind
    exact absurd hfind (by simp)
  · refine ⟨id, fun hcircle => .inl ⟨?_, hcircle⟩⟩
    rintro rfl
    exact not_stuck_of_circles hhandlers hp hcircle hstuck
  · have hc := hchain.copying hmarker hp.refsOnly hk hlast
    rw [hcontent]
    exact ⟨hc.circlesBelow hmarker hk hchain, hc.circles hmarker hk hchain⟩

/-! ### Passes over a circle -/

/-- What happens elsewhere leaves a circle as it is, or a shorter one. -/
theorem frame_circles (n : Nat) : Frame workshop fun path p q =>
    Referring (Handler.markers workshop.handlers) p →
      Referring (Handler.markers workshop.handlers) q ∧
      (p.document.content.CirclesBelow n → q.document.content.CirclesBelow n) ∧
      ∀ l, ¬ path <+: l → p.document.content.Circles n l →
        q.document.content.Circles n l ∨ q.document.content.CirclesBelow n where
  refl _ _ hp := ⟨hp, id, fun _ _ hcircle => .inl hcircle⟩
  trans hpq hqr hp :=
    have ⟨hq, hbelow, hcircles⟩ := hpq hp
    have ⟨hr, hbelow', hcircles'⟩ := hqr hq
    ⟨hr, hbelow' ∘ hbelow, fun l hbeside hcircle =>
      (hcircles l hbeside hcircle).elim (hcircles' l hbeside) (.inr ∘ hbelow')⟩
  widen h hp :=
    have ⟨hq, hbelow, hcircles⟩ := h hp
    ⟨hq, hbelow, fun l hbeside => hcircles l fun hfront =>
      hbeside (Path.prefix_of_child_prefix hfront)⟩
  noting _ _ hp :=
    ⟨(kept_of_standard hhandlers).noting hp, id, fun _ _ hcircle => .inl hcircle⟩
  invoked hroot h hp :=
    ⟨(kept_of_standard hhandlers).invoked hroot hp h,
      (circles_of_invoked (l := []) hhandlers hroot hp h).1, fun _ _ hcircle =>
      ((circles_of_invoked hhandlers hroot hp h).2 hcircle).imp_left And.right⟩

/-- If looking through an entry with a reference of a circle in it leaves a shorter one, so does
looking through all entries. -/
theorem scanFields_shortens {es : List (String × Value)}
    (hscan : ∀ e ∈ es, ∀ path p b q, scan workshop.handover path e.2 p = some (.ok b, q) →
      Referring (Handler.markers workshop.handlers) p →
      p.document.content.node? path = some e.2 → path <+: l → p.document.content.Circles n l →
      q.document.content.CirclesBelow n)
    (hdistinct : Entries.Distinct es) (h : scanFields workshop path es p = some (.ok b, q))
    (hp : Referring (Handler.markers workshop.handlers) p)
    (hes : ∀ e ∈ es, p.document.content.node? (path.child e.1) = some e.2)
    {e : String × Value} (he : e ∈ es) (hfront : path.child e.1 <+: l)
    (hcircle : p.document.content.Circles n l) : q.document.content.CirclesBelow n := by
  have hframe := frame_circles hhandlers n
  induction es generalizing p b with
  | nil => exact absurd he List.not_mem_nil
  | cons f es ih =>
      obtain ⟨here, there, r, hhere, hthere, -⟩ := scanFields_cons_eq_ok.mp h
      obtain ⟨hscanf, hscanes⟩ := List.forall_mem_cons.mp hscan
      obtain ⟨hf, -⟩ := List.forall_mem_cons.mp hes
      obtain ⟨hr, -, hbeside⟩ := hframe.scan _ _ _ _ _ hhere hp
      have hrest := (hframe.scanFields hthere hr).2.1
      by_cases hhead : path.child f.1 <+: l
      · exact hrest (hscanf _ _ _ _ hhere hp hf hhead hcircle)
      · have hmem : e ∈ es := (List.mem_cons.mp he).resolve_left fun heq =>
          hhead (heq ▸ hfront)
        obtain hcircle | hbelow := hbeside l hhead hcircle
        · obtain ⟨-, hmoved⟩ := (kept_of_standard hhandlers).scan hhere hp
          exact ih hscanes hdistinct.of_cons hthere hr (hmoved.others hdistinct hes) hmem hcircle
        · exact hrest hbelow

/-- **Looking through a node with a reference of a circle in it leaves a shorter circle.** -/
theorem scan_shortens (v : Value) : ∀ path p b q,
    scan workshop.handover path v p = some (.ok b, q) →
    Referring (Handler.markers workshop.handlers) p →
    p.document.content.node? path = some v → path <+: l → p.document.content.Circles n l →
    q.document.content.CirclesBelow n := by
  have hmarker := referenceMarker_mem hhandlers
  induction v using Value.entries_induction with
  | node v ih =>
      intro path p b q h hp hn hfront hcircle
      have hdone : path ∉ p.completed := by rw [hp.completed]; exact List.not_mem_nil
      have hwell : v.WellFormed := hp.sound.wellFormed.of_node? hn
      obtain ⟨t, u, ⟨raw, hl, -⟩, -⟩ := id hcircle
      by_cases hat : path = l
      · subst hat
        obtain rfl := Option.some.inj (hn.symm.trans hl)
        have hdirective := isDirective_reference hmarker raw
        have hroot : path ≠ [] := by
          rintro rfl
          rw [scan_eq, if_neg hdone, if_pos hdirective, if_pos rfl] at h
          exact absurd h (by simp)
        rw [scan_of_bare hwell hdone hdirective hroot fun below d hbelow hd =>
          isDirective_eq_false_of_isContainer ((hp.refsOnly.of_node? hn).eq_of_below
            (Value.node?_nil _) hdirective hbelow hd).2] at h
        exact ((circles_of_invoked hhandlers hroot hp (.of_invoke h)).2 hcircle).resolve_left
          fun hsame => hsame.1 rfl
      · have hplain : isDirective (Handler.markers workshop.handlers) v = false := by
          by_contra hd
          exact hat (hp.refsOnly.eq_of_prefix hfront hn (Bool.of_not_eq_false hd) hl rfl)
        rw [scan_of_plain hdone hplain] at h
        obtain ⟨r, rfl⟩ := hfront
        cases r with
        | nil => exact absurd (List.append_nil path).symm hat
        | cons token r =>
            rw [Value.node?_append, hn, Option.bind_some, Value.node?_cons] at hl
            obtain ⟨c, hc, -⟩ := Option.bind_eq_some_iff.mp hl
            refine scanFields_shortens hhandlers ih hwell.distinct_entries h hp
              (fun e he => Value.node?_child_of_mem_entries hn hwell he)
              (Value.mem_entries_of_child? hc) ?_ hcircle
            rw [List.append_cons]
            exact List.prefix_append _ r

/-- **A pass that comes by a reference of a circle leaves a shorter circle.** -/
theorem Passed.shortens (h : Passed workshop worklist p q)
    (hp : Referring (Handler.markers workshop.handlers) p) (hworklist : ∃ w ∈ worklist, w <+: l)
    (hcircle : p.document.content.Circles n l) : q.document.content.CirclesBelow n := by
  have hframe := frame_circles hhandlers n
  induction h with
  | nil =>
      obtain ⟨w, hw, -⟩ := hworklist
      exact absurd hw List.not_mem_nil
  | @gone path rest p q hgone hrest ih =>
      obtain ⟨w, hw, hfront⟩ := hworklist
      refine ih hp ⟨w, (List.mem_cons.mp hw).resolve_left fun heq => ?_, hfront⟩ hcircle
      -- Above a reference no node is gone.
      obtain ⟨t, u, ⟨raw, hl, -⟩, -⟩ := hcircle
      have hsome := Value.node?_isSome_of_prefix hfront (Option.isSome_of_eq_some hl)
      rw [Store.has_plain hp.sound, ← heq, hsome] at hgone
      exact absurd hgone (by simp)
  | @scanned path rest p q r v b hget hscan hrest ih =>
      have hn := (Store.get_plain_eq_ok_iff hp.sound).mp hget
      obtain ⟨hq, -, hbeside⟩ := hframe.scan _ _ _ _ _ hscan hp
      have hkeeps := (hframe.passed hrest hq).2.1
      by_cases hhead : path <+: l
      · exact hkeeps (scan_shortens hhandlers v _ _ _ _ hscan hp hn hhead hcircle)
      · obtain ⟨w, hw, hfront⟩ := hworklist
        have hmem : w ∈ rest := (List.mem_cons.mp hw).resolve_left fun heq => hhead (heq ▸ hfront)
        obtain hcircle | hbelow := hbeside l hhead hcircle
        · exact ih hq ⟨w, hmem, hfront⟩ hcircle
        · exact hkeeps hbelow

/-! ### Passes one after the other -/

/-- No reference is composed as a document of its own, so every pass ends. -/
theorem rounds_ne_none (hp : Referring (Handler.markers workshop.handlers) p) (n : Nat) :
    rounds workshop worklist p n ≠ none := by
  intro hnone
  obtain ⟨site, s, hmeets, hinvoke⟩ := exists_meets_of_none hnone
  have hs := hmeets.carried (kept_of_standard hhandlers).carried hp
  obtain ⟨directive, handler, v, memory, hget, hfind, hanswer, -⟩ :=
    exists_separate_of_none hinvoke
  obtain ⟨rfl, raw, rfl, -⟩ := reference_of_find hhandlers hs
    ((Store.get_plain_eq_ok_iff hs.sound).mp hget) hfind
  obtain ⟨houtcome, -⟩ := Prod.mk.inj hanswer
  obtain hretry | ⟨w, -, hsuccess⟩ :=
    answer_of_composeReference hs.sound (referenceMarker_mem hhandlers) houtcome
  · exact absurd hretry (by simp)
  · exact absurd hsuccess (by simp)

/-- The next worklist covers every reference again, and the document goes on by copies. -/
theorem goesOn_of_round (hp : Referring (Handler.markers workshop.handlers) p)
    (hcovered : CoveredFrom workshop [] (· ∈ worklist) p)
    (h : round workshop worklist p = some (.next next q)) :
    Referring (Handler.markers workshop.handlers) q ∧
      CoveredFrom workshop [] (· ∈ next) q ∧
      GoesOn (Handler.markers workshop.handlers) p.fresh q := by
  have htaking : Handler.Taking workshop.handlers :=
    Handler.taking_of_matchesMarkers (hhandlers ▸ Handler.matchesMarkers_standard)
  have hfresh := (kept_of_standard hhandlers).fresh hp
  obtain ⟨hpass, rfl, -⟩ := round_eq_next h
  obtain ⟨hq, hgoes⟩ := (frame_of_standard hhandlers).passed hpass hfresh
  have hcovers : CoveredFrom workshop [] (· ∈ q.revisit) q :=
    hpass.covers (kept_of_standard hhandlers) htaking hfresh (fun _ _ => List.nil_prefix)
      hcovered.fresh
  exact ⟨hq, hcovers.next fun _ _ => List.nil_prefix, hgoes⟩

theorem goesOn_of_rounds (hp : Referring (Handler.markers workshop.handlers) p)
    (hcovered : CoveredFrom workshop [] (· ∈ worklist) p) {n : Nat}
    (h : rounds workshop worklist p n = some (.next next q)) :
    Referring (Handler.markers workshop.handlers) q ∧
      CoveredFrom workshop [] (· ∈ next) q ∧
      ReflTransGen (Copied (Handler.markers workshop.handlers)) p.document.content
        q.document.content := by
  induction n generalizing next q with
  | zero =>
      obtain ⟨rfl, rfl⟩ := Round.next.inj (Option.some.inj h)
      exact ⟨hp, hcovered, .refl⟩
  | succ n ih =>
      rw [rounds] at h
      split at h
      · rename_i worklist' p' hbefore
        obtain ⟨hp', hcovered', hcopies⟩ := ih hbefore
        obtain ⟨hq, hcovers, hgoes⟩ := goesOn_of_round hhandlers hp' hcovered' h
        exact ⟨hq, hcovers, hcopies.trans hgoes.copies⟩
      · rename_i hother
        exact absurd h (hother next q)

/-- **Where a reference brings itself back composing ends**, as every pass leaves a shorter
circle. -/
theorem isSome_of_circles (hp : Referring (Handler.markers workshop.handlers) p)
    (hcovered : CoveredFrom workshop [] (· ∈ worklist) p) (h : p.document.content.Circles n l) :
    (passes workshop worklist p).isSome = true := by
  induction n using Nat.strong_induction_on generalizing worklist p l with
  | _ n ih =>
      rcases hround : round workshop worklist p with _ | ⟨result, q⟩ | ⟨next, q⟩
      · exact absurd (rounds_one.trans hround) (rounds_ne_none hhandlers hp 1)
      · exact Option.isSome_of_eq_some (passes_eq_some_iff.mpr (.ended hround))
      · obtain ⟨hq, hcovers, -⟩ := goesOn_of_round hhandlers hp hcovered hround
        have hworklist : ∃ w ∈ worklist, w <+: l := by
          obtain ⟨t, u, ⟨raw, hl, -⟩, -⟩ := id h
          obtain ⟨w, hw, -, hfront⟩ := (hcovered _ (Value.node?_nil _)).exists_above hl
            (isDirective_reference (referenceMarker_mem hhandlers) raw)
          rw [hp.completed] at hw
          exact ⟨w, hw.resolve_left List.not_mem_nil, hfront⟩
        obtain ⟨m, hlt, l', hcircle⟩ := (round_eq_next hround).1.shortens hhandlers
          ((kept_of_standard hhandlers).fresh hp) hworklist h
        exact passes_isSome_of_rounds (rounds_one.trans hround) (ih m hlt hq hcovers hcircle)

/-- **Composing a document with references only ends**, if all of them are at or below the
worklist. -/
theorem isSome_of_referring (hp : Referring (Handler.markers workshop.handlers) p)
    (hcovered : CoveredFrom workshop [] (· ∈ worklist) p) :
    (passes workshop worklist p).isSome = true := by
  have hmarker := referenceMarker_mem hhandlers
  induction hcontent : p.document.content using (wellFounded_grows hmarker).transGen.induction
    generalizing worklist p with
  | _ D ih =>
      refine passes_isSome_of_writes (kept_of_standard hhandlers) hp (rounds_ne_none hhandlers hp)
        fun n next q hround hchanged => ?_
      rw [rounds] at hround
      split at hround
      · rename_i worklist' p' hbefore
        obtain ⟨hp', hcovered', hcopies⟩ := goesOn_of_rounds hhandlers hp hcovered hbefore
        obtain ⟨hq, hcovers, ⟨-, hunchanged⟩ | ⟨-, hcopies'⟩⟩ :=
          goesOn_of_round hhandlers hp' hcovered' hround
        · exact absurd (hchanged.symm.trans hunchanged) (by simp [Progress.fresh])
        by_cases hfree : q.document.content.CircleFree
        · have hgrown := transGen_grows hmarker (hcopies'.trans_right hcopies) hfree
          exact ih _ (hcontent ▸ hgrown) hq hcovers rfl
        · unfold Value.CircleFree at hfree
          push Not at hfree
          obtain ⟨m, l, hcircle⟩ := hfree
          exact isSome_of_circles hhandlers hq hcovers hcircle
      · rename_i hother
        exact absurd hround (hother next q)

end

end Composing

namespace Composer

open Composing

variable {σ : Type} {generators : Generators σ} {world : σ} {options : ComposeOptions}
  {setting : Setting} {content : Value} {start : Pointer}

/-- If no reference is outside of the node that is composed, the first worklist covers them all. -/
theorem coveredFrom_start (hrefs : RefsOnly standardMarkers content)
    (hinside : ∀ path raw, content.node? path = some (.reference raw) →
      ∃ top, start.path? = some top ∧ top <+: path) :
    CoveredFrom ((Composer.standard generators world options content).workshop setting) []
      (· ∈ startWorklist start) (Composer.standard generators world options content).progress := by
  refine fun v hv => .of_above fun path d hn hd => ?_
  -- A directive of the document is a reference, so it is inside.
  rw [content_standard, Value.node?_nil, Option.some.injEq] at hv
  subst hv
  obtain ⟨raw, rfl, -⟩ := (hrefs.of_node? hn).reference_of_directive hd
  obtain ⟨top, htop, hfront⟩ := hinside path raw hn
  exact ⟨top, mem_startWorklist_iff.mpr htop, List.nil_prefix, hfront⟩

/-- **Composing with references only ends, if none of them is outside of the node that is
composed**, however they lead back to one another. -/
theorem composeAt_isSome_of_refsOnly (hwell : content.WellFormed)
    (hrefs : RefsOnly standardMarkers content)
    (hinside : ∀ path raw, content.node? path = some (.reference raw) →
      ∃ top, start.path? = some top ∧ top <+: path) :
    ((Composer.standard generators world options content).composeAt setting start).isSome =
      true := by
  rw [composeAt, Option.isSome_map]
  exact isSome_of_referring handlers_standard (referring_standard hwell hrefs)
    (coveredFrom_start hrefs hinside)

/-- Two nodes, each with a reference to the other in it, beside a node without references. -/
def roundabout : Value :=
  .map [("c", .map [("a", .map [("x", .reference "/c/b")]),
    ("b", .map [("y", .reference "/c/a")])]), ("d", .text "z")]

theorem wellFormed_roundabout : roundabout.WellFormed := by
  simp [roundabout, Value.reference, Value.wellFormed_map_iff, Entries.Distinct, Entries.keys]

theorem refsOnly_roundabout : RefsOnly standardMarkers roundabout := by
  have hx : RefsOnly standardMarkers (.reference "/c/b") := .reference rfl (by decide)
  have hy : RefsOnly standardMarkers (.reference "/c/a") := .reference rfl (by decide)
  have ha : RefsOnly standardMarkers (.map [("x", .reference "/c/b")]) :=
    .node (fun h => absurd h (by decide)) (by simpa [Value.entries] using hx)
  have hb : RefsOnly standardMarkers (.map [("y", .reference "/c/a")]) :=
    .node (fun h => absurd h (by decide)) (by simpa [Value.entries] using hy)
  have hd : RefsOnly standardMarkers (.text "z") := .scalar rfl
  refine .node (fun h => absurd h (by decide)) ?_
  simp only [roundabout, Value.entries, List.forall_mem_cons, List.not_mem_nil,
    IsEmpty.forall_iff, implies_true, and_true]
  refine ⟨.node (fun h => absurd h (by decide)) ?_, hd⟩
  simpa [Value.entries] using ⟨ha, hb⟩

/-- Composing the node that the references are in ends, though each brings the other back. -/
theorem composeAt_roundabout_isSome :
    roundabout.WellFormed ∧ RefsOnly standardMarkers roundabout ∧
      (∀ path raw, roundabout.node? path = some (.reference raw) →
        ∃ top, (Pointer.plain ["c"]).path? = some top ∧ top <+: path) ∧
      ((Composer.standard .empty () { backend := .direct } roundabout).composeAt bareSetting
        (.plain ["c"])).isSome = true := by
  have hinside : ∀ path raw, roundabout.node? path = some (.reference raw) →
      ∃ top, (Pointer.plain ["c"]).path? = some top ∧ top <+: path := by
    intro path raw hn
    refine ⟨["c"], rfl, ?_⟩
    cases path with
    | nil => exact absurd hn (by simp [roundabout, Value.reference])
    | cons token r =>
        by_cases hc : token = "c"
        · exact ⟨r, by rw [hc]; rfl⟩
        · -- Beside the first entry there is a text.
          by_cases hd : token = "d" <;> cases r <;>
            simp [roundabout, Value.node?_cons, Value.child?, Entries.find?_cons, Value.reference,
              hc, hd, eq_comm] at hn
  exact ⟨wellFormed_roundabout, refsOnly_roundabout, hinside,
    composeAt_isSome_of_refsOnly wellFormed_roundabout refsOnly_roundabout hinside⟩

/-- **A document with references only is composed to what it comes to, and if it comes to nothing
there is a fault.** -/
theorem compose_comes_or_fails (hwell : content.WellFormed)
    (hrefs : RefsOnly standardMarkers content) :
    (∃ composer, (Composer.standard generators world options content).compose setting =
        some (.ok (), composer) ∧ Comes standardMarkers content [] composer.store.content) ∨
    (∃ fault composer, (Composer.standard generators world options content).compose setting =
        some (.error fault, composer)) ∧ ∀ F, ¬ Comes standardMarkers content [] F := by
  have hends : (passes ((Composer.standard generators world options content).workshop setting)
      (startWorklist .root)
      (Composer.standard generators world options content).progress).isSome = true :=
    isSome_of_referring handlers_standard (referring_standard hwell hrefs)
      (coveredFrom_start hrefs fun path raw _ => ⟨[], rfl, List.nil_prefix⟩)
  obtain ⟨⟨result, q⟩, hpasses⟩ := Option.isSome_iff_exists.mp hends
  have hcompose : (Composer.standard generators world options content).compose setting =
      some (result, (Composer.standard generators world options content).resume q) :=
    Option.map_eq_some_iff.mpr ⟨_, hpasses, rfl⟩
  cases result with
  | ok done =>
      exact .inl ⟨_, hcompose, (compose_iff_comes hwell hrefs).mp ⟨_, hcompose, rfl⟩⟩
  | error fault =>
      refine .inr ⟨⟨fault, _, hcompose⟩, fun F hcomes => ?_⟩
      obtain ⟨composer', hcompose', -⟩ := (compose_iff_comes hwell hrefs).mpr hcomes
      exact absurd (hcompose.symm.trans hcompose') (by simp)

/-- Each of the two nodes needs the other, so the document comes to nothing and there is a fault. -/
theorem compose_roundabout_fails :
    roundabout.WellFormed ∧ RefsOnly standardMarkers roundabout ∧
      ∃ fault composer, (Composer.standard .empty () { backend := .direct } roundabout).compose
        bareSetting = some (.error fault, composer) := by
  have hrefs := refsOnly_roundabout
  have hmarker : Directive.referenceMarker ∈ standardMarkers := List.mem_cons_self
  have hx : roundabout.PointsTo ["c", "a", "x"] ["c", "b"] := ⟨"/c/b", rfl, rfl⟩
  have hy : roundabout.PointsTo ["c", "b", "y"] ["c", "a"] := ⟨"/c/a", rfl, rfl⟩
  have ha : Needs standardMarkers roundabout ["c", "a"] ["c", "a", "x"] :=
    .child (by decide) rfl rfl rfl
  have hb : Needs standardMarkers roundabout ["c", "b"] ["c", "b", "y"] :=
    .child (by decide) rfl rfl rfl
  have hround : TransGen (Needs standardMarkers roundabout) ["c", "a"] ["c", "a"] :=
    .tail (.tail (.tail (.single ha) (.target hx)) hb) (.target hy)
  rcases @compose_comes_or_fails Unit .empty () { backend := .direct } bareSetting _
    wellFormed_roundabout hrefs with ⟨composer, -, hcomes⟩ | ⟨hfails, -⟩
  · obtain ⟨u, hu⟩ := hcomes.exists_of_container hmarker hrefs (p := ["c", "a"]) rfl rfl
    exact absurd hround (hu.not_needs_self hmarker hrefs)
  · exact ⟨wellFormed_roundabout, hrefs, hfails⟩

end Composer

end Docweave
