import Docweave.Proofs.Composing.Completeness
import Docweave.Proofs.Composing.Meeting

/-!
What is left inside a directive when it is handed over.

A directive is handed to its handler once everything inside it has been looked through and nothing
there is to be looked through again (`Readied`).  What has been looked through like that is covered
by the nodes that hold their value for good, so the directives a handler still finds inside its own
are those in such nodes, content that was included as it is for one
(`Composer.exists_completed_inside`).

That is said of every moment at which a run comes to hand something over, be it in the document or
in one that is composed on its own, and whether the run ends, ends in a fault or goes on for ever.
-/

namespace Docweave

namespace Composing

variable {μ : Type} {workshop : Workshop μ} {Inv : Progress μ → Prop} {p q s : Progress μ}
  {path site : Path} {worklist : List Path}

/-- What is at a site has just been looked through, and nothing in it is to be looked through
again. -/
inductive Readied (workshop : Workshop μ) (Inv : Progress μ → Prop) (site : Path)
    (s : Progress μ) : Prop
  | intro {v : Value} {p : Progress μ} (hp : Inv p) (hn : p.document.content.node? site = some v)
      (hscan : scanFields workshop site v.entries p = some (.ok false, s))

theorem Readied.inv (hK : Kept workshop Inv) (h : Readied workshop Inv site s) : Inv s := by
  obtain ⟨hp, -, hscan⟩ := h
  exact (hK.scanFields hscan hp).1

/-- What was looked through is covered by what holds its value for good. -/
theorem Readied.covered (hK : Kept workshop Inv) (htaking : Handler.Taking workshop.handlers)
    (h : Readied workshop Inv site s) {v : Value}
    (hn : s.document.content.node? site = some v) {token : String} {c : Value}
    (hc : v.child? token = some c) :
    Covered (Handler.markers workshop.handlers) (· ∈ s.completed) (fun _ => False)
      (site.child token) c := by
  obtain ⟨hp, hn', hscan⟩ := h
  obtain ⟨w, hw, -, hchildren⟩ := scanFields_covers hK htaking hscan hp hn'
  obtain rfl := Option.some.inj (hn.symm.trans hw)
  refine (hchildren token c hc).mono (fun _ _ hdone => hdone) ?_
  exact fun _ _ hagain => absurd hagain.1 Bool.false_ne_true

/-! ### Everything that is met is readied -/

theorem MeetsEntries.readied_of_node (hK : Kept workshop Inv) {es : List (String × Value)}
    (hnode : ∀ e ∈ es, ∀ path p, MeetsNode workshop site s path e.2 p → Inv p →
      p.document.content.node? path = some e.2 → Readied workshop Inv site s)
    (hdistinct : Entries.Distinct es) (h : MeetsEntries workshop site s path es p) (hp : Inv p)
    (hes : ∀ e ∈ es, p.document.content.node? (path.child e.1) = some e.2) :
    Readied workshop Inv site s := by
  induction es generalizing p with
  | nil => cases h
  | cons e es ih =>
      cases h with
      | first h => exact hnode e List.mem_cons_self _ _ h hp (hes e List.mem_cons_self)
      | later hscan h =>
          obtain ⟨hq, hmoved⟩ := hK.scan hscan hp
          exact ih (fun e he => hnode e (List.mem_cons_of_mem _ he)) hdistinct.of_cons h hq
            (hmoved.others hdistinct hes)

theorem MeetsNode.readied (hK : Kept workshop Inv) (v : Value) : ∀ path p,
    MeetsNode workshop site s path v p → Inv p → p.document.content.node? path = some v →
      Readied workshop Inv site s := by
  induction v using Value.entries_induction with
  | node v ih =>
      intro path p h hp hn
      cases h with
      | here hdone hdirective hroot hscan => exact ⟨hp, hn, hscan⟩
      | inside hdone hroot h =>
          -- The snapshot is what the document holds, and stays so entry by entry.
          have hwell : v.WellFormed := (hK.sound hp).wellFormed.of_node? hn
          exact h.readied_of_node hK ih hwell.distinct_entries hp
            fun e he => Value.node?_child_of_mem_entries hn hwell he

theorem MeetsPass.readied (hK : Kept workshop Inv) (h : MeetsPass workshop site s worklist p)
    (hp : Inv p) : Readied workshop Inv site s := by
  induction h with
  | first hhas hget h =>
      exact h.readied hK _ _ _ hp ((Store.get_plain_eq_ok_iff (hK.sound hp)).mp hget)
  | gone hgone h ih => exact ih hp
  | later hhas hget hscan h ih => exact ih (hK.scan hscan hp).1

/-- **Whatever is handed over was looked through before, and nothing in it is to be looked through
again.** -/
theorem Meets.readied (hK : Kept workshop Inv) (h : Meets workshop site s worklist p) (hp : Inv p) :
    Readied workshop Inv site s := by
  induction h with
  | now h => exact h.readied hK (hK.fresh hp)
  | next hround h ih => exact ih (hK.passed (round_eq_next hround).1 (hK.fresh hp))

/-! ### Documents of their own -/

namespace Run

variable {remembers : μ → Prop} {top run : Run μ}

theorem kept_workshop (htidy : ∀ handler ∈ run.handlers, handler.Tidy remembers) :
    Kept run.workshop (Proper remembers) :=
  kept_of_tidy (separately_tidy htidy run.setting run.maxDepth run.levels)

/-- Every document that is composed on its own is one. -/
theorem Nests.proper (h : Nests top run)
    (htidy : ∀ handler ∈ top.handlers, handler.Tidy remembers)
    (htop : Proper remembers top.progress) : Proper remembers run.progress := by
  induction h with
  | self => exact htop
  | @deeper run levels site s directive handler v memory h hlevels hmeets hanswer ih =>
      have htidy' : ∀ handler ∈ run.handlers, handler.Tidy remembers := h.handlers_eq ▸ htidy
      have hs : Proper remembers s := (hmeets.meets.readied (kept_workshop htidy') ih).inv
        (kept_workshop htidy')
      have hn := (Store.get_plain_eq_ok_iff hs.sound).mp hmeets.get
      obtain ⟨hv, hmemory⟩ := htidy' handler (List.mem_of_find?_eq_some hmeets.find)
        (hs.sound.wellFormed.of_node? hn) hs.sound hs.memory hanswer
      exact ⟨Store.sound_wrap hv _, hmemory⟩

end Run

end Composing

namespace Composer

open Composing

variable {μ : Type} {composer : Composer μ} {setting : Setting} {start : Pointer}

/-- **Whenever a handler is handed a directive, every directive strictly inside of it lies at or
below a node inside of it that holds its value for good.** -/
theorem exists_completed_inside {remembers : μ → Prop}
    (hmatches : Handler.MatchesMarkers composer.handlers)
    (htidy : ∀ handler ∈ composer.handlers, handler.Tidy remembers)
    (hsound : composer.store.Sound) (hmemory : remembers composer.memory) {run : Run μ}
    (hrun : (composer.run setting start).Nests run) {site : Path} {s : Progress μ}
    {directive : Fields} {handler : Handler μ} (hmeets : run.Meets site s directive handler)
    {rest : Path} {nested : Value} (hrest : rest ≠ [])
    (hn : (Value.map directive).node? rest = some nested)
    (hnested : isDirective (Handler.markers composer.handlers) nested = true) :
    ∃ done ∈ s.completed, site <+: done ∧ done ≠ site ∧ done <+: site ++ rest := by
  have hhandlers : run.handlers = composer.handlers := hrun.handlers_eq
  have hK : Kept run.workshop (Proper remembers) := Run.kept_workshop (hhandlers ▸ htidy)
  have hready : Readied run.workshop (Proper remembers) site s :=
    hmeets.meets.readied hK (hrun.proper htidy ⟨hsound, hmemory⟩)
  have hsite : s.document.content.node? site = some (.map directive) :=
    (Store.get_plain_eq_ok_iff (hready.inv hK).sound).mp hmeets.get
  cases rest with
  | nil => exact absurd rfl hrest
  | cons token rest =>
      rw [Value.node?_cons] at hn
      obtain ⟨c, hc, hn⟩ := Option.bind_eq_some_iff.mp hn
      have hmatches' : Handler.MatchesMarkers run.handlers := hhandlers ▸ hmatches
      have htaking : Handler.Taking run.workshop.handlers :=
        Handler.taking_of_matchesMarkers hmatches'
      have hcovered := hready.covered hK htaking hsite hc
      rw [show run.workshop.handlers = composer.handlers from hhandlers] at hcovered
      obtain ⟨done, hdone, hlow, hhigh⟩ := hcovered.of_directive hn hnested
      refine ⟨done, hdone, Path.prefix_of_child_prefix hlow, ?_, ?_⟩
      · rintro rfl
        have hlength := hlow.length_le
        simp [Path.child] at hlength
      · rwa [List.append_cons site token rest]

/-- A composer of a document with a directive inside another, which are both to stay as they are. -/
def shellComposer : Composer Unit :=
  .new (.wrap .direct (.map [("a", .map [("!content", .map [("!content", .null)])])]))
    [contentHandler] 0 ()

/-- When the outer directive is handed over, the inner one is known to hold its value for good. -/
theorem exists_completed_inside_shell :
    Handler.MatchesMarkers shellComposer.handlers ∧
      (∀ handler ∈ shellComposer.handlers, handler.Tidy fun _ => True) ∧
      shellComposer.store.Sound ∧
      ∃ s, (shellComposer.run bareSetting .root).Meets ["a"] s
          [("!content", .map [("!content", .null)])] contentHandler ∧
        ∃ done ∈ s.completed, ["a"] <+: done ∧ done ≠ ["a"] ∧ done <+: ["a", "!content"] := by
  have hsound : shellComposer.store.Sound := by
    refine Store.sound_wrap ?_ .direct
    simp [Value.wellFormed_map_iff, Entries.Distinct, Entries.keys]
  obtain ⟨s, hscan, hget⟩ : ∃ s : Progress Unit,
      scanFields (shellComposer.run bareSetting .root).workshop ["a"]
        (Value.map [("!content", .map [("!content", .null)])]).entries
        shellComposer.progress.fresh = some (.ok false, s) ∧
      s.document.get (.plain ["a"]) = .ok (.map [("!content", .map [("!content", .null)])]) :=
    ⟨_, rfl, rfl⟩
  have hnode : MeetsNode (shellComposer.run bareSetting .root).workshop ["a"] s ["a"]
      (.map [("!content", .map [("!content", .null)])]) shellComposer.progress.fresh :=
    .here List.not_mem_nil rfl (by simp) hscan
  have hmeets : (shellComposer.run bareSetting .root).Meets ["a"] s
      [("!content", .map [("!content", .null)])] contentHandler :=
    ⟨.now (.first rfl rfl (.inside List.not_mem_nil (by decide) (.first hnode))), hget, rfl⟩
  have hrest : ["!content"] ≠ [] := by simp
  exact ⟨matchesMarkers_contentHandler, tidy_contentHandler, hsound, s, hmeets,
    exists_completed_inside matchesMarkers_contentHandler tidy_contentHandler hsound trivial .self
      hmeets hrest rfl rfl⟩

end Composer

end Docweave
