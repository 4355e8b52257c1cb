import Docweave.Proofs.Composing.Lasting

/-!
What is learned on the way is still known at the end.

`Remembers.preserved` looks at properties of what is remembered that are the case from the
beginning.  Here they become the case in the middle of it: a handler answers, in the document or in
one that is composed on its own, and has learned something by then that no handler ever drops.  It
is still known when the run has ended around it, whether that is in a fault or not
(`Run.known_of_answer`), and as long as the composer is not told to forget
(`Composer.known_of_serve`).

The proof goes back along what the run has come by (`Meets`, `Nests`): if something is known after
handing over what is at a site then it is known after looking through the node around it, because
what follows keeps it.
-/

namespace Docweave

namespace Composing

variable {μ : Type} {Inv : μ → Prop} {workshop : Workshop μ} {path site : Path}
  {worklist : List Path} {p q s : Progress μ}

/-- Whatever handing over what is at a site comes to, what is remembered then has a property. -/
def KnownAfter (workshop : Workshop μ) (Inv : μ → Prop) (site : Path) (s : Progress μ) : Prop :=
  ∀ result q, invoke workshop site s = some (result, q) → Inv q.memory

namespace Run

variable {run inner : Run μ} {directive : Fields} {handler : Handler μ} {v : Value}
  (hhandlers : ∀ handler ∈ run.handlers, handler.Preserves run.setting Inv)

include hhandlers

/-! ### What follows keeps it -/

theorem memory_of_scan {result : Except Fault Bool}
    (h : scan run.workshop path v p = some (result, q)) (hp : Inv p.memory) : Inv q.memory :=
  (Together.scan (R := Diagonal Inv) likens_eq rfl v path p p.memory ⟨rfl, hp⟩
    fun site s _ => handedTogether_self hhandlers site s).of_diagonal h

theorem memory_of_scanFields {es : List (String × Value)} {result : Except Fault Bool}
    (h : scanFields run.workshop path es p = some (result, q)) (hp : Inv p.memory) :
    Inv q.memory := by
  induction es generalizing p result with
  | nil =>
      rw [scanFields] at h
      obtain ⟨-, rfl⟩ := Prod.mk.inj (Option.some.inj h)
      exact hp
  | cons e es ih =>
      obtain ⟨fault, hhere⟩ | ⟨here, r, rest, hhere, hrest⟩ := scanFields_cons_result h
      · exact memory_of_scan hhandlers hhere hp
      · exact ih hrest (memory_of_scan hhandlers hhere hp)

theorem memory_of_invoke {result : Except Fault Bool}
    (h : invoke run.workshop site s = some (result, q)) (hs : Inv s.memory) : Inv q.memory :=
  (handedTogether_self hhandlers site s s.memory ⟨rfl, hs⟩).of_diagonal h

theorem memory_of_ran {end_ : Except Fault Unit × Progress μ}
    (h : Ran run.workshop worklist p end_) (hp : Inv p.memory) : Inv end_.2.memory :=
  @memory_of_result _ _ { run with worklist, progress := p } _ _ hhandlers hp
    (passes_eq_some_iff.mpr h)

/-! ### From a site to the end -/

theorem known_of_meetsEntries {es : List (String × Value)}
    (hnode : ∀ e ∈ es, ∀ path p, MeetsNode run.workshop site s path e.2 p →
      ∀ result q, scan run.workshop path e.2 p = some (result, q) → Inv q.memory)
    (hmeets : MeetsEntries run.workshop site s path es p) {result : Except Fault Bool}
    (h : scanFields run.workshop path es p = some (result, q)) : Inv q.memory := by
  induction es generalizing p result with
  | nil => cases hmeets
  | cons e es ih =>
      obtain ⟨he, hes⟩ := List.forall_mem_cons.mp hnode
      obtain ⟨fault, hhere⟩ | ⟨here, r, rest, hhere, hrest⟩ := scanFields_cons_result h
      · cases hmeets with
        | first hmeets => exact he _ _ hmeets _ _ hhere
        | later hscan _ => exact absurd (hscan.symm.trans hhere) (by simp)
      · cases hmeets with
        | first hmeets => exact memory_of_scanFields hhandlers hrest (he _ _ hmeets _ _ hhere)
        | later hscan hmeets =>
            obtain ⟨-, rfl⟩ := Prod.mk.inj (Option.some.inj (hscan.symm.trans hhere))
            exact ih hes hmeets hrest

theorem known_of_meetsNode (hknown : KnownAfter run.workshop Inv site s) (v : Value) :
    ∀ path p, MeetsNode run.workshop site s path v p → ∀ result q,
      scan run.workshop path v p = some (result, q) → Inv q.memory := by
  induction v using Value.entries_induction with
  | node v ih =>
      intro path p hmeets result q h
      rw [scan_eq] at h
      cases hmeets with
      | inside hdone hroot hmeets =>
          have hentries : ∀ result q, scanFields run.workshop path v.entries p = some (result, q) →
              Inv q.memory := fun result q => known_of_meetsEntries hhandlers ih hmeets
          rw [if_neg hdone] at h
          split at h
          · rw [if_neg (hroot ‹_›)] at h
            obtain ⟨fault, hfields⟩ | ⟨inside, r, hfields, h⟩ := bind_eq_some h
            · exact hentries _ _ hfields
            have hr := hentries _ _ hfields
            rw [ite_apply] at h
            split at h
            · obtain ⟨-, rfl⟩ := Prod.mk.inj (Option.some.inj h)
              exact hr
            · exact memory_of_invoke hhandlers h hr
          · exact hentries _ _ h
      | here hdone hdirective hroot hscan =>
          rw [if_neg hdone, if_pos hdirective, if_neg hroot] at h
          obtain ⟨fault, hfields⟩ | ⟨inside, r, hfields, h⟩ := bind_eq_some h
          · exact absurd (hscan.symm.trans hfields) (by simp)
          obtain ⟨hinside, rfl⟩ := Prod.mk.inj (Option.some.inj (hscan.symm.trans hfields))
          obtain rfl := Except.ok.inj hinside
          exact hknown _ _ h

theorem known_of_meetsPass (hknown : KnownAfter run.workshop Inv site s)
    (hmeets : MeetsPass run.workshop site s worklist p) {result : Except Fault Unit}
    (h : pass run.workshop worklist p = some (result, q)) : Inv q.memory := by
  induction hmeets with
  | first hhas hget hmeets =>
      rw [pass_cons_of_get _ hhas hget] at h
      have hnode := known_of_meetsNode hhandlers hknown _ _ _ hmeets
      obtain ⟨fault, hscan⟩ | ⟨b, r, hscan, h⟩ := bind_eq_some h
      · exact hnode _ _ hscan
      · exact memory_of_pass hhandlers (hnode _ _ hscan) h
  | gone hgone hmeets ih =>
      rw [pass_cons_of_not_has _ hgone] at h
      exact ih h
  | later hhas hget hscan hmeets ih =>
      rw [pass_cons_of_get _ hhas hget] at h
      obtain ⟨fault, hfault⟩ | ⟨b, r, hscan', h⟩ := bind_eq_some h
      · exact absurd (hscan.symm.trans hfault) (by simp)
      · obtain ⟨-, rfl⟩ := Prod.mk.inj (Option.some.inj (hscan.symm.trans hscan'))
        exact ih h

/-- **What is known after handing over what is at a site is known when composing has ended.** -/
theorem known_of_meets (hknown : KnownAfter run.workshop Inv site s)
    (hmeets : Composing.Meets run.workshop site s worklist p)
    {end_ : Except Fault Unit × Progress μ} (h : Ran run.workshop worklist p end_) :
    Inv end_.2.memory := by
  induction hmeets with
  | now hmeets =>
      cases h with
      | ended hround =>
          obtain ⟨result, hpass⟩ := exists_pass_of_round_ended hround
          exact known_of_meetsPass hhandlers hknown hmeets hpass
      | next hround hrest =>
          exact memory_of_ran hhandlers hrest
            (known_of_meetsPass hhandlers hknown hmeets (pass_of_round_next hround))
  | next hround hmeets ih =>
      cases h with
      | ended hended => exact absurd (hround.symm.trans hended) (by simp)
      | next hnext hrest =>
          obtain ⟨rfl, rfl⟩ := Round.next.inj (Option.some.inj (hround.symm.trans hnext))
          exact ih hrest

/-! ### Answers -/

/-- What is known right after an answer is known after doing what it says. -/
theorem knownAfter_of_answer (hmeets : run.Meets site s directive handler)
    (hanswer : Inv (handler.compose directive (contextAt run.workshop site s) s.memory).2) :
    KnownAfter run.workshop Inv site s := by
  intro result q h
  have hfind : Handler.find? run.workshop.handlers directive = some handler := hmeets.find
  simp only [contextAt] at hanswer
  simp only [invoke, hmeets.get, hfind] at h
  generalize handler.compose directive _ s.memory = answer at hanswer h
  obtain ⟨fault | outcome, memory⟩ := answer
  · obtain ⟨-, rfl⟩ := Prod.mk.inj (Option.some.inj h)
    exact hanswer
  · let after : Progress μ := { s with memory }
    refine Together.of_diagonal (x := settle run.workshop site outcome) (p := after) ?_ h
    refine Together.settle (R := Diagonal Inv) likens_eq site outcome ⟨rfl, hanswer⟩ fun v _ => ?_
    exact separately_together rfl ⟨rfl, hanswer⟩ fun levels _ => together_self hhandlers hanswer

omit hhandlers in
/-- What is known when a document of its own has been composed is known after the directive that it
comes from. -/
theorem knownAfter_of_nested {levels : Nat} {memory : μ} (hlevels : run.levels = levels + 1)
    (hmeets : run.Meets site s directive handler)
    (hanswer : handler.compose directive (contextAt run.workshop site s) s.memory =
      (.ok (.separate v), memory))
    (hnested : ∀ result q, (run.nested levels s.document.backend v memory).result =
      some (result, q) → Inv q.memory) : KnownAfter run.workshop Inv site s := by
  intro result q h
  rw [invoke_of_answer hmeets.get hmeets.find hanswer] at h
  have hseparately : Together Eq (Diagonal Inv)
      (run.workshop.separately s.document.backend v memory)
      (run.workshop.separately s.document.backend v memory) := by
    show Together _ _ (separately _ _ _ run.levels _ v memory)
      (separately _ _ _ run.levels _ v memory)
    rw [hlevels, separately_succ run]
    cases hend : (run.nested levels s.document.backend v memory).result with
    | none => exact .never
    | some end_ => exact .of_fst_eq likens_eq rfl ⟨rfl, hnested _ _ hend⟩
  let done : Composing μ Bool := do
    let composed ← remembering site (run.workshop.separately s.document.backend v)
    write site composed
    complete site
  refine Together.of_diagonal (x := done) (p := { s with memory }) ?_ h
  refine Together.bind (Together.remembering likens_eq site hseparately) fun w r m _ hr => ?_
  exact Together.bind (Together.write likens_eq site w hr) fun _ _ _ _ => Together.complete site

/-- What is known when a run in the course of a run has ended is known when that has. -/
theorem known_of_nests (hinner : run.Nests inner)
    (hknown : ∀ result q, inner.result = some (result, q) → Inv q.memory) :
    ∀ result q, run.result = some (result, q) → Inv q.memory := by
  induction hinner with
  | self => exact hknown
  | deeper hinner hlevels hmeets hanswer ih =>
      have hhandlers' := hinner.preserves hhandlers
      refine ih fun result q hresult => ?_
      exact known_of_meets hhandlers' (knownAfter_of_nested hlevels hmeets hanswer hknown)
        hmeets.meets (passes_eq_some_iff.mp hresult)

/-- **What is known right after an answer, be it in a document of its own, is known when the run
has ended.** -/
theorem known_of_answer (hinner : run.Nests inner)
    (hmeets : inner.Meets site s directive handler)
    (hanswer : Inv (handler.compose directive (contextAt inner.workshop site s) s.memory).2)
    {result : Except Fault Unit} (hresult : run.result = some (result, q)) : Inv q.memory := by
  have hhandlers' := hinner.preserves hhandlers
  refine known_of_nests hhandlers hinner (fun result q hresult => ?_) _ _ hresult
  exact known_of_meets hhandlers' (knownAfter_of_answer hhandlers' hmeets hanswer) hmeets.meets
    (passes_eq_some_iff.mp hresult)

end Run

end Composing

namespace Composer

open Composing

variable {μ : Type} {Inv : μ → Prop} {composer composer' : Composer μ}
  (hhandlers : ∀ setting, ∀ handler ∈ composer.handlers, handler.Preserves setting Inv)

include hhandlers

/-- **What is known right after an answer in the course of a request is known until the composer is
told to forget**, whatever this request and those after it come to. -/
theorem known_of_serve {setting : Setting} {start : Pointer} {later : List Request}
    {inner : Run μ} {site : Path} {s : Progress μ} {directive : Fields} {handler : Handler μ}
    (hlater : .forget ∉ later) (hinner : (composer.run setting start).Nests inner)
    (hmeets : inner.Meets site s directive handler)
    (hanswer : Inv (handler.compose directive (contextAt inner.workshop site s) s.memory).2)
    (h : composer.serve (.compose setting start :: later) = some composer') :
    Inv composer'.memory := by
  obtain ⟨⟨result, next⟩, hcompose, hserve⟩ := Option.bind_eq_some_iff.mp h
  obtain ⟨q, hran, rfl⟩ := exists_ran_of_composeAt hcompose
  have hresult : (composer.run setting start).result = some (result, q) :=
    passes_eq_some_iff.mpr hran
  have hq : Inv q.memory := Run.known_of_answer (hhandlers setting) hinner hmeets hanswer hresult
  exact @memory_of_serve _ (composer.resume q) _ _ _ hhandlers (fun hmem => absurd hmem hlater) hq
    hserve

end Composer

end Docweave
