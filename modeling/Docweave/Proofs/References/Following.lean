import Docweave.Directive.Copy
import Docweave.Proofs.Directive
import Docweave.Proofs.Store.Agreement
import Mathlib.Data.List.Nodup
import Mathlib.Data.List.Perm.Subperm
import Mathlib.Logic.Relation

/-!
Following a chain of references.

`Followed` has one case for everything that can happen at a target, and whatever is known of a chain
is read off it.  A chain that is followed to its end leads to a node of the document.  No node comes
twice in a chain, and a document has no more nodes than it is large, so the bound on the number of
links is never what ends it (`follow_ne_exhausted`).

Where a chain leads can be said without following it: to a path that no reference is at (`Leads`).
Following it comes to what is there, or ends in a fault (`follow_eq_ok_iff`).
-/

namespace Docweave

open Relation

namespace Directive

variable {context : Context} {fuel : Nat} {visited : List Path} {links : List Link}
  {node path : Path}

/-- A chain that comes to a target again, or to a node above the directive. -/
def ComesBack (context : Context) (visited : List Path) (path : Path) : Prop :=
  path ∈ visited ∨ context.path.isBelow path = true

theorem ComesBack.of_front (hvisited : context.path ∈ visited) (hfront : path <+: context.path) :
    ComesBack context visited path := by
  by_cases heq : context.path = path
  · exact .inl (heq ▸ hvisited)
  · exact .inr (Path.isBelow_iff_prefix_ne.mpr ⟨hfront, heq⟩)

/-- What following a chain from a target on comes to. -/
inductive Followed (context : Context) (fuel : Nat) (visited : List Path) (links : List Link)
    (node path : Path) : Except Fault Target → Prop
  | cycle (hback : ComesBack context visited path) :
      Followed context fuel visited links node path (.error (.cycle .reference
        (Pointer.textOfPath path) (links ++ [⟨Pointer.textOfPath node, Pointer.textOfPath path⟩])))
  | missing (hnew : ¬ ComesBack context visited path)
      (hnone : context.document.content.node? path = none) :
      Followed context fuel visited links node path (.ok .missing)
  | broken {fields : Fields} {fault : Fault} (hnew : ¬ ComesBack context visited path)
      (hn : context.document.content.node? path = some (.map fields))
      (hcontains : Entries.contains fields referenceMarker = true)
      (htarget : target fields referenceMarker = .error fault) :
      Followed context fuel visited links node path (.error fault)
  | link {fields : Fields} {next : Path} {result : Except Fault Target}
      (hnew : ¬ ComesBack context visited path)
      (hn : context.document.content.node? path = some (.map fields))
      (hcontains : Entries.contains fields referenceMarker = true)
      (htarget : target fields referenceMarker = .ok next)
      (hrest : followFrom context fuel (visited ++ [path])
        (links ++ [⟨Pointer.textOfPath node, Pointer.textOfPath path⟩]) path next = result) :
      Followed context fuel visited links node path result
  | pending {fields : Fields} (hnew : ¬ ComesBack context visited path)
      (hn : context.document.content.node? path = some (.map fields))
      (hdirective : isDirective context.markers (.map fields) = true)
      (hother : Entries.contains fields referenceMarker = false) :
      Followed context fuel visited links node path (.ok .pending)
  | found {v : Value} (hnew : ¬ ComesBack context visited path)
      (hn : context.document.content.node? path = some v)
      (hplain : isDirective context.markers v = false)
      (hother : isDirective [referenceMarker] v = false) :
      Followed context fuel visited links node path (.ok (.found v))

theorem Followed.of_followFrom (hsound : context.document.Sound) {result : Except Fault Target}
    (h : followFrom context (fuel + 1) visited links node path = result) :
    Followed context fuel visited links node path result := by
  rw [followFrom] at h
  by_cases hback : ComesBack context visited path
  · have hcycle : (visited.contains path || context.path.isBelow path) = true := by
      rwa [Bool.or_eq_true, List.contains_iff_mem]
    rw [if_pos hcycle] at h
    exact h ▸ .cycle hback
  have hcycle : ¬ (visited.contains path || context.path.isBelow path) = true := by
    rwa [Bool.or_eq_true, List.contains_iff_mem]
  rw [if_neg hcycle] at h
  cases hget : context.document.get (.plain path) with
  | error fault =>
      have hnone : context.document.content.node? path = none := by
        refine Option.eq_none_iff_forall_ne_some.mpr fun v hv => ?_
        rw [(Store.get_plain_eq_ok_iff hsound).mpr hv] at hget
        exact absurd hget (by simp)
      rw [hget] at h
      exact h ▸ .missing hback hnone
  | ok v =>
      have hn := (Store.get_plain_eq_ok_iff hsound).mp hget
      rw [hget] at h
      cases v with
      | map fields =>
          by_cases hcontains : Entries.contains fields referenceMarker = true
          · simp only [if_pos hcontains] at h
            cases htarget : target fields referenceMarker with
            | error fault =>
                rw [htarget] at h
                exact h ▸ .broken hback hn hcontains htarget
            | ok next =>
                rw [htarget] at h
                exact .link hback hn hcontains htarget h
          · simp only [if_neg hcontains] at h
            by_cases hdirective : isDirective context.markers (.map fields) = true
            · rw [if_pos hdirective] at h
              exact h ▸ .pending hback hn hdirective (Bool.eq_false_iff.mpr hcontains)
            · rw [if_neg hdirective] at h
              refine h ▸ .found hback hn (Bool.eq_false_iff.mpr hdirective) ?_
              rw [isDirective, List.any_cons, List.any_nil, Bool.or_false]
              exact Bool.eq_false_iff.mpr hcontains
      | _ => exact h ▸ .found hback hn rfl rfl

/-- What a chain leads to is a node of the document. -/
theorem exists_node_of_followFrom (hsound : context.document.Sound) {v : Value}
    (h : followFrom context fuel visited links node path = .ok (.found v)) :
    ∃ last, context.document.content.node? last = some v := by
  induction fuel generalizing visited links node path with
  | zero => exact absurd h (by simp [followFrom])
  | succ fuel ih =>
      cases Followed.of_followFrom hsound h with
      | link hnew hn hcontains htarget hrest => exact ih hrest
      | found hnew hn hplain => exact ⟨path, hn⟩

/-- A reference is answered with what its chain leads to, or not yet. -/
theorem composeReference_eq_ok {directive : Fields} {outcome : Outcome}
    (h : composeReference directive context = .ok outcome) :
    outcome = .retry ∨ ∃ first v, target directive referenceMarker = .ok first ∧
      follow context first = .ok (.found v) ∧ outcome = .success v := by
  unfold composeReference at h
  cases htarget : target directive referenceMarker with
  | error fault => rw [htarget] at h; exact absurd h (by simp [bind, Except.bind])
  | ok first =>
      rw [htarget] at h
      simp only [bind, Except.bind] at h
      cases hfollow : follow context first with
      | error fault => rw [hfollow] at h; exact absurd h (by simp)
      | ok found =>
          rw [hfollow] at h
          cases found with
          | missing | pending => exact .inl (Except.ok.inj h).symm
          | found v => exact .inr ⟨first, v, rfl, hfollow, (Except.ok.inj h).symm⟩

/-! ### The bound on the number of links -/

theorem target_ne_exhausted (directive : Fields) (marker : String) :
    target directive marker ≠ .error .exhausted := by
  unfold target payload Pointer.plainOfText
  split
  · rename_i fault hpayload
    split at hpayload <;> cases hpayload <;> simp
  · split
    · rename_i fault hparse
      split at hparse <;> cases hparse
      simp
    · split <;> simp

/-- The bound on the number of links is not reached as long as the nodes that a chain has come by
are nodes of the document, but for the first one. -/
theorem followFrom_ne_exhausted (hsound : context.document.Sound) (hnodup : visited.Nodup)
    (hvisited : ∀ q ∈ visited, q = context.path ∨
      (context.document.content.node? q).isSome = true)
    (hfuel : context.document.content.size + 1 < fuel + visited.length) :
    followFrom context fuel visited links node path ≠ .error .exhausted := by
  induction fuel generalizing visited links node path with
  | zero =>
      obtain ⟨paths, hlength, hpaths⟩ := context.document.content.exists_nodes
      have hsub : visited ⊆ context.path :: paths := fun q hq =>
        List.mem_cons.mpr ((hvisited q hq).imp_right (hpaths q))
      have hle := (hnodup.subperm hsub).length_le
      rw [List.length_cons] at hle
      omega
  | succ fuel ih =>
      intro h
      cases Followed.of_followFrom hsound h with
      | broken hnew hn hcontains htarget => exact target_ne_exhausted _ _ htarget
      | link hnew hn hcontains htarget hrest =>
          have hfresh : visited.Disjoint [path] :=
            List.disjoint_singleton.mpr fun hmem => hnew (.inl hmem)
          refine ih (hnodup.append (List.nodup_singleton path) hfresh) (fun q hq => ?_) ?_ hrest
          · rcases List.mem_append.mp hq with hq | hq
            · exact hvisited q hq
            · obtain rfl := List.mem_singleton.mp hq
              exact .inr (Option.isSome_of_eq_some hn)
          · rw [List.length_append, List.length_singleton]
            omega

/-- **Following a chain is never given up.** -/
theorem follow_ne_exhausted (hsound : context.document.Sound) (path : Path) :
    follow context path ≠ .error .exhausted := by
  refine followFrom_ne_exhausted hsound (List.nodup_singleton _) (fun q hq => ?_) ?_
  · exact .inl (List.mem_singleton.mp hq)
  · rw [List.length_singleton]
    omega

end Directive

/-! ### Where chains lead -/

/-- A chain of references from a target to a path that no reference is at, by nodes that are neither
the directive nor above it. -/
inductive Leads (D : Value) (site : Path) : Path → Path → Prop
  | stops {path : Path} (habove : ¬ path <+: site)
      (hstops : ∀ fields, D.node? path = some (.map fields) →
        Entries.contains fields Directive.referenceMarker = false) : Leads D site path path
  | link {path next last : Path} {fields : Fields} (habove : ¬ path <+: site)
      (hn : D.node? path = some (.map fields))
      (htarget : Directive.target fields Directive.referenceMarker = .ok next)
      (hrest : Leads D site next last) : Leads D site path last

/-- The reference at a path has a target. -/
def Value.Links (D : Value) (path next : Path) : Prop :=
  ∃ fields, D.node? path = some (.map fields) ∧
    Directive.target fields Directive.referenceMarker = .ok next

theorem Directive.contains_of_target {fields : Fields} {marker : String} {path : Path}
    (h : target fields marker = .ok path) : Entries.contains fields marker = true := by
  cases hfind : Entries.find? fields marker with
  | none => simp [target, payload, hfind] at h
  | some v => simp [Entries.contains, hfind]

theorem Value.Links.unique {D : Value} {path next other : Path} (h : D.Links path next)
    (h' : D.Links path other) : next = other := by
  obtain ⟨fields, hn, htarget⟩ := h
  obtain ⟨fields', hn', htarget'⟩ := h'
  obtain rfl := Value.map.inj (Option.some.inj (hn.symm.trans hn'))
  exact Except.ok.inj (htarget.symm.trans htarget')

namespace Leads

variable {D : Value} {site path last : Path}

theorem not_above (h : Leads D site path last) : ¬ path <+: site := by
  cases h with
  | stops habove _ => exact habove
  | link habove _ _ _ => exact habove

/-- No reference is where a chain leads. -/
theorem stops_at (h : Leads D site path last) {fields : Fields}
    (hn : D.node? last = some (.map fields)) :
    Entries.contains fields Directive.referenceMarker = false := by
  induction h with
  | stops _ hstops => exact hstops fields hn
  | link _ _ _ _ ih => exact ih hn

/-- **A chain that leads somewhere does not come back to where it was.** -/
theorem not_transGen_self (h : Leads D site path last) : ¬ TransGen D.Links path path := by
  induction h with
  | stops _ hstops =>
      intro hback
      obtain ⟨next, ⟨fields, hn, htarget⟩, -⟩ := TransGen.head'_iff.mp hback
      exact absurd (Directive.contains_of_target htarget) (by simp [hstops fields hn])
  | @link path next last fields _ hn htarget _ ih =>
      intro hback
      obtain ⟨other, hlink, hrest⟩ := TransGen.head'_iff.mp hback
      have hnext : D.Links path next := ⟨fields, hn, htarget⟩
      obtain rfl := hlink.unique hnext
      exact ih (TransGen.tail' hrest hnext)

end Leads

namespace Directive

variable {context : Context} {fuel : Nat} {visited : List Path} {links : List Link}
  {node path last : Path}

/-- What there is at the end of a chain. -/
def Target.ofNode? (markers : List String) : Option Value → Target
  | none => .missing
  | some v => if isDirective markers v then .pending else .found v

theorem Target.ofNode?_eq_found_iff {markers : List String} {node? : Option Value} {v : Value} :
    ofNode? markers node? = .found v ↔ node? = some v ∧ isDirective markers v = false := by
  cases node? with
  | none => simp [ofNode?]
  | some w =>
      cases hdirective : isDirective markers w with
      | true =>
          simp only [ofNode?, hdirective, if_true, Option.some.injEq, reduceCtorEq, false_iff]
          rintro ⟨rfl, hplain⟩
          exact absurd (hdirective.symm.trans hplain) (by simp)
      | false =>
          simp only [ofNode?, hdirective, Bool.false_eq_true, if_false, Target.found.injEq,
            Option.some.injEq]
          exact ⟨fun heq => ⟨heq, heq ▸ hdirective⟩, And.left⟩

theorem not_comesBack_of_leads (hleads : Leads context.document.content context.path path last)
    (hvisited : ∀ q ∈ visited, q = context.path ∨
      TransGen context.document.content.Links q path) : ¬ ComesBack context visited path := by
  rintro (hmem | hbelow)
  · obtain rfl | hback := hvisited path hmem
    · exact hleads.not_above (List.prefix_refl _)
    · exact hleads.not_transGen_self hback
  · exact hleads.not_above (Path.isBelow_iff_prefix_ne.mp hbelow).1

theorem leads_of_followFrom (hsound : context.document.Sound)
    (hmarker : referenceMarker ∈ context.markers) {found : Target}
    (hvisited : context.path ∈ visited)
    (h : followFrom context fuel visited links node path = .ok found) :
    ∃ last, Leads context.document.content context.path path last ∧
      found = .ofNode? context.markers (context.document.content.node? last) := by
  induction fuel generalizing visited links node path with
  | zero => exact absurd h (by simp [followFrom])
  | succ fuel ih =>
      have habove : ¬ ComesBack context visited path → ¬ path <+: context.path := fun hnew hfront =>
        hnew (.of_front hvisited hfront)
      cases Followed.of_followFrom hsound h with
      | missing hnew hnone =>
          refine ⟨path, .stops (habove hnew) fun fields hn => ?_, by rw [hnone, Target.ofNode?]⟩
          exact absurd (hnone.symm.trans hn) (by simp)
      | link hnew hn hcontains htarget hrest =>
          obtain ⟨last, hleads, hfound⟩ := ih (List.mem_append_left _ hvisited) hrest
          exact ⟨last, .link (habove hnew) hn htarget hleads, hfound⟩
      | pending hnew hn hdirective hother =>
          refine ⟨path, .stops (habove hnew) fun fields hn' => ?_,
            by rw [hn, Target.ofNode?, if_pos hdirective]⟩
          obtain rfl := Value.map.inj (Option.some.inj (hn.symm.trans hn'))
          exact hother
      | @found v hnew hn hplain =>
          refine ⟨path, .stops (habove hnew) fun fields hn' => ?_,
            by rw [hn, Target.ofNode?, hplain, if_neg Bool.false_ne_true]⟩
          obtain rfl := Option.some.inj (hn.symm.trans hn')
          by_contra hcontains
          rw [isDirective_map_iff.mpr ⟨_, hmarker, Bool.of_not_eq_false hcontains⟩] at hplain
          exact absurd hplain (by simp)

theorem followFrom_of_leads (hsound : context.document.Sound)
    (hmarker : referenceMarker ∈ context.markers)
    (hleads : Leads context.document.content context.path path last)
    (hvisited : ∀ q ∈ visited, q = context.path ∨
      TransGen context.document.content.Links q path)
    {result : Except Fault Target}
    (h : followFrom context fuel visited links node path = result) :
    result = .ok (.ofNode? context.markers (context.document.content.node? last)) ∨
      result = .error .exhausted := by
  induction hleads generalizing fuel visited links node with
  | @stops path habove hstops =>
      have hleads := Leads.stops habove hstops
      cases fuel with
      | zero => exact .inr h.symm
      | succ fuel =>
          cases Followed.of_followFrom hsound h with
          | cycle hback => exact absurd hback (not_comesBack_of_leads hleads hvisited)
          | missing _ hnone => exact .inl (by rw [hnone, Target.ofNode?])
          | broken _ hn hcontains _ => exact absurd hcontains (by simp [hstops _ hn])
          | link _ hn hcontains _ _ => exact absurd hcontains (by simp [hstops _ hn])
          | pending _ hn hdirective _ =>
              exact .inl (by rw [hn, Target.ofNode?, if_pos hdirective])
          | found _ hn hplain =>
              exact .inl (by rw [hn, Target.ofNode?, hplain, if_neg Bool.false_ne_true])
  | @link path next last fields habove hn htarget hrest ih =>
      have hleads := Leads.link habove hn htarget hrest
      have hcontains := contains_of_target htarget
      cases fuel with
      | zero => exact .inr h.symm
      | succ fuel =>
          cases Followed.of_followFrom hsound h with
          | cycle hback => exact absurd hback (not_comesBack_of_leads hleads hvisited)
          | missing _ hnone => exact absurd (hnone.symm.trans hn) (by simp)
          | broken _ hn' _ htarget' =>
              obtain rfl := Value.map.inj (Option.some.inj (hn'.symm.trans hn))
              exact absurd (htarget'.symm.trans htarget) (by simp)
          | link _ hn' _ htarget' hfollow =>
              obtain rfl := Value.map.inj (Option.some.inj (hn'.symm.trans hn))
              obtain rfl := Except.ok.inj (htarget'.symm.trans htarget)
              have hlink : context.document.content.Links path _ := ⟨_, hn, htarget⟩
              refine ih (fun q hq => ?_) hfollow
              rcases List.mem_append.mp hq with hq | hq
              · exact (hvisited q hq).imp_right fun hto => hto.tail hlink
              · exact .inr (List.mem_singleton.mp hq ▸ .single hlink)
          | pending _ hn' _ hother =>
              obtain rfl := Value.map.inj (Option.some.inj (hn'.symm.trans hn))
              exact absurd hcontains (by simp [hother])
          | found _ hn' hplain =>
              obtain rfl := Option.some.inj (hn'.symm.trans hn)
              rw [isDirective_map_iff.mpr ⟨_, hmarker, hcontains⟩] at hplain
              exact absurd hplain (by simp)

/-- **A chain is followed to what it leads to, or it is a fault.** -/
theorem follow_eq_ok_iff (hsound : context.document.Sound)
    (hmarker : referenceMarker ∈ context.markers) {found : Target} :
    follow context path = .ok found ↔
      ∃ last, Leads context.document.content context.path path last ∧
        found = .ofNode? context.markers (context.document.content.node? last) := by
  constructor
  · exact leads_of_followFrom hsound hmarker (List.mem_singleton_self _)
  · rintro ⟨last, hleads, rfl⟩
    refine (followFrom_of_leads hsound hmarker hleads (fun q hq => ?_) rfl).resolve_right
      (follow_ne_exhausted hsound path)
    exact .inl (List.mem_singleton.mp hq)

end Directive

end Docweave
