import Docweave.Proofs.Resolving.Documents
import Docweave.Proofs.Resolving.Returning

/-!
A cycle that a resolver reports is one.

The targets in progress are a trail: no two are the same, the content of each holds a directive text
that stands for the next, and the content of the last one is what is being resolved
(`Sources.Trail`).  A target is entered when a directive text of that content is followed, so the
trail goes on with it, and if the target is on the trail already, what is reported is the trail with
the target behind it once more.  What the resolver remembers shortens a trail at most, so it does
not matter here whether it is right.

While a whole document is resolved its children are replaced by values without directive texts.
Nothing leads on from there, so a trail through the document as it is by then is one through the
document as it was.
-/

namespace Docweave

open Value (directiveTexts)

namespace Sources

variable {s : Sources} {targets : List Target} {t t' : Target} {v w old new : Value}
  {raw raw' token target : String} {chain : List Link}

/-- One target leads to another, both by the texts they are known by. -/
def TextLeads (s : Sources) (a b : String) : Prop :=
  ∃ t t' : Target, a = t.text ∧ b = t'.text ∧ s.Leads t t'

/-- A chain of links that closes a cycle: its last link leads to the target, which is among the
different targets of the links before, and in the content of the target of each link there is a
directive text that stands for the target of the next. -/
def Cyclic (s : Sources) (target : String) (chain : List Link) : Prop :=
  ∃ before last, chain = before ++ [last] ∧ last.target = target ∧
    (before.map Link.target).Nodup ∧ target ∈ before.map Link.target ∧
    (chain.map Link.target).IsChain s.TextLeads

/-- The targets in progress above a value. -/
structure Trail (s : Sources) (targets : List Target) (v : Value) : Prop where
  nodup : targets.Nodup
  chain : targets.IsChain s.Leads
  last : ∀ t ∈ targets.getLast?, ∀ raw ∈ v.directiveTexts, ∀ t', s.target? raw = some t' →
    s.Leads t t'

theorem trail_nil (v : Value) : s.Trail [] v :=
  ⟨List.nodup_nil, List.IsChain.nil, fun _ h => absurd h (by simp)⟩

/-- The trail goes on with the target of a directive text. -/
theorem Trail.chain_concat (h : s.Trail targets v) (hraw : raw ∈ v.directiveTexts)
    (ht : s.target? raw = some t) : (targets ++ [t]).IsChain s.Leads := by
  refine List.isChain_append.mpr ⟨h.chain, List.IsChain.singleton t, fun t' ht' u hu => ?_⟩
  obtain rfl : t = u := by simpa using hu
  exact h.last t' ht' raw hraw t ht

/-- A target that is entered goes on the trail, and what is resolved then is its content. -/
theorem Trail.enter (h : s.Trail targets w) (hraw : raw ∈ w.directiveTexts)
    (ht : s.target? raw = some t) (hnew : t ∉ targets) (hv : s.content? t = some v) :
    s.Trail (targets ++ [t]) v where
  nodup := h.nodup.append (List.nodup_singleton t) (List.disjoint_singleton.mpr hnew)
  chain := h.chain_concat hraw ht
  last u hu raw' hraw' t' ht' := by
    obtain rfl : t = u := by simpa using hu
    exact ⟨v, hv, raw', hraw', ht'⟩

/-- A target that is on the trail already closes a cycle. -/
theorem Trail.cyclic (h : s.Trail targets w) (hraw : raw ∈ w.directiveTexts)
    (ht : s.target? raw = some t) (hmem : t ∈ targets) {stack : List Link} {link : Link}
    (hstack : stack.map Link.target = targets.map Target.text) (hlink : link.target = t.text) :
    s.Cyclic t.text (stack ++ [link]) := by
  refine ⟨stack, link, rfl, hlink, ?_, ?_, ?_⟩
  · rw [hstack]
    exact h.nodup.map fun _ _ => Target.text_inj
  · rw [hstack]
    exact List.mem_map_of_mem hmem
  · have hall : (stack ++ [link]).map Link.target = (targets ++ [t]).map Target.text := by
      rw [List.map_append, hstack, List.map_append, List.map_singleton, List.map_singleton, hlink]
    rw [hall, List.isChain_map]
    exact (h.chain_concat hraw ht).imp fun u u' hleads => ⟨u, u', rfl, rfl, hleads⟩

/-- A cycle is one wherever targets lead to no fewer targets. -/
theorem Cyclic.mono {s' : Sources} (h : s'.Cyclic target chain)
    (hleads : ∀ t t', s'.Leads t t' → s.Leads t t') : s.Cyclic target chain := by
  obtain ⟨before, last, hchain, hlast, hnodup, hmem, hall⟩ := h
  refine ⟨before, last, hchain, hlast, hnodup, hmem, hall.imp fun a b => ?_⟩
  rintro ⟨t, t', ha, hb, hstep⟩
  exact ⟨t, t', ha, hb, hleads t t' hstep⟩

/-- Where a child has been replaced by a value without directive texts, what leads on has done so
before. -/
theorem leads_of_after (hold : s.document.node? [token] = some old)
    (hnew : new.directiveTexts = []) (h : (s.after token new).Leads t t') : s.Leads t t' := by
  obtain ⟨v, hv, raw, hraw, ht'⟩ := h
  cases t with
  | file location => exact ⟨v, hv, raw, hraw, ht'⟩
  | node first rest =>
      replace hv : (s.document.put [token] new).node? (first :: rest) = some v := hv
      by_cases hfirst : token = first
      · subst hfirst
        have hput := Value.node?_put_append (Option.isSome_of_eq_some hold) new rest
        replace hv := hput.symm.trans hv
        obtain ⟨htext, hdirective⟩ := List.mem_filter.mp hraw
        have hmem : raw ∈ new.directiveTexts :=
          List.mem_filter.mpr ⟨Value.texts_of_node? hv htext, hdirective⟩
        exact absurd (hnew ▸ hmem) List.not_mem_nil
      · rw [Value.node?_put_beside s.document] at hv
        · exact ⟨v, hv, raw, hraw, ht'⟩
        · exact fun h => hfirst (List.cons_prefix_cons.mp h).1
        · exact fun h => hfirst (List.cons_prefix_cons.mp h).1.symm

end Sources

namespace Resolver

variable {s : Sources} {targets : List Target} {t : Target} {raw : String} {store : Store}
  {r r' : Resolver} {α : Type} {x : Resolving α}

/-- With these targets in progress a cycle that the action reports is one. -/
structure Exposes (s : Sources) (targets : List Target) (x : Resolving α) : Prop where
  returns : ∀ r, Returns r (x r).2
  cyclic : ∀ r, r.reader = s.reader → r.stack.map Link.target = targets.map Target.text →
    ∀ kind target chain, (x r).1 = .error (.cycle kind target chain) → s.Cyclic target chain

namespace Exposes

theorem composes (s : Sources) (targets : List Target) :
    Composes fun {α} (x : Resolving α) => Exposes s targets x where
  pure a := by
    refine ⟨Returns.composes.pure a, fun r _ _ kind target chain h => ?_⟩
    replace h : Except.ok a = .error (Fault.cycle kind target chain) := h
    exact absurd h (by simp)
  bind {_ _ x f} hx hf := by
    refine ⟨Returns.composes.bind hx.returns fun a => (hf a).returns, ?_⟩
    intro r hreader hstack kind target chain h
    have hreturns := hx.returns r
    rcases hrun : x r with ⟨fault | a, r'⟩ <;> rw [hrun] at hreturns
    · rw [bind_of_error hrun] at h
      obtain rfl := Except.error.inj h
      exact hx.cyclic r hreader hstack kind target chain (congrArg Prod.fst hrun)
    · rw [bind_of_ok hrun] at h
      refine (hf a).cyclic r' (hreturns.reader.trans hreader) ?_ kind target chain h
      rw [hreturns.stack, hstack]
  named name hx :=
    ⟨Returns.composes.named name hx.returns, fun r hreader hstack => hx.cyclic _ hreader hstack⟩

/-- A target that is in progress is not entered again, and what is reported then is the trail. -/
theorem entered {w : Value} (htrail : s.Trail targets w) (hraw : raw ∈ w.directiveTexts)
    (ht : s.target? raw = some t) (kind : TargetKind)
    (hx : t ∉ targets → Exposes s (targets ++ [t]) x) (hreturns : ∀ r, Returns r (x r).2) :
    Exposes s targets (Resolver.entered kind t.text x) := by
  refine ⟨Returns.entered kind t.text hreturns, fun r hreader hstack kind' target chain h => ?_⟩
  have hany : (r.stack.any fun frame => frame.target == t.text) = true ↔ t ∈ targets := by
    rw [List.any_eq_true, ← List.mem_map_of_injective (fun _ _ => Target.text_inj), ← hstack]
    simp
  rw [Resolver.entered] at h
  split at h
  · next hmem =>
      obtain ⟨-, rfl, rfl⟩ := Fault.cycle.inj (Except.error.inj h)
      exact htrail.cyclic hraw ht (hany.mp hmem) hstack rfl
  · next hmem =>
      refine (hx fun hin => hmem (hany.mpr hin)).cyclic
        { r with stack := r.stack ++ [⟨r.nodePath, t.text⟩] } hreader ?_ kind' target chain h
      rw [List.map_append, List.map_append, hstack]
      rfl

/-- What is remembered closes no cycle. -/
theorem cached {act : Resolving Value} (hact : Exposes s targets act)
    (hreturns : ∀ r, Returns r (Resolver.cached t.entries t.remember t.key act r).2) :
    Exposes s targets (Resolver.cached t.entries t.remember t.key act) := by
  refine ⟨hreturns, fun r hreader hstack kind target chain h => ?_⟩
  rw [Resolver.cached] at h
  split at h
  · exact absurd h (by simp)
  rcases hrun : act r with ⟨fault | w, r'⟩ <;> rw [hrun] at h
  · exact hact.cyclic r hreader hstack kind target chain (by rw [hrun]; exact h)
  · exact absurd h (by simp)

/-- That nothing is found for a target is no cycle. -/
theorem located {found : Except Fault Value} {inner : Value → Resolving Value}
    (hreturns : ∀ r, Returns r ((Resolver.located raw found >>= inner) r).2)
    (hinner : ∀ v, found = .ok v → Exposes s targets (inner v)) :
    Exposes s targets (Resolver.located raw found >>= inner) := by
  cases found with
  | ok v => exact ⟨hreturns, (hinner v rfl).cyclic⟩
  | error source =>
      refine ⟨hreturns, fun r _ _ kind target chain h => ?_⟩
      replace h : Except.error (.resolution raw r.nodePath source) =
        (.error (.cycle kind target chain) : Except Fault Value) := h
      exact absurd h (by simp)

end Exposes

/-- **Following a directive text of what the last target in progress holds reports real cycles
only.** -/
theorem follow_exposes (hsound : store.Sound) (hdocument : store.content = s.document) {depth : Nat}
    {w : Value} (htrail : s.Trail targets w) (hraw : raw ∈ w.directiveTexts) :
    Exposes s targets (follow s.files store depth raw) := by
  have hdirective := (List.mem_filter.mp hraw).2
  induction depth generalizing targets raw w with
  | zero =>
      refine ⟨returns_follow s.files store 0 hdirective, fun r _ _ kind target chain h => ?_⟩
      replace h : Except.error .exhausted =
        (.error (.cycle kind target chain) : Except Fault Value) := h
      exact absurd h (by simp)
  | succ depth ih =>
      refine ⟨returns_follow s.files store (depth + 1) hdirective, ?_⟩
      intro r hreader hstack kind target chain h
      cases ht : s.target? raw with
      | none =>
          obtain ⟨flaw, hfollow⟩ := follow_eq_malformed hdirective ht s.files depth
          rw [hfollow] at h
          exact absurd h (by simp)
      | some t =>
          rw [follow_eq_of_target hdirective ht hreader] at h
          have hcontent : ∀ r, Returns r ((Resolver.located raw (t.fetch s.files store) >>= fun v =>
              named t.name (value (follow s.files store depth) v)) r).2 :=
            Returns.content fun raw' hraw' => returns_follow s.files store depth hraw'
          refine (Exposes.cached (.entered htrail hraw ht t.kind (fun hnew => ?_) hcontent)
            (Returns.target hcontent)).cyclic r hreader hstack kind target chain h
          refine .located hcontent fun v hfetch => ?_
          have hv := (fetch_eq_ok_iff hsound hdocument v).mp hfetch
          refine (Exposes.composes s _).named t.name ((Exposes.composes s _).value ?_)
          intro raw' hraw'
          exact ih (htrail.enter hraw ht hnew hv) hraw' (List.mem_filter.mp hraw').2

theorem resolve_exposes (hsound : store.Sound) (hdocument : store.content = s.document) (v : Value)
    (context : String) : Exposes s [] (resolve s.files store v context) :=
  (Exposes.composes s []).named context <| (Exposes.composes s []).value fun _ hraw =>
    follow_exposes hsound hdocument (Sources.trail_nil v) hraw

/-! ### Whole documents -/

/-- Resolving a node of the document leaves the resolver clean, and what it answers is resolved. -/
theorem Clean.of_resolve {files : Files} {pointer : Pointer} {old : Value} {context : String}
    {result : Except Fault Value} (hclean : r.Clean) (hsound : store.Sound)
    (hget : store.get pointer = .ok old) (hrun : resolve files store old context r = (result, r')) :
    r'.Clean ∧ ∀ new, result = .ok new → new.Resolved := by
  obtain ⟨path, -, hold⟩ := (Store.get_eq_ok_iff hsound).mp hget
  have hyields := resolve_yields files hsound (hsound.wellFormed.of_node? hold) context r hclean
  rwa [hrun] at hyields

/-- Resolving child after child, a cycle that is reported is one in the document as it is by then,
and was one before. -/
theorem cyclic_of_resolveChildren (tokens : List String) {store' : Store} {kind : TargetKind}
    {target : String} {chain : List Link} (hsound : store.Sound)
    (hdocument : store.content = s.document) (hreader : r.reader = s.reader) (hstack : r.stack = [])
    (hclean : r.Clean)
    (h : resolveChildren s.files (tokens.map fun token => [token]) store r =
      (.error (.cycle kind target chain), store', r')) :
    s.Cyclic target chain ∧ Sources.Cyclic { s with document := store'.content } target chain := by
  induction tokens generalizing s store r with
  | nil => exact absurd (Prod.mk.inj h).1 (by simp)
  | cons token tokens ih =>
      have hfirst := firstChild s.files [token] (tokens.map fun token => [token]) store r
      rw [List.map_cons] at h
      generalize resolveChildren s.files ([token] :: _) store r = result at h hfirst
      cases hfirst with
      | missing hget =>
          obtain rfl := Except.error.inj (Prod.mk.inj h).1
          exact absurd (Store.kind_of_get hget) (by simp [Fault.kind])
      | @failed old fault r'' hget hrun =>
          obtain ⟨hfault, h⟩ := Prod.mk.inj h
          obtain ⟨rfl, -⟩ := Prod.mk.inj h
          obtain rfl := Except.error.inj hfault
          have hcyclic := (resolve_exposes hsound hdocument old token).cyclic r hreader
            (by rw [hstack]; rfl) kind target chain (congrArg Prod.fst hrun)
          exact ⟨hcyclic, by rwa [hdocument]⟩
      | refused _ _ hupdate =>
          obtain rfl := Except.error.inj (Prod.mk.inj h).1
          exact absurd (Store.kind_of_update hupdate) (by simp [Fault.kind])
      | @written old new written r'' hget hrun hupdate =>
          have hold : store.content.node? [token] = some old :=
            (Store.get_plain_eq_ok_iff hsound).mp hget
          have hreturns := Returns.of_resolve hrun
          obtain ⟨hafter, hgood⟩ := hclean.of_resolve hsound hget hrun
          have hnew := hgood new rfl
          have hwritten := Store.content_update_plain hsound (List.cons_ne_nil token []) hold
            hnew.wellFormed hupdate
          obtain ⟨hcyclic, hdone⟩ := ih (s := s.after token new)
            (hsound.update hnew.wellFormed hupdate)
            (hwritten.trans (congrArg (·.put [token] new) hdocument))
            (hreturns.reader.trans hreader) (hreturns.stack.trans hstack) hafter h
          have hplain : new.directiveTexts = [] :=
            List.filter_eq_nil_iff.mpr fun raw hraw => by simp [hnew.texts raw hraw]
          exact ⟨hcyclic.mono fun _ _ =>
            Sources.leads_of_after (hdocument ▸ hold) hplain, hdone⟩

theorem clean_resolveChildren {files : Files} (tokens : List String) (hsound : store.Sound)
    (hclean : r.Clean) :
    (resolveChildren files (tokens.map fun token => [token]) store r).2.2.Clean := by
  induction tokens generalizing store r with
  | nil => exact hclean
  | cons token tokens ih =>
      have hfirst := firstChild files [token] (tokens.map fun token => [token]) store r
      rw [List.map_cons]
      generalize resolveChildren files ([token] :: _) store r = result at hfirst
      cases hfirst with
      | missing => exact hclean
      | failed hget hrun | refused hget hrun => exact (hclean.of_resolve hsound hget hrun).1
      | written hget hrun hupdate =>
          obtain ⟨hafter, hgood⟩ := hclean.of_resolve hsound hget hrun
          exact ih (hsound.update (hgood _ rfl).wellFormed hupdate) hafter

/-- The document of a request is behind a store that answers for it, and no map has a key twice. -/
def Request.WellFormed : Request → Prop
  | .resolve _ store v _ => store.Sound ∧ v.WellFormed
  | .resolveAll _ store => store.Sound
  | .forget => True

theorem Clean.after {requests : List Request} (h : r.Clean)
    (hrequests : ∀ request ∈ requests, request.WellFormed) : (r.after requests).Clean := by
  induction requests generalizing r with
  | nil => exact h
  | cons request requests ih =>
      obtain ⟨hrequest, hrequests⟩ := List.forall_mem_cons.mp hrequests
      refine ih ?_ hrequests
      cases request with
      | resolve files store v context =>
          exact (resolve_yields files hrequest.1 hrequest.2 context r h).1
      | resolveAll files store =>
          obtain ⟨tokens, htokens⟩ := childPaths_eq store.content
          rw [serve, resolveAll, htokens]
          exact clean_resolveChildren tokens hrequest h
      | forget => exact clean_forget r

/-- **A cycle that a resolver reports is one, whatever it has been asked before.**  For a whole
document it is one in the document as it was and in the document as it is left. -/
theorem cyclic_of_reported (caching : Bool) (base? : Option String) {requests : List Request}
    (hrequests : ∀ request ∈ requests, request.WellFormed) (hsound : store.Sound) (files : Files) :
    let r := (new caching base?).after requests
    let s : Sources := ⟨store.content, files, ⟨base?⟩⟩
    (∀ v context kind target chain,
      (resolve files store v context r).1 = .error (.cycle kind target chain) →
      s.Cyclic target chain) ∧
    ∀ kind target chain, (resolveAll files store r).1 = .error (.cycle kind target chain) →
      s.Cyclic target chain ∧
      Sources.Cyclic { s with document := (resolveAll files store r).2.1.content }
        target chain := by
  intro r s
  have hidle : r.Idle caching base? := idle_after caching base? requests
  refine ⟨fun v context kind target chain h => ?_, fun kind target chain h => ?_⟩
  · have hexposes := resolve_exposes (s := s) hsound rfl v context
    refine hexposes.cyclic r hidle.reader ?_ kind target chain h
    rw [hidle.stack]
    rfl
  · obtain ⟨tokens, htokens⟩ := childPaths_eq store.content
    rw [resolveAll, htokens] at h ⊢
    exact cyclic_of_resolveChildren (s := s) tokens hsound rfl hidle.reader hidle.stack
      ((clean_new caching base?).after hrequests) (Prod.ext h rfl)

/-- A document in which two references lead to each other, one of them inside of a list. -/
def circular : Store :=
  .wrap .direct (.map [("c", .text "!ref /d"), ("a", .text "!ref /b"),
    ("b", .list [.text "!ref /d", .text "!ref /a"]), ("d", .null)])

/-- What is remembered of another reference is passed by, and the cycle is reported with the first
target coming twice. -/
theorem cyclic_of_circular :
    let requests : List Request := [.resolve .none circular (.text "!ref /d") "here",
      .resolve .none circular (.text "!ref /a") "here"]
    let chain : List Link := [⟨"/a", "!ref /b"⟩, ⟨"/a/<by ref>/b/1", "!ref /a"⟩,
      ⟨"/a/<by ref>/b/1/<by ref>/a", "!ref /b"⟩]
    circular.Sound ∧ (∀ request ∈ requests, request.WellFormed) ∧
      (resolveAll .none circular ((new true none).after requests)).1 =
        .error (.cycle .reference "!ref /b" chain) ∧
      Sources.Cyclic ⟨circular.content, .none, ⟨none⟩⟩ "!ref /b" chain := by
  intro requests chain
  have hsound : circular.Sound := by
    refine Store.sound_wrap ?_ .direct
    simp [Value.wellFormed_map_iff, Value.wellFormed_list_iff, Entries.Distinct, Entries.keys]
  have hrequests : ∀ request ∈ requests, request.WellFormed := by
    simp [requests, Request.WellFormed, hsound]
  have hrun : (resolveAll .none circular ((new true none).after requests)).1 =
      .error (.cycle .reference "!ref /b" chain) := by
    show (resolveAll .none circular ((new true none).after
      [.resolve .none circular (.text "!ref /d") "here",
        .resolve .none circular (.text "!ref /a") "here"])).1 = .error (.cycle .reference "!ref /b"
          [⟨"/a", "!ref /b"⟩, ⟨"/a/<by ref>/b/1", "!ref /a"⟩,
            ⟨"/a/<by ref>/b/1/<by ref>/a", "!ref /b"⟩])
    cbv
  obtain ⟨-, hreported⟩ := cyclic_of_reported true none hrequests hsound .none
  exact ⟨hsound, hrequests, hrun, (hreported _ _ _ hrun).1⟩

end Resolver

end Docweave
