import Docweave.Proofs.Composing.Frame
import Docweave.Proofs.Composing.Worklist
import Docweave.Proofs.Reordering

/-!
No directive gets lost.

`Covered` says of a node that every directive in it is at or below a path that is done, or at or
below one that is still to be looked through.  Looking through a node covers it with what holds its
value for good and what was noted for later (`scan_covers`): a directive that waits is noted, one
that is handed over is written for good, noted, or has become a scalar.  Where something is noted
the node is to be looked through again, so where it is not, what is done covers it alone.  A pass
trades the nodes of its worklist for the ones it notes, and the next worklist covers whatever was
noted.  So when nothing is left to be looked through, what is done covers every directive.
-/

namespace Docweave

namespace Value

theorem isContainer_of_same {v w : Value} (h : v.same w = true) :
    v.isContainer = w.isContainer := by
  cases v <;> cases w <;> first | rfl | exact absurd h (by simp [same])

end Value

namespace Composing

/-- Every directive in a node is at or below a path that is done, or at or below one that is still
to be looked through. -/
inductive Covered (markers : List String) (done todo : Path → Prop) : Path → Value → Prop
  | done {path : Path} {v : Value} (h : done path) : Covered markers done todo path v
  | todo {path : Path} {v : Value} (h : todo path) : Covered markers done todo path v
  | node {path : Path} {v : Value} (hplain : isDirective markers v = false)
      (hchildren : ∀ token c, v.child? token = some c →
        Covered markers done todo (path.child token) c) :
      Covered markers done todo path v

namespace Covered

variable {markers : List String} {done todo done' todo' : Path → Prop} {path : Path} {v : Value}

theorem scalar (h : v.isContainer = false) : Covered markers done todo path v := by
  refine .node (isDirective_eq_false_of_isContainer h) fun token c hc => ?_
  have := Value.mem_entries_of_child? hc
  rw [Value.entries_of_isContainer_eq_false h] at this
  exact absurd this List.not_mem_nil

/-- Where there is no directive, there is none to be covered. -/
theorem of_plain (h : ∀ below d, v.node? below = some d → isDirective markers d = false) :
    Covered markers done todo path v := by
  induction v using Value.entries_induction generalizing path with
  | node v ih =>
      refine .node (h [] v (Value.node?_nil v)) fun token c hc => ?_
      refine ih (token, c) (Value.mem_entries_of_child? hc) fun below d hd =>
        h (token :: below) d ?_
      rwa [Value.node?_cons, hc, Option.bind_some]

/-- Of what is still to be looked through only the nodes that are there count. -/
theorem mono (h : Covered markers done todo path v)
    (hdone : ∀ c, path <+: c → done c → done' c)
    (htodo : ∀ r, (v.node? r).isSome = true → todo (path ++ r) → todo' (path ++ r)) :
    Covered markers done' todo' path v := by
  induction h with
  | done h => exact .done (hdone _ (List.prefix_refl _) h)
  | @todo path v h =>
      have := htodo [] (by simp)
      rw [List.append_nil] at this
      exact .todo (this h)
  | @node path v hplain hchildren ih =>
      refine .node hplain fun token c hc => ?_
      refine ih token c hc (fun c hpath => hdone c (Path.prefix_of_child_prefix hpath)) ?_
      intro r hr
      have := htodo (token :: r) (by rwa [Value.node?_cons, hc])
      rwa [List.append_cons path token r] at this

/-- A covering of the nodes still to be looked through will do as well. -/
theorem cover (h : Covered markers done todo path v)
    (hcover : ∀ c, todo c → ∃ w, todo' w ∧ w <+: c)
    (habove : ∀ w, todo' w → w <+: path → w = path) : Covered markers done todo' path v := by
  induction h with
  | done h => exact .done h
  | @todo path v h =>
      obtain ⟨w, hw, hpath⟩ := hcover path h
      exact .todo (habove w hw hpath ▸ hw)
  | @node path v hplain hchildren ih =>
      by_cases htodo : todo' path
      · exact .todo htodo
      refine .node hplain fun token c hc => ?_
      refine ih token c hc fun w hw hpath => ?_
      rcases List.prefix_concat_iff.mp hpath with heq | habove'
      · exact heq
      · exact absurd (habove w hw habove' ▸ hw) htodo

/-- A covered node stays covered when a covered value takes the place of a node in it. -/
theorem put {r : Path} {x : Value} (h : Covered markers done todo path v)
    (hwell : v.WellFormed) (hn : (v.node? r).isSome = true)
    (hx : Covered markers done' todo' (path ++ r) x)
    (hdone : ∀ c, ¬ path ++ r <+: c → done c → done' c)
    (htodo : ∀ c, ¬ path ++ r <+: c → todo c → todo' c) :
    Covered markers done' todo' path (v.put r x) := by
  induction r generalizing path v with
  | nil =>
      rw [List.append_nil] at hx
      simpa using hx
  | cons token r ih =>
      have hproper : ¬ path ++ token :: r <+: path := fun hfront => by
        have := hfront.length_le
        simp at this
      cases h with
      | done h => exact .done (hdone path hproper h)
      | todo h => exact .todo (htodo path hproper h)
      | node hplain hchildren =>
          rw [Value.node?_cons] at hn
          cases hc : v.child? token with
          | none => rw [hc] at hn; exact absurd hn (by simp)
          | some c =>
              rw [hc, Option.bind_some] at hn
              rw [Value.put_cons_of_child? hc]
              have hhead := Value.head_setChild hc (c.put r x)
              have hsplit : path ++ token :: r = path.child token ++ r :=
                List.append_cons path token r
              have hbeside : ∀ {other c}, token ≠ other → path.child other <+: c →
                  ¬ path ++ token :: r <+: c := by
                intro other c hne hother hself
                rw [hsplit] at hself
                exact hne (Path.child_inj_of_prefix ((List.prefix_append _ r).trans hself) hother)
              refine .node (by rwa [isDirective_of_head_eq hhead]) fun other d hd => ?_
              by_cases hne : token = other
              · subst hne
                rw [Value.child?_setChild_self hc] at hd
                obtain rfl := Option.some.inj hd
                rw [hsplit] at hx hdone htodo
                exact ih (hchildren token c hc) (hwell.of_child? hc) hn hx hdone htodo
              · rw [Value.child?_setChild_of_ne v hne] at hd
                exact (hchildren other d hd).mono (fun c hpath => hdone c (hbeside hne hpath))
                  fun r' _ => htodo _ (hbeside hne (List.prefix_append _ r'))

/-- Above every directive there is a path that is done or still to be looked through. -/
theorem exists_above (h : Covered markers done todo path v) {r : Path} {d : Value}
    (hn : v.node? r = some d) (hd : isDirective markers d = true) :
    ∃ c, (done c ∨ todo c) ∧ path <+: c ∧ c <+: path ++ r := by
  induction r generalizing path v with
  | nil =>
      rw [Value.node?_nil] at hn
      obtain rfl := Option.some.inj hn
      rw [List.append_nil]
      cases h with
      | done h => exact ⟨path, .inl h, List.prefix_refl path, List.prefix_refl path⟩
      | todo h => exact ⟨path, .inr h, List.prefix_refl path, List.prefix_refl path⟩
      | node hplain hchildren => rw [hplain] at hd; exact absurd hd (by simp)
  | cons token r ih =>
      cases h with
      | done h => exact ⟨path, .inl h, List.prefix_refl path, List.prefix_append path _⟩
      | todo h => exact ⟨path, .inr h, List.prefix_refl path, List.prefix_append path _⟩
      | node hplain hchildren =>
          rw [Value.node?_cons] at hn
          obtain ⟨c, hc, hn⟩ := Option.bind_eq_some_iff.mp hn
          obtain ⟨above, habove, hlow, hhigh⟩ := ih (hchildren token c hc) hn
          refine ⟨above, habove, Path.prefix_of_child_prefix hlow, ?_⟩
          rwa [List.append_cons path token r]

/-- Where there is a path that is still to be looked through above every directive, all of them are
covered. -/
theorem of_above (h : ∀ r d, v.node? r = some d → isDirective markers d = true →
    ∃ c, todo c ∧ path <+: c ∧ c <+: path ++ r) : Covered markers done todo path v := by
  induction v using Value.entries_induction generalizing path with
  | node v ih =>
      by_cases htodo : todo path
      · exact .todo htodo
      have hne : ∀ {c}, todo c → path ≠ c := fun hc heq => htodo (heq ▸ hc)
      refine .node (Bool.eq_false_iff.mpr fun hd => ?_) fun token c hc => ?_
      · obtain ⟨c, hc, hlow, hhigh⟩ := h [] v (Value.node?_nil v) hd
        exact hne hc (Path.prefix_antisymm hlow (by rwa [List.append_nil] at hhigh))
      · refine ih (token, c) (Value.mem_entries_of_child? hc) fun r d hn hd => ?_
        obtain ⟨w, hw, hlow, hhigh⟩ :=
          h (token :: r) d (by rw [Value.node?_cons, hc, Option.bind_some, hn]) hd
        refine ⟨w, hw, ?_, by rwa [List.append_cons path token r] at hhigh⟩
        obtain ⟨s, rfl⟩ := hlow
        cases s with
        | nil => exact absurd (List.append_nil path).symm (hne hw)
        | cons next s =>
            rw [List.prefix_append_right_inj, List.cons_prefix_cons] at hhigh
            rw [hhigh.1, List.append_cons]
            exact List.prefix_append _ s

/-- With nothing left to be looked through, what is done covers every directive. -/
theorem of_directive (h : Covered markers done (fun _ => False) path v) {r : Path} {d : Value}
    (hn : v.node? r = some d) (hd : isDirective markers d = true) :
    ∃ c, done c ∧ path <+: c ∧ c <+: path ++ r := by
  obtain ⟨c, hdone | hnothing, hwithin⟩ := h.exists_above hn hd
  · exact ⟨c, hdone, hwithin⟩
  · exact absurd hnothing not_false

end Covered

/-! ### Looking through a node -/

variable {μ : Type} {workshop : Workshop μ} {Inv : Progress μ → Prop} {p q : Progress μ}
  {path : Path} {b : Bool} {es : List (String × Value)}

/-- Covered by what holds its value for good and, if something is to be looked through again, by
what is noted for later. -/
abbrev CoveredBy (workshop : Workshop μ) (p : Progress μ) (again : Bool) : Path → Value → Prop :=
  Covered (Handler.markers workshop.handlers) (· ∈ p.completed) fun c =>
    again = true ∧ c ∈ p.revisit

/-- Looking through entries leaves the other children of the node alone. -/
theorem scanFields_beside (hK : Kept workshop Inv)
    (h : scanFields workshop path es p = some (.ok b, q)) (hp : Inv p) {token : String}
    (htoken : token ∉ Entries.keys es) :
    q.document.content.node? (path.child token) = p.document.content.node? (path.child token) ∧
      ∀ c, path.child token <+: c →
        (c ∈ q.completed ↔ c ∈ p.completed) ∧ (c ∈ p.revisit → c ∈ q.revisit) := by
  induction es generalizing p b with
  | nil =>
      obtain ⟨-, rfl⟩ := scanFields_nil_eq_ok.mp h
      exact ⟨rfl, fun c _ => ⟨Iff.rfl, id⟩⟩
  | cons e es ih =>
      obtain ⟨here, there, r, hhere, hthere, -⟩ := scanFields_cons_eq_ok.mp h
      obtain ⟨hr, hmoved⟩ := hK.scan hhere hp
      have hne : e.1 ≠ token := fun heq => htoken (heq ▸ List.mem_cons_self)
      have hbeside : ∀ c, path.child token <+: c → ¬ path.child e.1 <+: c :=
        fun c htoken he => hne (Path.child_inj_of_prefix he htoken)
      obtain ⟨hnode, hrest⟩ := ih hthere hr fun hmem => htoken (List.mem_cons_of_mem _ hmem)
      refine ⟨hnode.trans (hmoved.node?_beside (hbeside _ (List.prefix_refl _)) ?_), fun c hc => ?_⟩
      · intro hfront
        exact hne (Path.child_inj_of_prefix (List.prefix_refl _) hfront)
      · obtain ⟨hcompleted, hrevisit⟩ := hrest c hc
        obtain ⟨extra, hextra, -⟩ := hmoved.revisit
        refine ⟨hcompleted.trans (hmoved.completed c (hbeside c hc)), fun hmem => hrevisit ?_⟩
        rw [hextra]
        exact List.mem_append_right extra hmem

/-- Looking through entries keeps the head of the node. -/
theorem scanFields_head (hK : Kept workshop Inv)
    (h : scanFields workshop path es p = some (.ok b, q)) (hp : Inv p) {v : Value}
    (hn : p.document.content.node? path = some v) :
    ∃ w, q.document.content.node? path = some w ∧ w.head = v.head := by
  induction es generalizing p b v with
  | nil =>
      obtain ⟨-, rfl⟩ := scanFields_nil_eq_ok.mp h
      exact ⟨v, hn, rfl⟩
  | cons e es ih =>
      obtain ⟨here, there, r, hhere, hthere, -⟩ := scanFields_cons_eq_ok.mp h
      obtain ⟨hr, hmoved⟩ := hK.scan hhere hp
      obtain ⟨x, hx⟩ := hmoved.content
      have hproper : ¬ path.child e.1 <+: path := fun hfront => by
        have := hfront.length_le
        simp [Path.child] at this
      obtain ⟨u, hu, huhead⟩ := Value.head_node?_put hproper hn x
      obtain ⟨w, hw, hwhead⟩ := ih hthere hr (hx ▸ hu)
      exact ⟨w, hw, hwhead.trans huhead⟩

/-- What happens below one of some children leaves the others as they were. -/
theorem Moved.others {e : String × Value} (h : Moved (path.child e.1) p q)
    (hdistinct : Entries.Distinct (e :: es))
    (hes : ∀ f ∈ e :: es, p.document.content.node? (path.child f.1) = some f.2) :
    ∀ f ∈ es, q.document.content.node? (path.child f.1) = some f.2 := by
  intro f hf
  have hne : e.1 ≠ f.1 := fun heq =>
    (List.nodup_cons.mp hdistinct).1 (heq ▸ List.mem_map.mpr ⟨f, hf, rfl⟩)
  rw [← hes f (List.mem_cons_of_mem _ hf)]
  exact h.node?_beside
    (fun hfront => hne (Path.child_inj_of_prefix hfront (List.prefix_refl _)))
    fun hfront => hne (Path.child_inj_of_prefix (List.prefix_refl _) hfront)

/-- If looking through each of some entries covers it, looking through all of them covers all. -/
theorem scanFields_covers_entries (hK : Kept workshop Inv)
    (hscan : ∀ e ∈ es, ∀ path p b q, scan workshop path e.2 p = some (.ok b, q) → Inv p →
      p.document.content.node? path = some e.2 →
      ∃ w, q.document.content.node? path = some w ∧ CoveredBy workshop q b path w)
    (hdistinct : Entries.Distinct es)
    (h : scanFields workshop path es p = some (.ok b, q)) (hp : Inv p)
    (hes : ∀ e ∈ es, p.document.content.node? (path.child e.1) = some e.2) :
    ∀ e ∈ es, ∃ w, q.document.content.node? (path.child e.1) = some w ∧
      CoveredBy workshop q b (path.child e.1) w := by
  induction es generalizing p b with
  | nil => exact fun e he => absurd he List.not_mem_nil
  | cons e es ih =>
      obtain ⟨here, there, r, hhere, hthere, rfl⟩ := scanFields_cons_eq_ok.mp h
      obtain ⟨hr, hmoved⟩ := hK.scan hhere hp
      have hnot : e.1 ∉ Entries.keys es := (List.nodup_cons.mp hdistinct).1
      obtain ⟨hnode, hrest⟩ := scanFields_beside hK hthere hr hnot
      refine List.forall_mem_cons.mpr ⟨?_, fun f hf => ?_⟩
      · obtain ⟨w, hw, hcovered⟩ :=
          hscan e List.mem_cons_self _ _ _ _ hhere hp (hes e List.mem_cons_self)
        refine ⟨w, hnode.trans hw, hcovered.mono (fun c hc => (hrest c hc).1.mpr) ?_⟩
        rintro s - ⟨rfl, hmem⟩
        exact ⟨rfl, (hrest _ (List.prefix_append _ s)).2 hmem⟩
      · obtain ⟨w, hw, hcovered⟩ := ih (fun e he => hscan e (List.mem_cons_of_mem _ he))
          hdistinct.of_cons hthere hr (hmoved.others hdistinct hes) f hf
        refine ⟨w, hw, hcovered.mono (fun _ _ hc => hc) ?_⟩
        rintro s - ⟨rfl, hmem⟩
        exact ⟨Bool.or_true here, hmem⟩

/-- If looking through each entry of a node covers it, looking through all of them covers every
child of the node, whose head stays. -/
theorem scanFields_covers_of_scan (hK : Kept workshop Inv) {v : Value}
    (hscan : ∀ e ∈ v.entries, ∀ path p b q, scan workshop path e.2 p = some (.ok b, q) → Inv p →
      p.document.content.node? path = some e.2 →
      ∃ w, q.document.content.node? path = some w ∧ CoveredBy workshop q b path w)
    (h : scanFields workshop path v.entries p = some (.ok b, q)) (hp : Inv p)
    (hn : p.document.content.node? path = some v) :
    ∃ w, q.document.content.node? path = some w ∧ w.head = v.head ∧
      ∀ token c, w.child? token = some c → CoveredBy workshop q b (path.child token) c := by
  have hwell : v.WellFormed := (hK.sound hp).wellFormed.of_node? hn
  have hes := fun e he => Value.node?_child_of_mem_entries hn hwell (e := e) he
  obtain ⟨w, hw, hhead⟩ := scanFields_head hK h hp hn
  have hcovers := scanFields_covers_entries hK hscan hwell.distinct_entries h hp hes
  refine ⟨w, hw, hhead, fun token c hc => ?_⟩
  obtain ⟨d, hd⟩ := Value.exists_child?_of_head_eq hhead hc
  obtain ⟨c', hc', hcovered⟩ := hcovers _ (Value.mem_entries_of_child? hd)
  rw [Value.node?_concat, hw, Option.bind_some, hc] at hc'
  exact Option.some.inj hc' ▸ hcovered

/-- What is written in the place of a directive, and is none, is exchanged for it. -/
theorem Written.put {markers : List String} {v : Value} {directive : Fields}
    (h : Written path v p q) (hsound : p.document.Sound) (hcompleted : p.completed = [])
    (hroot : path ≠ []) (hn : p.document.content.node? path = some (.map directive))
    (hdirective : isDirective markers (.map directive) = true) (hv : v.WellFormed)
    (hplain : isDirective markers v = false) :
    q.completed = [] ∧ q.changed = true ∧
      q.document.content = p.document.content.put path v := by
  cases h with
  | @unneeded current hget hsame =>
      obtain rfl := Option.some.inj (hn.symm.trans ((Store.get_plain_eq_ok_iff hsound).mp hget))
      rw [isDirective_of_same hsame hdirective] at hplain
      exact absurd hplain (by simp)
  | done hupdate =>
      exact ⟨by simp only [hcompleted, List.filter_nil], rfl,
        Store.content_update_plain hsound hroot hn hv hupdate⟩

/-- A directive that is answered with a value that is none is exchanged for the value. -/
theorem Settled.put {markers : List String} {v : Value} {directive : Fields}
    (h : Settled workshop path p (.success v) b q) (hsound : p.document.Sound)
    (hcompleted : p.completed = []) (hroot : path ≠ [])
    (hn : p.document.content.node? path = some (.map directive))
    (hdirective : isDirective markers (.map directive) = true) (hv : v.WellFormed)
    (hplain : isDirective markers v = false) :
    Effect path p b q ∧ q.completed = [] ∧ q.changed = true ∧
      q.document.content = p.document.content.put path v := by
  cases h with
  | expanded hcontainer hwrite =>
      exact ⟨.expanded hv hcontainer hwrite,
        hwrite.put hsound hcompleted hroot hn hdirective hv hplain⟩
  | replaced hscalar hwrite =>
      exact ⟨.replaced hv hscalar hwrite,
        hwrite.put hsound hcompleted hroot hn hdirective hv hplain⟩

/-- What handing a directive over leaves at its node: it is noted, or completed, or a scalar. -/
theorem Effect.leaves (h : Effect path p b q) (hsound : p.document.Sound) (hroot : path ≠ [])
    {old : Value} (hn : p.document.content.node? path = some old) :
    ∃ w, q.document.content.node? path = some w ∧
      (b = true ∧ q.revisit = path :: p.revisit ∨
        q.revisit = p.revisit ∧ (path ∈ q.completed ∨ w.isContainer = false)) := by
  obtain ⟨x, hx⟩ := (h.moved hsound hroot hn).content
  have hself : q.document.content.node? path = some x := by
    rw [hx, Value.node?_put_self (Option.isSome_of_eq_some hn)]
  refine ⟨x, hself, ?_⟩
  cases h with
  | retry => exact .inl ⟨rfl, rfl⟩
  | expanded hv hcontainer hwrite => exact .inl ⟨rfl, congrArg (path :: ·) hwrite.revisit_eq⟩
  | completed hv hwrite =>
      exact .inr ⟨hwrite.revisit_eq, .inl (Progress.mem_completed_finishing _ _)⟩
  | replaced hv hscalar hwrite =>
      obtain ⟨w, hw, hor, -⟩ := hwrite.content_eq hsound hroot hn hv
      have hself' : q.document.content.node? path = some w := by
        rw [hw, Value.node?_put_self (Option.isSome_of_eq_some hn)]
      obtain rfl := Option.some.inj (hself.symm.trans hself')
      refine .inr ⟨hwrite.revisit_eq, .inr ?_⟩
      rcases hor with rfl | ⟨hsame, rfl⟩
      · exact hscalar
      · rw [Value.isContainer_of_same hsame, hscalar]

/-- A directive that is handed over is answered, since some handler takes it. -/
theorem Kept.exists_effect (hK : Kept workshop Inv) (htaking : Handler.Taking workshop.handlers)
    (hroot : path ≠ []) (hp : Inv p) {v : Value} (hn : p.document.content.node? path = some v)
    (hdirective : isDirective (Handler.markers workshop.handlers) v = true)
    (h : Invoked workshop path p b q) : ∃ memory, Effect path { p with memory } b q := by
  refine (hK.effect hroot hp h).resolve_left fun ⟨_, _, hnone⟩ => ?_
  cases v with
  | map directive =>
      exact htaking directive hdirective
        (hnone directive ((Store.get_plain_eq_ok_iff (hK.sound hp)).mpr hn))
  | _ => exact absurd hdirective (by simp [isDirective])

/-- **Looking through a node covers it**, and if nothing is to be looked through again, then with
what holds its value for good alone. -/
theorem scan_covers (hK : Kept workshop Inv) (htaking : Handler.Taking workshop.handlers)
    (v : Value) : ∀ path p b q, scan workshop path v p = some (.ok b, q) → Inv p →
      p.document.content.node? path = some v →
      ∃ w, q.document.content.node? path = some w ∧ CoveredBy workshop q b path w := by
  induction v using Value.entries_induction with
  | node v ih =>
      intro path p b q h hp hn
      cases Scanned.of_scan h with
      | completed hdone => exact ⟨v, hn, .done hdone⟩
      | plain hplain hscan =>
          obtain ⟨w, hw, hhead, hchildren⟩ := scanFields_covers_of_scan hK ih hscan hp hn
          exact ⟨w, hw, .node (by rwa [isDirective_of_head_eq hhead]) hchildren⟩
      | waiting hdirective hroot hscan =>
          obtain ⟨w, hw, -⟩ := scanFields_head hK hscan hp hn
          exact ⟨w, hw, .todo ⟨rfl, List.mem_cons_self⟩⟩
      | @invoked b r q hdirective hroot hscan hinvoke =>
          obtain ⟨w, hw, hhead⟩ := scanFields_head hK hscan hp hn
          have hr := (hK.scanFields hscan hp).1
          rw [← isDirective_of_head_eq hhead] at hdirective
          obtain ⟨memory, heffect⟩ := hK.exists_effect htaking hroot hr hw hdirective hinvoke
          have hsound := hK.sound hr
          obtain ⟨u, hu, ⟨rfl, hnoted⟩ | ⟨-, hcompleted | hscalar⟩⟩ :=
            heffect.leaves hsound hroot hw
          · exact ⟨u, hu, .todo ⟨rfl, hnoted ▸ List.mem_cons_self⟩⟩
          · exact ⟨u, hu, .done hcompleted⟩
          · exact ⟨u, hu, .scalar hscalar⟩

/-- Looking through the entries of a node covers its children. -/
theorem scanFields_covers (hK : Kept workshop Inv) (htaking : Handler.Taking workshop.handlers)
    {v : Value} (h : scanFields workshop path v.entries p = some (.ok b, q)) (hp : Inv p)
    (hn : p.document.content.node? path = some v) :
    ∃ w, q.document.content.node? path = some w ∧ w.head = v.head ∧
      ∀ token c, w.child? token = some c → CoveredBy workshop q b (path.child token) c :=
  scanFields_covers_of_scan hK (fun e _ => scan_covers hK htaking e.2) h hp hn

end Composing

end Docweave
