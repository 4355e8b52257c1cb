import Docweave.Proofs.Composing.Passes
import Docweave.Proofs.Store.Agreement

/-!
How composing fails.

The fault of handing a directive over is one of the store or one that tells the node (`Blamed`), and
the document is left as it stood before.  So no pass fails with the fault that composing has come to
a standstill: a standstill in a document of its own is told with the node that brought it in, and
one in the document itself is the verdict after a pass that has come to its end
(`round_eq_unresolvable`).
-/

namespace Docweave

namespace Composing

variable {μ α : Type} {workshop : Workshop μ} {p q : Progress μ} {path : Path} {fault : Fault}
  {worklist : List Path}

/-- The fault comes from reading or writing a node, or tells the node that it is about. -/
inductive Blamed (document : Store) (path : Path) (fault : Fault) : Prop
  | read (h : document.get (.plain path) = .error fault)
  | written {v : Value} (h : document.update (.plain path) v = .error fault)
  | told {source : Fault} (h : fault = .composition (.plain path) source)

/-! ### Handing over -/

theorem write_eq_error {v : Value} (h : write path v p = some (.error fault, q)) :
    q.document = p.document ∧ p.document.update (.plain path) v = .error fault := by
  cases hupdate : p.document.update (.plain path) v with
  | ok document =>
      cases hget : p.document.get (.plain path) with
      | error refusal => simp [write, hget, hupdate] at h
      | ok current =>
          simp only [write, hget, hupdate] at h
          split at h <;> exact absurd h (by simp)
  | error refusal =>
      cases hget : p.document.get (.plain path) with
      | error _ =>
          simp only [write, hget, hupdate, Bool.false_eq_true, if_false] at h
          obtain ⟨rfl, rfl⟩ := Prod.mk.inj (Option.some.inj h) |>.imp Except.error.inj id
          exact ⟨rfl, rfl⟩
      | ok current =>
          simp only [write, hget, hupdate] at h
          split at h
          · exact absurd h (by simp)
          · obtain ⟨rfl, rfl⟩ := Prod.mk.inj (Option.some.inj h) |>.imp Except.error.inj id
            exact ⟨rfl, rfl⟩

theorem remembering_eq_error {act : ExceptT Fault (StateT μ Option) α} :
    remembering path act p = some (.error fault, q) ↔
      ∃ source memory, act p.memory = some (.error source, memory) ∧
        fault = .composition (.plain path) source ∧ q = { p with memory } := by
  constructor
  · intro h
    unfold remembering at h
    split at h
    · exact absurd h (by simp)
    · exact absurd h (by simp)
    · rename_i source memory hact
      obtain ⟨rfl, rfl⟩ := Prod.mk.inj (Option.some.inj h) |>.imp Except.error.inj id
      exact ⟨source, memory, hact, rfl, rfl⟩
  · rintro ⟨source, memory, hact, rfl, rfl⟩
    rw [remembering, hact]

/-- How doing what a handler answers fails: with the write, or before it in a document of its own.
Whatever is done after a value has been written cannot fail. -/
inductive Foundered (workshop : Workshop μ) (path : Path) (p : Progress μ) (fault : Fault) :
    Outcome → Progress μ → Prop
  | success {v : Value} {q : Progress μ} (hwrite : write path v p = some (.error fault, q)) :
      Foundered workshop path p fault (.success v) q
  | completed {v : Value} {q : Progress μ} (hwrite : write path v p = some (.error fault, q)) :
      Foundered workshop path p fault (.completed v) q
  | separately {v : Value} {source : Fault} {memory : μ}
      (hseparately : workshop.separately p.document.backend v p.memory =
        some (.error source, memory))
      (hfault : fault = .composition (.plain path) source) :
      Foundered workshop path p fault (.separate v) { p with memory }
  | composed {v w : Value} {memory : μ} {q : Progress μ}
      (hseparately : workshop.separately p.document.backend v p.memory = some (.ok w, memory))
      (hwrite : write path w { p with memory } = some (.error fault, q)) :
      Foundered workshop path p fault (.separate v) q

theorem Foundered.of_settle {outcome : Outcome}
    (h : settle workshop path outcome p = some (.error fault, q)) :
    Foundered workshop path p fault outcome q := by
  cases outcome with
  | retry => exact absurd h (by simp [settle, again])
  | success v =>
      obtain hwrite | ⟨⟨⟩, r, -, h⟩ := bind_eq_error.mp h
      · exact .success hwrite
      · rw [ite_apply] at h
        split at h
        · exact absurd h (by simp [again])
        · exact absurd (Option.some.inj h) (by simp)
  | completed v =>
      obtain hwrite | ⟨⟨⟩, r, -, h⟩ := bind_eq_error.mp h
      · exact .completed hwrite
      · exact absurd h (by simp [complete])
  | separate v =>
      obtain hget | ⟨_, _, hget, h⟩ := bind_eq_error.mp h
      · exact absurd (Option.some.inj hget) (by simp)
      obtain ⟨rfl, rfl⟩ := get_eq_ok.mp hget
      obtain hremembering | ⟨w, r, hremembering, h⟩ := bind_eq_error.mp h
      · obtain ⟨source, memory, hseparately, hfault, rfl⟩ := remembering_eq_error.mp hremembering
        exact .separately hseparately hfault
      obtain ⟨memory, hseparately, rfl⟩ := remembering_eq_ok.mp hremembering
      obtain hwrite | ⟨⟨⟩, r, -, h⟩ := bind_eq_error.mp h
      · exact .composed hseparately hwrite
      · exact absurd h (by simp [complete])

theorem Foundered.blamed {outcome : Outcome} (h : Foundered workshop path p fault outcome q) :
    q.document = p.document ∧ Blamed p.document path fault := by
  cases h with
  | success hwrite => exact (write_eq_error hwrite).imp id .written
  | completed hwrite => exact (write_eq_error hwrite).imp id .written
  | separately _ hfault => exact ⟨rfl, .told hfault⟩
  | composed _ hwrite => exact (write_eq_error hwrite).imp id .written

/-- A directive whose handler fails is left as it is. -/
theorem invoke_eq_error (h : invoke workshop path p = some (.error fault, q)) :
    q.document = p.document ∧ Blamed p.document path fault := by
  simp only [invoke] at h
  split at h
  · obtain ⟨rfl, rfl⟩ := Prod.mk.inj (Option.some.inj h) |>.imp Except.error.inj id
    exact ⟨rfl, .read ‹_›⟩
  split at h
  · split at h
    · exact absurd h (by simp)
    · split at h
      · exact (Foundered.of_settle h).blamed
      · obtain ⟨rfl, rfl⟩ := Prod.mk.inj (Option.some.inj h) |>.imp Except.error.inj id
        exact ⟨rfl, .told rfl⟩
  · exact absurd h (by simp)

/-! ### Passes -/

theorem Blamed.kind_ne {document : Store} (h : Blamed document path fault) :
    fault.kind ≠ .unresolvable := by
  intro hkind
  cases h with
  | read h =>
      rcases Store.kind_of_get h with h | h <;> exact absurd (h.symm.trans hkind) (by decide)
  | written h =>
      rcases Store.kind_of_update h with h | h <;> exact absurd (h.symm.trans hkind) (by decide)
  | told h =>
      subst h
      exact absurd hkind (by simp [Fault.kind])

theorem kind_ne_of_scanFields {es : List (String × Value)}
    (hscan : ∀ e ∈ es, ∀ path p q, scan workshop.handover path e.2 p = some (.error fault, q) →
      fault.kind ≠ .unresolvable)
    (h : scanFields workshop path es p = some (.error fault, q)) : fault.kind ≠ .unresolvable := by
  induction es generalizing p with
  | nil =>
      rw [scanFields] at h
      exact absurd (Option.some.inj h) (by simp)
  | cons e es ih =>
      obtain ⟨token, v⟩ := e
      obtain ⟨he, hes⟩ := List.forall_mem_cons.mp hscan
      rw [scanFields] at h
      obtain hhere | ⟨here, r, -, h⟩ := bind_eq_error.mp h
      · exact he _ _ _ hhere
      obtain hthere | ⟨there, r, -, h⟩ := bind_eq_error.mp h
      · exact ih hes hthere
      · exact absurd (Option.some.inj h) (by simp)

theorem kind_ne_of_scan (v : Value) : ∀ path p q,
    scan workshop.handover path v p = some (.error fault, q) → fault.kind ≠ .unresolvable := by
  induction v using Value.entries_induction with
  | node v ih =>
      intro path p q h
      rw [scan_eq] at h
      split at h
      · exact absurd h (by simp)
      split at h
      · split at h
        · obtain rfl := Except.error.inj (Prod.mk.inj (Option.some.inj h)).1
          exact fun hkind => absurd hkind (by decide)
        obtain hfields | ⟨inside, r, -, h⟩ := bind_eq_error.mp h
        · exact kind_ne_of_scanFields ih hfields
        · rw [ite_apply] at h
          cases inside with
          | true => exact absurd h (by simp [again])
          | false => exact (invoke_eq_error h).2.kind_ne
      · exact kind_ne_of_scanFields ih h

/-- **No pass fails with a standstill.** -/
theorem kind_ne_of_pass (h : pass workshop worklist p = some (.error fault, q)) :
    fault.kind ≠ .unresolvable := by
  induction worklist generalizing p with
  | nil => exact absurd (Option.some.inj h) (by simp)
  | cons path rest ih =>
      rw [pass] at h
      obtain hget | ⟨_, _, hget, h⟩ := bind_eq_error.mp h
      · exact absurd (Option.some.inj hget) (by simp)
      obtain ⟨rfl, rfl⟩ := get_eq_ok.mp hget
      rw [ite_apply] at h
      split at h
      · obtain hlift | ⟨v, _, -, h⟩ := bind_eq_error.mp h
        · cases hread : p.document.get (.plain path) with
          | ok v =>
              rw [hread] at hlift
              exact absurd (Option.some.inj hlift) (by simp)
          | error refusal =>
              rw [hread] at hlift
              obtain rfl := Except.error.inj (Prod.mk.inj (Option.some.inj hlift)).1
              exact Blamed.kind_ne (.read hread)
        obtain hscan | ⟨b, r, -, h⟩ := bind_eq_error.mp h
        · exact kind_ne_of_scan v _ _ _ hscan
        · exact ih h
      · exact ih h

/-- A standstill is the verdict after a pass that has written nothing and has left its worklist. -/
theorem round_eq_unresolvable {nodes : List Leftover}
    (h : round workshop worklist p = some (.ended (.error (.unresolvable nodes)) q)) :
    Passed workshop worklist p.fresh q ∧ leftOver q = worklist ∧ worklist ≠ [] ∧
      q.changed = false ∧ nodes = leftovers q.document worklist := by
  rcases hpass : pass workshop worklist p.fresh with _ | ⟨fault | _, r⟩
  · rw [round_of_none hpass] at h
    exact absurd h (by simp)
  · rw [round_of_fault hpass] at h
    obtain ⟨hfault, -⟩ := Round.ended.inj (Option.some.inj h)
    exact absurd (Except.error.inj hfault ▸ rfl) (kind_ne_of_pass hpass)
  · rw [round_of_pass hpass] at h
    simp only [verdict, Option.some.injEq] at h
    split at h
    · exact absurd h (by simp)
    · rename_i hne
      split at h
      · rename_i hstall
        obtain ⟨hnodes, rfl⟩ := Round.ended.inj h
        obtain ⟨hsame, hchanged⟩ := Bool.and_eq_true_iff.mp hstall
        have hleft : leftOver r = worklist := beq_iff_eq.mp hsame
        refine ⟨.of_pass hpass, hleft, fun heq => hne ?_, Bool.not_eq_true' _ |>.mp hchanged, ?_⟩
        · exact List.isEmpty_iff.mpr (hleft.trans heq)
        · rw [← hleft]
          exact (Fault.unresolvable.inj (Except.error.inj hnodes)).symm
      · exact absurd h (by simp)

/-- A pass that writes nothing and leaves its worklist is a standstill. -/
theorem verdict_of_stall (hleft : leftOver p = worklist) (hne : worklist ≠ [])
    (hchanged : p.changed = false) :
    verdict worklist p =
      .ended (.error (.unresolvable (leftovers p.document worklist))) p := by
  subst hleft
  have hnonempty : ¬ (Worklist.normalize p.revisit.reverse).isEmpty = true :=
    fun hempty => hne (List.isEmpty_iff.mp hempty)
  simp only [leftOver, verdict, hnonempty, hchanged, beq_self_eq_true, Bool.not_false,
    Bool.and_self, Bool.false_eq_true, if_true, if_false]

/-- A pass that leaves another worklist goes on. -/
theorem verdict_of_ne (hne : leftOver p ≠ []) (hother : leftOver p ≠ worklist) :
    verdict worklist p = .next (leftOver p) p := by
  have hnonempty : ¬ (Worklist.normalize p.revisit.reverse).isEmpty = true :=
    fun hempty => hne (List.isEmpty_iff.mp hempty)
  have hdiffers : (Worklist.normalize p.revisit.reverse == worklist) = false :=
    beq_eq_false_iff_ne.mpr hother
  simp only [verdict, hnonempty, hdiffers, Bool.false_and, Bool.false_eq_true, if_false]
  rfl

end Composing

end Docweave
