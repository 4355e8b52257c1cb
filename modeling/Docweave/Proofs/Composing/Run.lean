import Docweave.Composer
import Docweave.Proofs.Children

/-!
What composing does between its beginning and an end without a fault.

Every action of composing either never ends, ends in a fault, which ends the whole of it, or ends
with an answer.  The lemmas here say what is the case when an action ends with an answer: which of
its branches it took, and which actions it was put together from.  `Scanned`, `Invoked` and
`Written` are these cases for looking through a node, for handing over a directive and for
writing a value.

A relation between the states before and after that nothing breaks which happens at or below a
node is a `Frame`; what holds of the two things that change a state, noting a node for later and
handing a directive to its handler, then holds of looking through a whole document.
-/

namespace Docweave

/-- The state with a node noted for later. -/
def Progress.noting {μ : Type} (progress : Progress μ) (path : Path) : Progress μ :=
  { progress with revisit := path :: progress.revisit }

/-- The state with a node that holds its value for good. -/
def Progress.finishing {μ : Type} (progress : Progress μ) (path : Path) : Progress μ :=
  { progress with
    completed :=
      if progress.completed.contains path then progress.completed
      else path :: progress.completed }

theorem Progress.mem_completed_finishing {μ : Type} (progress : Progress μ) (path : Path) :
    path ∈ (progress.finishing path).completed := by
  simp only [finishing]
  split
  · exact List.contains_iff_mem.mp ‹_›
  · exact List.mem_cons_self

namespace Composing

variable {μ α β : Type} {workshop : Workshop μ} {handover : Handover μ} {p p' : Progress μ}
  {path : Path}

theorem bind_eq_ok {x : Composing μ α} {f : α → Composing μ β} {b : β} :
    (x >>= f) p = some (.ok b, p') ↔
      ∃ a q, x p = some (.ok a, q) ∧ f a q = some (.ok b, p') := by
  show (x p).bind _ = _ ↔ _
  rcases x p with _ | ⟨fault | a, q⟩
  · simp
  · constructor
    · intro h
      have herror : some (Except.error fault, q) = some (.ok b, p') := h
      simp at herror
    · rintro ⟨a, q', hx, -⟩
      simp at hx
  · constructor
    · intro h
      exact ⟨a, q, rfl, h⟩
    · rintro ⟨a', q', hx, h⟩
      obtain ⟨hok, rfl⟩ := Prod.mk.inj (Option.some.inj hx)
      obtain rfl := Except.ok.inj hok
      exact h

theorem bind_eq_error {x : Composing μ α} {f : α → Composing μ β} {fault : Fault} :
    (x >>= f) p = some (.error fault, p') ↔
      x p = some (.error fault, p') ∨
        ∃ a q, x p = some (.ok a, q) ∧ f a q = some (.error fault, p') := by
  show (x p).bind _ = _ ↔ _
  rcases x p with _ | ⟨first | a, q⟩
  · simp
  · show some (Except.error first, q) = some (Except.error fault, p') ↔ _
    simp
  · show f a q = some (Except.error fault, p') ↔ _
    simp

/-- An action followed by another fails, or comes to the other. -/
theorem bind_eq_some {x : Composing μ α} {f : α → Composing μ β} {result : Except Fault β}
    (h : (x >>= f) p = some (result, p')) :
    (∃ fault, x p = some (.error fault, p')) ∨
      ∃ a q, x p = some (.ok a, q) ∧ f a q = some (result, p') := by
  cases result with
  | ok b => exact .inr (bind_eq_ok.mp h)
  | error fault => exact (bind_eq_error.mp h).imp_left fun hx => ⟨fault, hx⟩

theorem pure_eq_ok {a b : α} :
    (pure a : Composing μ α) p = some (.ok b, p') ↔ a = b ∧ p = p' := by
  show some (Except.ok a, p) = _ ↔ _
  simp

theorem get_eq_ok {q : Progress μ} :
    (get : Composing μ (Progress μ)) p = some (.ok q, p') ↔ p = q ∧ p = p' := by
  show some (Except.ok p, p) = _ ↔ _
  simp

theorem ite_apply {c : Prop} [Decidable c] (x y : Composing μ α) :
    (if c then x else y) p = if c then x p else y p := by
  split <;> rfl

theorem remembering_eq_ok {act : ExceptT Fault (StateT μ Option) α} {a : α} :
    remembering path act p = some (.ok a, p') ↔
      ∃ memory, act p.memory = some (.ok a, memory) ∧ p' = { p with memory } := by
  unfold remembering
  rcases act p.memory with _ | ⟨fault | b, memory⟩
  · simp
  · simp
  · simp only [Option.some.injEq, Prod.mk.injEq, Except.ok.injEq]
    constructor
    · rintro ⟨rfl, rfl⟩
      exact ⟨memory, ⟨rfl, rfl⟩, rfl⟩
    · rintro ⟨_, ⟨rfl, rfl⟩, rfl⟩
      exact ⟨rfl, rfl⟩

/-! ### Writing and handing over -/

/-- How writing a value to a node ends. -/
inductive Written (path : Path) (v : Value) (p : Progress μ) : Progress μ → Prop
  /-- The value is there already. -/
  | unneeded {current : Value} (hget : p.document.get (.plain path) = .ok current)
      (hsame : current.same v = true) : Written path v p p
  /-- The document changes. -/
  | done {document : Store} (hupdate : p.document.update (.plain path) v = .ok document) :
      Written path v p { p with
        document
        completed := p.completed.filter fun done => !done.isWithin path
        changed := true }

theorem Written.memory_eq {v : Value} (h : Written path v p p') : p'.memory = p.memory := by
  cases h <;> rfl

theorem Written.revisit_eq {v : Value} (h : Written path v p p') : p'.revisit = p.revisit := by
  cases h <;> rfl

theorem Written.of_write {v : Value} (h : write path v p = some (.ok (), p')) :
    Written path v p p' := by
  cases hupdate : p.document.update (.plain path) v with
  | error fault =>
      cases hget : p.document.get (.plain path) with
      | error fault => simp [write, hget, hupdate] at h
      | ok current =>
          simp only [write, hget, hupdate] at h
          split at h
          · obtain rfl := (Prod.mk.inj (Option.some.inj h)).2
            exact .unneeded hget ‹_›
          · exact absurd h (by simp)
  | ok document =>
      cases hget : p.document.get (.plain path) with
      | error fault =>
          simp only [write, hget, hupdate, Bool.false_eq_true, if_false] at h
          obtain rfl := (Prod.mk.inj (Option.some.inj h)).2
          exact .done hupdate
      | ok current =>
          simp only [write, hget, hupdate] at h
          split at h <;> obtain rfl := (Prod.mk.inj (Option.some.inj h)).2
          · exact .unneeded hget ‹_›
          · exact .done hupdate

/-- How doing what a handler answers ends. -/
inductive Settled (workshop : Workshop μ) (path : Path) (p : Progress μ) :
    Outcome → Bool → Progress μ → Prop
  | retry : Settled workshop path p .retry true (p.noting path)
  | expanded {v : Value} {q : Progress μ} (hv : v.isContainer = true)
      (hwrite : Written path v p q) :
      Settled workshop path p (.success v) true (q.noting path)
  | replaced {v : Value} {q : Progress μ} (hv : v.isContainer = false)
      (hwrite : Written path v p q) : Settled workshop path p (.success v) false q
  | completed {v : Value} {q : Progress μ} (hwrite : Written path v p q) :
      Settled workshop path p (.completed v) false (q.finishing path)
  | separate {v w : Value} {memory : μ} {q : Progress μ}
      (hseparately : workshop.separately p.document.backend v p.memory = some (.ok w, memory))
      (hwrite : Written path w { p with memory } q) :
      Settled workshop path p (.separate v) false (q.finishing path)

theorem Settled.of_settle {outcome : Outcome} {b : Bool}
    (h : settle workshop path outcome p = some (.ok b, p')) :
    Settled workshop path p outcome b p' := by
  cases outcome with
  | retry =>
      obtain ⟨rfl, rfl⟩ := Prod.mk.inj (Option.some.inj h) |>.imp Except.ok.inj id
      exact .retry
  | success v =>
      obtain ⟨⟨⟩, q, hwrite, h⟩ := bind_eq_ok.mp h
      have hwritten := Written.of_write hwrite
      rw [ite_apply] at h
      split at h
      · obtain ⟨rfl, rfl⟩ := Prod.mk.inj (Option.some.inj h) |>.imp Except.ok.inj id
        exact .expanded ‹_› hwritten
      · obtain ⟨rfl, rfl⟩ := pure_eq_ok.mp h
        exact .replaced (Bool.eq_false_iff.mpr ‹_›) hwritten
  | completed v =>
      obtain ⟨⟨⟩, q, hwrite, h⟩ := bind_eq_ok.mp h
      obtain ⟨rfl, rfl⟩ := Prod.mk.inj (Option.some.inj h) |>.imp Except.ok.inj id
      exact .completed (Written.of_write hwrite)
  | separate v =>
      obtain ⟨q, _, hget, h⟩ := bind_eq_ok.mp h
      obtain ⟨rfl, rfl⟩ := get_eq_ok.mp hget
      obtain ⟨w, q, hremembering, h⟩ := bind_eq_ok.mp h
      obtain ⟨⟨⟩, r, hwrite, h⟩ := bind_eq_ok.mp h
      obtain ⟨rfl, rfl⟩ := Prod.mk.inj (Option.some.inj h) |>.imp Except.ok.inj id
      obtain ⟨memory, hseparately, rfl⟩ := remembering_eq_ok.mp hremembering
      exact .separate hseparately (Written.of_write hwrite)

/-- What a handler sees of a state. -/
def contextAt (workshop : Workshop μ) (path : Path) (p : Progress μ) : Context :=
  ⟨p.document, path, Handler.markers workshop.handlers, workshop.setting⟩

/-- Handing a directive over is doing what its handler answers. -/
theorem invoke_of_answer {directive : Fields} {handler : Handler μ} {outcome : Outcome} {memory : μ}
    (hget : p.document.get (.plain path) = .ok (.map directive))
    (hfind : Handler.find? workshop.handlers directive = some handler)
    (hcompose : handler.compose directive (contextAt workshop path p) p.memory =
      (.ok outcome, memory)) :
    invoke workshop path p = settle workshop path outcome { p with memory } := by
  simp only [contextAt] at hcompose
  simp only [invoke, hget, hfind, hcompose]

/-- How handing the directive at a node to its handler ends. -/
inductive Invoked (workshop : Workshop μ) (path : Path) (p : Progress μ) :
    Bool → Progress μ → Prop
  /-- No handler takes what is there. -/
  | untaken {v : Value} (hget : p.document.get (.plain path) = .ok v)
      (hnone : ∀ directive, v = .map directive →
        Handler.find? workshop.handlers directive = none) : Invoked workshop path p false p
  /-- A handler answers, and what it answers is done. -/
  | handled {directive : Fields} {handler : Handler μ} {outcome : Outcome} {memory : μ} {b : Bool}
      {q : Progress μ} (hget : p.document.get (.plain path) = .ok (.map directive))
      (hfind : Handler.find? workshop.handlers directive = some handler)
      (hcompose : handler.compose directive (contextAt workshop path p) p.memory =
        (.ok outcome, memory))
      (hsettle : Settled workshop path { p with memory } outcome b q) :
      Invoked workshop path p b q

theorem Invoked.of_invoke {b : Bool} (h : invoke workshop path p = some (.ok b, p')) :
    Invoked workshop path p b p' := by
  simp only [invoke] at h
  split at h
  · exact absurd h (by simp)
  split at h
  · rename_i directive hget
    split at h
    · obtain ⟨rfl, rfl⟩ := Prod.mk.inj (Option.some.inj h) |>.imp Except.ok.inj id
      refine .untaken hget fun directive' heq => ?_
      obtain rfl := Value.map.inj heq
      assumption
    · split at h
      · exact .handled hget ‹_› ‹_› (Settled.of_settle h)
      · exact absurd h (by simp)
  · rename_i hnot
    obtain ⟨rfl, rfl⟩ := Prod.mk.inj (Option.some.inj h) |>.imp Except.ok.inj id
    exact .untaken ‹_› fun directive heq => absurd heq (hnot directive)

/-! ### Looking through a node -/

theorem scanItems_eq (handover : Handover μ) (path : Path) (i : Nat) (items : List Value) :
    scanItems handover path i items = scanFields handover path (Value.numbered i items) := by
  induction items generalizing i with
  | nil => rw [scanItems, Value.numbered, scanFields]
  | cons v vs ih =>
      rw [scanItems, Value.numbered]
      cases token? i with
      | none => rw [scanFields]
      | some token => rw [scanFields, ih]

/-- What looking through a node is, whatever its value. -/
theorem scan_eq (handover : Handover μ) (path : Path) (v : Value) (p : Progress μ) :
    scan handover path v p =
      if path ∈ p.completed then some (.ok false, p)
      else if isDirective handover.markers v = true then
        if path = [] then some (.error (.refused .root .rootDirective), p)
        else (do
          if ← scanFields handover path v.entries then again path
          else handover.invoke path : Composing μ Bool) p
      else scanFields handover path v.entries p := by
  have hcontains : (p.completed.contains path = true) = (path ∈ p.completed) :=
    propext List.contains_iff_mem
  have hempty : (path.isEmpty = true) = (path = []) := propext List.isEmpty_iff
  cases v with
  | map fields =>
      rw [scan]
      show (if p.completed.contains path = true then (pure false : Composing μ Bool) else _) p = _
      simp only [ite_apply, hcontains, hempty]
      rfl
  | list items =>
      rw [scan]
      show (if p.completed.contains path = true then (pure false : Composing μ Bool) else _) p = _
      rw [ite_apply, scanItems_eq]
      simp only [hcontains]
      rfl
  | _ =>
      show some (Except.ok false, p) = if _ then _ else scanFields handover path [] p
      rw [scanFields]
      exact (ite_self _).symm

/-- Nothing is done to a node that holds its value for good. -/
theorem scan_of_completed (v : Value) (hdone : path ∈ p.completed) :
    scan handover path v p = some (.ok false, p) := by
  rw [scan_eq, if_pos hdone]

/-- Looking through a node that is no directive is looking through its entries. -/
theorem scan_of_plain {v : Value} (hdone : path ∉ p.completed)
    (hplain : isDirective handover.markers v = false) :
    scan handover path v p = scanFields handover path v.entries p := by
  rw [scan_eq, if_neg hdone, if_neg (by rw [hplain]; exact Bool.false_ne_true)]

/-- How looking through a node ends. -/
inductive Scanned (workshop : Workshop μ) (path : Path) (v : Value) (p : Progress μ) :
    Bool → Progress μ → Prop
  /-- The node holds its value for good. -/
  | completed (hdone : path ∈ p.completed) : Scanned workshop path v p false p
  /-- The node is no directive. -/
  | plain {b : Bool} {q : Progress μ}
      (hplain : isDirective (Handler.markers workshop.handlers) v = false)
      (hscan : scanFields workshop path v.entries p = some (.ok b, q)) :
      Scanned workshop path v p b q
  /-- Something inside the directive has to be looked through again. -/
  | waiting {q : Progress μ} (hdirective : isDirective (Handler.markers workshop.handlers) v = true)
      (hroot : path ≠ []) (hscan : scanFields workshop path v.entries p = some (.ok true, q)) :
      Scanned workshop path v p true (q.noting path)
  /-- The directive goes to its handler. -/
  | invoked {b : Bool} {q r : Progress μ}
      (hdirective : isDirective (Handler.markers workshop.handlers) v = true) (hroot : path ≠ [])
      (hscan : scanFields workshop path v.entries p = some (.ok false, q))
      (hinvoke : Invoked workshop path q b r) : Scanned workshop path v p b r

theorem Scanned.of_scan {v : Value} {b : Bool}
    (h : scan workshop path v p = some (.ok b, p')) : Scanned workshop path v p b p' := by
  rw [scan_eq] at h
  split at h
  · obtain ⟨rfl, rfl⟩ := Prod.mk.inj (Option.some.inj h) |>.imp Except.ok.inj id
    exact .completed ‹_›
  split at h
  · split at h
    · exact absurd h (by simp)
    obtain ⟨inside, q, hscan, h⟩ := bind_eq_ok.mp h
    rw [ite_apply] at h
    cases inside with
    | true =>
        obtain ⟨rfl, rfl⟩ := Prod.mk.inj (Option.some.inj h) |>.imp Except.ok.inj id
        exact .waiting ‹_› ‹_› hscan
    | false => exact .invoked ‹_› ‹_› hscan (Invoked.of_invoke h)
  · exact .plain (Bool.eq_false_iff.mpr ‹_›) h

theorem scanFields_cons_eq_ok {e : String × Value} {es : List (String × Value)} {b : Bool} :
    scanFields handover path (e :: es) p = some (.ok b, p') ↔
      ∃ here there q, scan handover (path.child e.1) e.2 p = some (.ok here, q) ∧
        scanFields handover path es q = some (.ok there, p') ∧ b = (here || there) := by
  obtain ⟨token, v⟩ := e
  rw [scanFields]
  constructor
  · intro h
    obtain ⟨here, q, hhere, h⟩ := bind_eq_ok.mp h
    obtain ⟨there, r, hthere, h⟩ := bind_eq_ok.mp h
    obtain ⟨rfl, rfl⟩ := pure_eq_ok.mp h
    exact ⟨here, there, q, hhere, hthere, rfl⟩
  · rintro ⟨here, there, q, hhere, hthere, rfl⟩
    exact bind_eq_ok.mpr ⟨here, q, hhere,
      bind_eq_ok.mpr ⟨there, p', hthere, pure_eq_ok.mpr ⟨rfl, rfl⟩⟩⟩

theorem scanFields_nil_eq_ok {b : Bool} :
    scanFields handover path [] p = some (.ok b, p') ↔ b = false ∧ p' = p := by
  rw [scanFields, pure_eq_ok]
  exact ⟨fun h => ⟨h.1.symm, h.2.symm⟩, fun h => ⟨h.1.symm, h.2.symm⟩⟩

/-! ### Frames -/

/-- A relation between states that stands whatever happens at or below a node. -/
structure Frame (workshop : Workshop μ) (R : Path → Progress μ → Progress μ → Prop) : Prop where
  refl : ∀ path p, R path p p
  trans : ∀ {path p q r}, R path p q → R path q r → R path p r
  /-- What happens below a child happens below the node. -/
  widen : ∀ {path token p q}, R (path.child token) p q → R path p q
  noting : ∀ path p, R path p (p.noting path)
  invoked : ∀ {path p b q}, path ≠ [] → Invoked workshop path p b q → R path p q

namespace Frame

variable {R : Path → Progress μ → Progress μ → Prop}

theorem scanFields_of_scan (hR : Frame workshop R) {es : List (String × Value)}
    (hscan : ∀ e ∈ es, ∀ path p b q, scan workshop path e.2 p = some (.ok b, q) → R path p q)
    {path : Path} {b : Bool} (h : scanFields workshop path es p = some (.ok b, p')) :
    R path p p' := by
  induction es generalizing p b with
  | nil =>
      obtain ⟨-, rfl⟩ := scanFields_nil_eq_ok.mp h
      exact hR.refl path p'
  | cons e es ih =>
      obtain ⟨here, there, q, hhere, hthere, -⟩ := scanFields_cons_eq_ok.mp h
      exact hR.trans (hR.widen (hscan e List.mem_cons_self _ _ _ _ hhere))
        (ih (fun e he => hscan e (List.mem_cons_of_mem _ he)) hthere)

/-- **Looking through a node keeps to the frame of the node.** -/
theorem scan (hR : Frame workshop R) (v : Value) : ∀ path p b q,
    Composing.scan workshop path v p = some (.ok b, q) → R path p q := by
  induction v using Value.entries_induction with
  | node v ih =>
      intro path p b q h
      cases Scanned.of_scan h with
      | completed hdone => exact hR.refl path p
      | plain hplain hscan => exact hR.scanFields_of_scan ih hscan
      | waiting hdirective hroot hscan =>
          exact hR.trans (hR.scanFields_of_scan ih hscan) (hR.noting path _)
      | invoked hdirective hroot hscan hinvoke =>
          exact hR.trans (hR.scanFields_of_scan ih hscan) (hR.invoked hroot hinvoke)

theorem scanFields (hR : Frame workshop R) {es : List (String × Value)} {b : Bool}
    (h : Composing.scanFields workshop path es p = some (.ok b, p')) : R path p p' :=
  hR.scanFields_of_scan (fun e _ => hR.scan e.2) h

end Frame

end Composing

end Docweave
