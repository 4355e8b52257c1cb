import Docweave.Proofs.Composing.Completeness
import Docweave.Proofs.Handlers

/-!
Which store a document is behind makes no difference to composing it.

The direct store needs nothing but the document, so what composing does behind any store is compared
with what it does behind the direct store with the same document.  An action is `Blind` at a state
if it goes the same way there: it ends or not, with the same answer or the same fault, and in states
that differ in nothing but the store.  Handlers see a store only through look-ups of which they
use the value alone, and composing looks up and updates only nodes that are there, so no fault of
a store, the wording of which would tell it from another, gets out.  For the documents that are
composed on their own this goes by induction on how deep they may be nested.
-/

namespace Docweave

/-! ### Stores -/

/-- The document behind the direct store. -/
def Store.unindexed (store : Store) : Store :=
  .direct ⟨store.content⟩

namespace Store

variable {store : Store}

@[simp] theorem content_unindexed (store : Store) : store.unindexed.content = store.content := rfl

theorem unindexed_wrap (backend : Backend) (root : Value) :
    (wrap backend root).unindexed = wrap .direct root := by
  cases backend <;> rfl

theorem Sound.unindexed (h : store.Sound) : store.unindexed.Sound :=
  sound_direct h.wellFormed

/-- Where there is a node, every store has the same. -/
theorem get_unindexed_eq_ok_iff (h : store.Sound) {pointer : Pointer} {v : Value} :
    store.unindexed.get pointer = .ok v ↔ store.get pointer = .ok v := by
  rw [get_eq_ok_iff h.unindexed, get_eq_ok_iff h, content_unindexed]

theorem getD_unindexed (h : store.Sound) (pointer : Pointer) (default : Value) :
    store.unindexed.getD pointer default = store.getD pointer default := by
  cases hget : store.get pointer with
  | ok v => simp only [getD, hget, (get_unindexed_eq_ok_iff h).mpr hget]
  | error fault =>
      cases hget' : store.unindexed.get pointer with
      | ok v =>
          rw [(get_unindexed_eq_ok_iff h).mp hget'] at hget
          exact absurd hget (by simp)
      | error fault' => simp only [getD, hget, hget']

/-- What the direct store is updated to is behind the direct store. -/
theorem unindexed_of_update {written : Store} {pointer : Pointer} {new : Value}
    (h : store.unindexed.update pointer new = .ok written) : written.unindexed = written := by
  simp only [unindexed, update] at h
  cases hu : Direct.update ⟨store.content⟩ pointer new with
  | error fault => rw [hu] at h; exact absurd h (by simp [Except.map])
  | ok direct =>
      rw [hu] at h
      obtain rfl := Except.ok.inj h
      rfl

/-- A node that is there is updated behind every store alike. -/
theorem exists_update_unindexed (h : store.Sound) {path : Path} (hroot : path ≠ [])
    {old new : Value} (hn : store.content.node? path = some old) (hnew : new.WellFormed) :
    ∃ written, store.update (.plain path) new = .ok written ∧
      store.unindexed.update (.plain path) new = .ok written.unindexed := by
  obtain ⟨written, hu, hcontent⟩ := exists_update_plain h hroot hn hnew
  obtain ⟨direct, hd, hcontent'⟩ := exists_update_plain h.unindexed hroot hn hnew
  refine ⟨written, hu, ?_⟩
  rw [hd, ← unindexed_of_update hd, unindexed, unindexed, hcontent', hcontent, content_unindexed]

end Store

/-! ### Handlers -/

/-- What a handler sees, with the document behind the direct store. -/
def Context.unindexed (context : Context) : Context :=
  { context with document := context.document.unindexed }

/-- The handler answers the same, whatever store the document is behind. -/
def Handler.Blind {μ : Type} (handler : Handler μ) : Prop :=
  ∀ {directive context memory}, context.document.Sound →
    handler.compose directive context.unindexed memory =
      handler.compose directive context memory

namespace Directive

variable {context : Context}

theorem followFrom_unindexed (hsound : context.document.Sound) (fuel : Nat) :
    ∀ visited links node path, followFrom context.unindexed fuel visited links node path =
      followFrom context fuel visited links node path := by
  induction fuel with
  | zero => exact fun _ _ _ _ => rfl
  | succ fuel ih =>
      intro visited links node path
      have hget : ∀ v, context.document.unindexed.get (.plain path) = .ok v ↔
          context.document.get (.plain path) = .ok v :=
        fun v => Store.get_unindexed_eq_ok_iff hsound
      simp only [followFrom, Context.unindexed] at ih ⊢
      cases hv : context.document.get (.plain path) with
      | ok v => simp only [(hget v).mpr hv, ih]; rfl
      | error fault =>
          cases hv' : context.document.unindexed.get (.plain path) with
          | ok v =>
              rw [(hget v).mp hv'] at hv
              exact absurd hv (by simp)
          | error fault' => rfl

theorem follow_unindexed (hsound : context.document.Sound) (path : Path) :
    follow context.unindexed path = follow context path :=
  followFrom_unindexed hsound _ _ _ _ _

theorem composeReference_unindexed (hsound : context.document.Sound) (directive : Fields) :
    composeReference directive context.unindexed = composeReference directive context := by
  simp only [composeReference, follow_unindexed hsound]

theorem composeOverlay_unindexed (hsound : context.document.Sound) (directive : Fields) :
    composeOverlay directive context.unindexed = composeOverlay directive context := by
  simp only [composeOverlay, follow_unindexed hsound]

end Directive

/-- **No standard handler can tell which store a document is behind.** -/
theorem Handler.blind_of_mem_standard {σ : Type} {generators : Generators σ} {matchers : Matchers}
    {access : FileAccess} : ∀ handler ∈ standard generators matchers access, handler.Blind := by
  intro handler hmem directive context memory hsound
  simp only [standard, List.mem_cons, List.not_mem_nil, or_false] at hmem
  rcases hmem with rfl | rfl | rfl | rfl | rfl | rfl
  · exact Prod.ext (Directive.composeReference_unindexed hsound directive) rfl
  · exact Prod.ext (Directive.composeOverlay_unindexed hsound directive) rfl
  all_goals rfl

/-! ### Actions -/

/-- The state with the document behind the direct store. -/
def Progress.unindexed {μ : Type} (progress : Progress μ) : Progress μ :=
  { progress with document := progress.document.unindexed }

/-- Neither the handlers nor what composes documents of their own can tell which store a document
is behind. -/
structure Workshop.Blind {μ : Type} (remembers : μ → Prop) (workshop : Workshop μ) : Prop where
  tidy : workshop.Tidy remembers
  handlers : ∀ handler ∈ workshop.handlers, handler.Blind
  separately : ∀ {backend v memory}, v.WellFormed → remembers memory →
    workshop.separately backend v memory = workshop.separately .direct v memory

namespace Composing

variable {μ α β : Type} {remembers : μ → Prop} {workshop : Workshop μ} {p q : Progress μ}
  {path : Path} {worklist : List Path}

/-- The action goes the same way with the document behind the direct store. -/
def Blind (x : Composing μ α) (p : Progress μ) : Prop :=
  x p.unindexed = (x p).map (Prod.map id Progress.unindexed)

namespace Blind

theorem pure (a : α) (p : Progress μ) : Blind (Pure.pure a : Composing μ α) p := rfl

theorem again (path : Path) (p : Progress μ) : Blind (Composing.again path) p := rfl

theorem complete (path : Path) (p : Progress μ) : Blind (Composing.complete path) p := rfl

theorem bind {x : Composing μ α} {f : α → Composing μ β} (hx : Blind x p)
    (hf : ∀ a q, x p = some (.ok a, q) → Blind (f a) q) : Blind (x >>= f) p := by
  unfold Blind at hx
  show (x p.unindexed).bind _ = ((x p).bind _).map _
  rw [hx]
  rcases hxp : x p with _ | ⟨fault | a, q⟩
  · rfl
  · rfl
  · exact hf a q hxp

theorem ite {c : Prop} [Decidable c] {x y : Composing μ α} (hx : c → Blind x p)
    (hy : ¬ c → Blind y p) : Blind (if c then x else y) p := by
  split
  · exact hx ‹_›
  · exact hy ‹_›

/-- A node that is there is written alike. -/
theorem write {v old : Value} (hsound : p.document.Sound) (hroot : path ≠ [])
    (hn : p.document.content.node? path = some old) (hv : v.WellFormed) :
    Blind (Composing.write path v) p := by
  have hget := (Store.get_plain_eq_ok_iff hsound).mpr hn
  have hget' := (Store.get_unindexed_eq_ok_iff hsound).mpr hget
  obtain ⟨written, hu, hu'⟩ := Store.exists_update_unindexed hsound hroot hn hv
  simp only [Blind, Composing.write, Progress.unindexed, hget, hget', hu, hu']
  split <;> rfl

theorem remembering (path : Path) (act : ExceptT Fault (StateT μ Option) α) (p : Progress μ) :
    Blind (Composing.remembering path act) p := by
  simp only [Blind, Composing.remembering, Progress.unindexed]
  rcases act p.memory with _ | ⟨fault | a, memory⟩ <;> rfl

/-- What a handler answers is done alike. -/
theorem settle {outcome : Outcome} {old : Value} (hworkshop : workshop.Blind remembers)
    (hp : Proper remembers p) (hroot : path ≠ [])
    (hn : p.document.content.node? path = some old) (houtcome : outcome.WellFormed) :
    Blind (Composing.settle workshop path outcome) p := by
  cases outcome with
  | retry => exact again path p
  | success v =>
      refine bind (write hp.sound hroot hn houtcome) fun _ q _ => ?_
      exact ite (fun _ => again path q) fun _ => pure false q
  | completed v =>
      exact bind (write hp.sound hroot hn houtcome) fun _ q _ => complete path q
  | separate v =>
      -- Behind any store the value is composed as it is behind the direct one.
      let act := workshop.separately .direct v
      let finish : Value → Composing μ Bool := fun composed => do
        Composing.write path composed
        Composing.complete path
      have hact : Composing.remembering path (workshop.separately p.document.backend v) p =
          Composing.remembering path act p := by
        simp only [Composing.remembering, act, hworkshop.separately houtcome hp.memory]
      have hsettle : Composing.settle workshop path (.separate v) p =
          (Composing.remembering path act >>= finish) p := by
        show (Composing.remembering path _ p).bind _ = (Composing.remembering path act p).bind _
        rw [hact]
      have hblind : Blind (Composing.remembering path act >>= finish) p := by
        refine bind (remembering path act p) fun w q hw => ?_
        obtain ⟨memory, hmemory, rfl⟩ := remembering_eq_ok.mp hw
        have hw := (hworkshop.tidy.separately houtcome hp.memory hmemory).1
        exact bind (write hp.sound hroot hn hw) fun _ q _ => complete path q
      exact hblind.trans (congrArg _ hsettle.symm)

/-- A directive is handed over alike. -/
theorem invoke {v : Value} (hworkshop : workshop.Blind remembers) (hp : Proper remembers p)
    (hroot : path ≠ []) (hn : p.document.content.node? path = some v) :
    Blind (Composing.invoke workshop path) p := by
  have hget := (Store.get_plain_eq_ok_iff hp.sound).mpr hn
  have hget' := (Store.get_unindexed_eq_ok_iff hp.sound).mpr hget
  have hwell := hp.sound.wellFormed.of_node? hn
  cases v with
  | map directive =>
      cases hfind : Handler.find? workshop.handlers directive with
      | none => simp only [Blind, Composing.invoke, Progress.unindexed, hget, hget', hfind]; rfl
      | some handler =>
          have hmem := List.mem_of_find?_eq_some hfind
          have hanswer : handler.compose directive (contextAt workshop path p).unindexed p.memory =
              handler.compose directive (contextAt workshop path p) p.memory :=
            hworkshop.handlers handler hmem hp.sound
          rcases hcompose : handler.compose directive (contextAt workshop path p) p.memory with
            ⟨fault | outcome, memory⟩
          · rw [hcompose] at hanswer
            simp only [contextAt, Context.unindexed] at hcompose hanswer
            simp only [Blind, Composing.invoke, Progress.unindexed, hget, hget', hfind, hcompose,
              hanswer]
            rfl
          · rw [hcompose] at hanswer
            obtain ⟨houtcome, hmemory⟩ :=
              hworkshop.tidy.handlers handler hmem hwell hp.sound hp.memory hcompose
            simp only [contextAt, Context.unindexed] at hcompose hanswer
            simp only [Blind, Composing.invoke, Progress.unindexed, hget, hget', hfind, hcompose,
              hanswer]
            exact settle hworkshop (p := { p with memory }) ⟨hp.sound, hmemory⟩ hroot hn houtcome
  | _ => simp only [Blind, Composing.invoke, Progress.unindexed, hget, hget']; rfl

/-- Entries are looked through alike if each of them is. -/
theorem scanFields {es : List (String × Value)} (hworkshop : workshop.Blind remembers)
    (hscan : ∀ e ∈ es, ∀ path p, Proper remembers p →
      p.document.content.node? path = some e.2 → Blind (Composing.scan workshop path e.2) p)
    (hdistinct : Entries.Distinct es) (hp : Proper remembers p)
    (hes : ∀ e ∈ es, p.document.content.node? (path.child e.1) = some e.2) :
    Blind (Composing.scanFields workshop path es) p := by
  induction es generalizing p with
  | nil =>
      rw [Composing.scanFields]
      exact pure false p
  | cons e es ih =>
      obtain ⟨token, v⟩ := e
      have hhere := hscan _ List.mem_cons_self (path.child token) p hp
        (hes _ List.mem_cons_self)
      rw [Composing.scanFields]
      refine bind hhere fun here q hq => ?_
      obtain ⟨hq, hmoved⟩ := (kept_of_tidy hworkshop.tidy).scan hq hp
      refine bind ?_ fun there r _ => pure (here || there) r
      exact ih (fun e he => hscan e (List.mem_cons_of_mem _ he)) hdistinct.of_cons hq
        (hmoved.others hdistinct hes)

/-- **A node is looked through alike.** -/
theorem scan (hworkshop : workshop.Blind remembers) (v : Value) : ∀ path p, Proper remembers p →
    p.document.content.node? path = some v → Blind (Composing.scan workshop path v) p := by
  induction v using Value.entries_induction with
  | node v ih =>
      intro path p hp hn
      have hwell : v.WellFormed := hp.sound.wellFormed.of_node? hn
      have hfields : Blind (Composing.scanFields workshop path v.entries) p :=
        scanFields hworkshop ih hwell.distinct_entries hp
          fun e he => Value.node?_child_of_mem_entries hn hwell he
      unfold Blind
      rw [scan_eq, scan_eq]
      by_cases hdone : path ∈ p.completed
      · rw [if_pos hdone, if_pos (show path ∈ p.unindexed.completed from hdone)]
        rfl
      rw [if_neg hdone, if_neg (show path ∉ p.unindexed.completed from hdone)]
      by_cases hdirective : isDirective (Handler.markers workshop.handlers) v = true
      · rw [if_pos hdirective, if_pos hdirective]
        by_cases hroot : path = []
        · rw [if_pos hroot, if_pos hroot]
          rfl
        rw [if_neg hroot, if_neg hroot]
        refine bind hfields fun inside q hq => ite (fun _ => again path q) fun _ => ?_
        have hK := kept_of_tidy hworkshop.tidy
        obtain ⟨w, hw, -⟩ := scanFields_head hK hq hp hn
        exact invoke hworkshop (hK.scanFields hq hp).1 hroot hw
      · rw [if_neg hdirective, if_neg hdirective]
        exact hfields

/-- A pass goes alike. -/
theorem pass (hworkshop : workshop.Blind remembers) (hp : Proper remembers p) :
    Blind (Composing.pass workshop worklist) p := by
  induction worklist generalizing p with
  | nil => exact pure () p
  | cons path rest ih =>
      unfold Blind
      cases hn : p.document.content.node? path with
      | none =>
          rw [pass_cons_of_gone hp.sound rest hn,
            pass_cons_of_gone (p := p.unindexed) hp.sound.unindexed rest hn]
          exact ih hp
      | some v =>
          rw [pass_cons_of_node hp.sound rest hn,
            pass_cons_of_node (p := p.unindexed) hp.sound.unindexed rest hn]
          refine bind (scan hworkshop v path p hp hn) fun b q hq => ?_
          exact ih ((kept_of_tidy hworkshop.tidy).scan hq hp).1

end Blind

/-! ### Runs -/

/-- What a pass leaves to be done, with the document behind the direct store. -/
def Round.unindexed : Round μ → Round μ
  | .ended result progress => .ended result progress.unindexed
  | .next worklist progress => .next worklist progress.unindexed

theorem verdict_unindexed (hsound : q.document.Sound) :
    verdict worklist q.unindexed = (verdict worklist q).unindexed := by
  have hleftovers : ∀ paths, leftovers q.unindexed.document paths = leftovers q.document paths := by
    intro paths
    simp only [leftovers, Progress.unindexed, Store.getD_unindexed hsound]
  have hrevisit : q.unindexed.revisit = q.revisit := rfl
  have hchanged : q.unindexed.changed = q.changed := rfl
  simp only [verdict, hleftovers, hrevisit, hchanged, apply_ite Round.unindexed]
  rfl

theorem round_unindexed (hworkshop : workshop.Blind remembers) (hp : Proper remembers p) :
    round workshop worklist p.unindexed = (round workshop worklist p).map Round.unindexed := by
  have hfresh : Proper remembers p.fresh := ⟨hp.sound, hp.memory⟩
  have hpass : pass workshop worklist p.fresh.unindexed =
      (pass workshop worklist p.fresh).map (Prod.map id Progress.unindexed) :=
    Blind.pass hworkshop hfresh
  rcases hrun : pass workshop worklist p.fresh with _ | ⟨fault | _, q⟩
  · rw [hrun] at hpass
    rw [round_of_none hrun, round_of_none (p := p.unindexed) hpass]
    rfl
  · rw [hrun] at hpass
    rw [round_of_fault hrun, round_of_fault (p := p.unindexed) hpass]
    rfl
  · have hq := (kept_of_tidy hworkshop.tidy).passed (.of_pass hrun) hfresh
    rw [hrun] at hpass
    rw [round_of_pass hrun, round_of_pass (p := p.unindexed) hpass]
    exact congrArg some (verdict_unindexed hq.sound)

/-- A run goes alike. -/
theorem Ran.unindexed (hworkshop : workshop.Blind remembers) (hp : Proper remembers p)
    {end_ : Except Fault Unit × Progress μ} (h : Ran workshop worklist p end_) :
    Ran workshop worklist p.unindexed (Prod.map id Progress.unindexed end_) := by
  induction h with
  | ended hround =>
      refine .ended ?_
      rw [round_unindexed hworkshop hp, hround]
      rfl
  | @next worklist next p q end_ hround hrest ih =>
      have hq := (kept_of_tidy hworkshop.tidy).passed (round_eq_next hround).1 ⟨hp.sound, hp.memory⟩
      refine .next ?_ (ih hq)
      rw [round_unindexed hworkshop hp, hround]
      rfl

/-- A run behind the direct store is one behind any store. -/
theorem Ran.of_unindexed (hworkshop : workshop.Blind remembers) (hp : Proper remembers p)
    {end_ : Except Fault Unit × Progress μ} (h : Ran workshop worklist p.unindexed end_) :
    ∃ end', Ran workshop worklist p end' := by
  generalize hp' : p.unindexed = p' at h
  induction h generalizing p with
  | ended hround =>
      subst hp'
      rw [round_unindexed hworkshop hp] at hround
      obtain ⟨ended | next, hround', heq⟩ := Option.map_eq_some_iff.mp hround
      · exact ⟨_, .ended hround'⟩
      · exact absurd heq (by simp [Round.unindexed])
  | next hround hrest ih =>
      subst hp'
      rw [round_unindexed hworkshop hp] at hround
      obtain ⟨ended | ⟨next, q⟩, hround', heq⟩ := Option.map_eq_some_iff.mp hround
      · exact absurd heq (by simp [Round.unindexed])
      · obtain ⟨rfl, rfl⟩ := Round.next.inj heq
        have hq := (kept_of_tidy hworkshop.tidy).passed (round_eq_next hround').1
          ⟨hp.sound, hp.memory⟩
        obtain ⟨end', hrun⟩ := ih hq rfl
        exact ⟨end', .next hround' hrun⟩

/-- **Passes go alike, and end behind the one store exactly if they end behind the other.** -/
theorem passes_unindexed (hworkshop : workshop.Blind remembers) (worklist : List Path)
    (hp : Proper remembers p) :
    passes workshop worklist p.unindexed =
      (passes workshop worklist p).map (Prod.map id Progress.unindexed) := by
  cases hpasses : passes workshop worklist p with
  | some end_ =>
      exact passes_eq_some_iff.mpr ((passes_eq_some_iff.mp hpasses).unindexed hworkshop hp)
  | none =>
      refine Option.eq_none_iff_forall_ne_some.mpr fun end_ hend => ?_
      obtain ⟨end', hrun⟩ := Ran.of_unindexed hworkshop hp (passes_eq_some_iff.mp hend)
      rw [passes_eq_some_iff.mpr hrun] at hpasses
      exact absurd hpasses (by simp)

/-- **Documents of their own are composed alike behind every store.** -/
theorem separately_blind {handlers : List (Handler μ)}
    (htidy : ∀ handler ∈ handlers, handler.Tidy remembers)
    (hblind : ∀ handler ∈ handlers, handler.Blind) (setting : Setting) (maxDepth levels : Nat) :
    Workshop.Blind remembers ⟨handlers, setting, separately handlers setting maxDepth levels⟩ := by
  induction levels with
  | zero => exact ⟨separately_tidy htidy setting maxDepth 0, hblind, fun _ _ => rfl⟩
  | succ levels ih =>
      refine ⟨separately_tidy htidy setting maxDepth _, hblind,
        fun {backend v memory} hv hmemory => ?_⟩
      have hp : Proper remembers ⟨Store.wrap backend v, [], memory, [], false⟩ :=
        ⟨Store.sound_wrap hv backend, hmemory⟩
      have hpasses := passes_unindexed ih [[]] hp
      simp only [Progress.unindexed, Store.unindexed_wrap] at hpasses
      simp only [separately, hpasses]
      rcases passes _ [[]] (⟨Store.wrap backend v, [], memory, [], false⟩ : Progress μ) with
        _ | ⟨fault | _, q⟩ <;> rfl

end Composing

namespace Composer

open Composing

variable {μ : Type} {composer : Composer μ} {setting : Setting} {start : Pointer}

/-- The composer with its document behind the direct store. -/
def unindexed (composer : Composer μ) : Composer μ :=
  { composer with store := composer.store.unindexed }

/-- **Composing goes as it goes with the document behind the direct store.** -/
theorem composeAt_unindexed {remembers : μ → Prop}
    (htidy : ∀ handler ∈ composer.handlers, handler.Tidy remembers)
    (hblind : ∀ handler ∈ composer.handlers, handler.Blind) (hsound : composer.store.Sound)
    (hmemory : remembers composer.memory) :
    composer.unindexed.composeAt setting start =
      (composer.composeAt setting start).map (Prod.map id unindexed) := by
  have hworkshop : (composer.workshop setting).Blind remembers :=
    separately_blind htidy hblind setting composer.maxDepth composer.maxDepth
  have hp : Proper remembers composer.progress := ⟨hsound, hmemory⟩
  have hpasses := passes_unindexed hworkshop (startWorklist start) hp
  show (passes (composer.workshop setting) (startWorklist start) composer.progress.unindexed).map _
    = _
  rw [hpasses, composeAt, Option.map_map, Option.map_map]
  rfl

/-- What composing has come to, but for the store: the result, the document with the order of its
keys, the nodes that hold their value for good, and what handlers remember. -/
def reached (end_ : Except Fault Unit × Composer μ) :
    Except Fault Unit × Value × List Path × μ :=
  (end_.1, end_.2.store.content, end_.2.completed, end_.2.memory)

/-- **Composing from any start, with the standard handlers and any options, comes to the same behind
the direct and the indexed store**: both run forever, or both end with the same result, the same
fault included, and leave the same document.  Generators answer from a state that both runs begin
with, so calls that correspond make the same values. -/
theorem composeAt_backends_agree {σ : Type} {generators : Generators σ}
    (hgenerators : generators.Tidy) {content : Value} (hcontent : content.WellFormed)
    (matchers : Matchers) (access : FileAccess) (maxDepth : Nat) (world : σ) (setting : Setting)
    (start : Pointer) :
    ((Composer.new (.wrap .direct content) (Handler.standard generators matchers access) maxDepth
        (Memory.start world)).composeAt setting start).map reached =
      ((Composer.new (.wrap .indexed content) (Handler.standard generators matchers access)
        maxDepth (Memory.start world)).composeAt setting start).map reached := by
  let composer := Composer.new (.wrap .indexed content)
    (Handler.standard generators matchers access) maxDepth (Memory.start world)
  have hunindexed : composer.unindexed.composeAt setting start = _ :=
    composeAt_unindexed (Handler.tidy_of_mem_standard hgenerators) Handler.blind_of_mem_standard
      (Store.sound_wrap hcontent .indexed) (Memory.wellFormed_start world)
  show (composer.unindexed.composeAt setting start).map reached = _
  rw [hunindexed, Option.map_map]
  rfl

/-- A flag, and a reference to it that comes first. -/
def flagDocument : Value :=
  .map [("a", .map [("!ref", .text "/b")]), ("b", .bool true)]

/-- A composer of the flag, with the standard handlers. -/
def flagComposer (backend : Backend) : Composer (Memory Nat) :=
  Composer.new (.wrap backend flagDocument)
    (Handler.standard (Generators.standard fun n => (n, n + 1)) Matchers.standard ⟨⟨none⟩, false⟩) 0
    (Memory.start 0)

/-- The flag is copied behind the indexed store, as it is behind the direct one. -/
theorem composeAt_flag_agrees :
    (Generators.standard fun n => (n, n + 1) : Generators Nat).Tidy ∧ flagDocument.WellFormed ∧
      ((flagComposer .direct).composeAt bareSetting .root).map reached =
        some (.ok (), .map [("a", .bool true), ("b", .bool true)], [], Memory.start 0) ∧
      ((flagComposer .direct).composeAt bareSetting .root).map reached =
        ((flagComposer .indexed).composeAt bareSetting .root).map reached := by
  have hgenerators : (Generators.standard fun n => (n, n + 1) : Generators Nat).Tidy :=
    Generators.tidy_standard _
  have hdocument : flagDocument.WellFormed := by
    simp [flagDocument, Value.wellFormed_map_iff, Entries.Distinct, Entries.keys]
  refine ⟨hgenerators, hdocument, ?_, composeAt_backends_agree hgenerators hdocument ..⟩
  obtain ⟨q, hround, hcontent, hcompleted, hmemory⟩ : ∃ q,
      round ((flagComposer .direct).workshop bareSetting) [[]] (flagComposer .direct).progress =
        some (.ended (.ok ()) q) ∧
      q.document.content = .map [("a", .bool true), ("b", .bool true)] ∧ q.completed = [] ∧
      q.memory = Memory.start 0 := ⟨_, rfl, rfl, rfl, rfl⟩
  refine Option.map_eq_some_iff.mpr ⟨(.ok (), (flagComposer .direct).resume q),
    Option.map_eq_some_iff.mpr ⟨_, passes_eq_some_iff.mpr (.ended hround), rfl⟩, ?_⟩
  rw [← hcontent, ← hcompleted, ← hmemory]
  rfl

end Composer

end Docweave
