import Docweave.Proofs.Matching.Building
import Docweave.Proofs.Reordering
import Mathlib

/-!
Documents that are expected, with descriptors in them.

A document is compared with an expected one node by node.  `Paired` are the nodes of the two that
correspond: it goes down from two maps or lists to what stands under the same key or at the same
place in both, but not into descriptors.  `Matchers.Meets` is what is asked of each of these pairs
by itself: the matcher of a descriptor accepts the other node, and elsewhere the two have the same
keys, the same length or the same scalar.

Whether the comparison fails is decided before the other document is looked at, by the outermost
descriptors alone (`Matchers.exists_expect_iff`).  If it does not fail, a document is as expected
exactly if all pairs are (`Matchers.accepts_structurally`).  A matcher for the elements of lists
says the same of every element again (`Matchers.accepts_listEach`), so descriptors nest to any
depth.
-/

namespace Docweave

namespace Value

/-- The nodes of a document that are not inside of a descriptor. -/
inductive Outer : Value → Value → Prop
  | here (v : Value) : Outer v v
  | key {fields : Fields} {key : String} {c v : Value}
      (hplain : Descriptor.isAt (.map fields) = false) (hc : Entries.find? fields key = some c)
      (h : Outer c v) : Outer (.map fields) v
  | index {items : List Value} {i : Nat} {c v : Value} (hc : items[i]? = some c) (h : Outer c v) :
      Outer (.list items) v

/-- The nodes of an expected document and of another that correspond, as far as the expected one is
not inside of a descriptor. -/
inductive Paired : Value → Value → Value → Value → Prop
  | here (v w : Value) : Paired v w v w
  | key {fields fields' : Fields} {key : String} {c d v w : Value}
      (hplain : Descriptor.isAt (.map fields) = false) (hc : Entries.find? fields key = some c)
      (hd : Entries.find? fields' key = some d) (h : Paired c d v w) :
      Paired (.map fields) (.map fields') v w
  | index {items items' : List Value} {i : Nat} {c d v w : Value} (hc : items[i]? = some c)
      (hd : items'[i]? = some d) (h : Paired c d v w) : Paired (.list items) (.list items') v w

/-- Two nodes are alike, but for what is below them: maps have the same keys in any order, lists the
same length, and scalars are the same. -/
def SameShape : Value → Value → Prop
  | .map fields, .map fields' => ∀ key, key ∈ Entries.keys fields ↔ key ∈ Entries.keys fields'
  | .list items, .list items' => items.length = items'.length
  | v, w => v.isContainer = false ∧ v.same w = true

theorem sameShape_scalar_iff {v : Value} (hv : v.isContainer = false) (w : Value) :
    v.SameShape w ↔ v.same w = true := by
  cases v with
  | list items => exact absurd hv (by simp [isContainer])
  | map fields => exact absurd hv (by simp [isContainer])
  | _ => exact and_iff_right rfl

/-- A descriptor is an outermost one, and nothing else in it is. -/
theorem Outer.eq_of_isAt {v d : Value} (h : v.Outer d) (hat : Descriptor.isAt v = true) :
    d = v := by
  cases h with
  | here => rfl
  | key hplain _ _ => exact absurd (hat.symm.trans hplain) (by simp)
  | index _ _ => exact absurd hat (by simp [Descriptor.isAt])

/-- Nothing below a descriptor corresponds to anything. -/
theorem Paired.eq_of_isAt {v a x y : Value} (h : v.Paired a x y)
    (hat : Descriptor.isAt v = true) : x = v ∧ y = a := by
  cases h with
  | here => exact ⟨rfl, rfl⟩
  | key hplain _ _ _ => exact absurd (hat.symm.trans hplain) (by simp)
  | index _ _ _ => exact absurd hat (by simp [Descriptor.isAt])

theorem Paired.eq_of_scalar {v a x y : Value} (h : v.Paired a x y) (hv : v.isContainer = false) :
    x = v ∧ y = a := by
  cases h with
  | here => exact ⟨rfl, rfl⟩
  | key _ _ _ _ | index _ _ _ => exact absurd hv (by simp [isContainer])

/-- The pairs of two maps are the maps themselves and the pairs under the keys that both have. -/
theorem forall_paired_map_iff {fields got : Fields} {P : Value → Value → Prop}
    (hplain : Descriptor.isAt (.map fields) = false) :
    (∀ x y, (Value.map fields).Paired (.map got) x y → P x y) ↔
      P (.map fields) (.map got) ∧ ∀ key c d, Entries.find? fields key = some c →
        Entries.find? got key = some d → ∀ x y, c.Paired d x y → P x y := by
  constructor
  · exact fun hall => ⟨hall _ _ (.here _ _), fun key c d hc hd x y hpaired =>
      hall x y (.key hplain hc hd hpaired)⟩
  · rintro ⟨hhere, hbelow⟩ x y hpaired
    cases hpaired with
    | here => exact hhere
    | key _ hc hd hpaired => exact hbelow _ _ _ hc hd x y hpaired

/-- The pairs of two lists are the lists themselves and the pairs at the places that both have. -/
theorem forall_paired_list_iff {items got : List Value} {P : Value → Value → Prop} :
    (∀ x y, (Value.list items).Paired (.list got) x y → P x y) ↔
      P (.list items) (.list got) ∧ ∀ (i : Nat) c d, items[i]? = some c → got[i]? = some d →
        ∀ x y, c.Paired d x y → P x y := by
  constructor
  · exact fun hall => ⟨hall _ _ (.here _ _), fun i c d hc hd x y hpaired =>
      hall x y (.index hc hd hpaired)⟩
  · rintro ⟨hhere, hbelow⟩ x y hpaired
    cases hpaired with
    | here => exact hhere
    | index hc hd hpaired => exact hbelow _ _ _ hc hd x y hpaired

/-- Two maps have the same keys exactly if they are of one length and every key of the one is a key
of the other. -/
theorem forall_find?_iff {es fs : Fields} (hes : Entries.Distinct es) (hfs : Entries.Distinct fs)
    {P : Value → Value → Prop} :
    (es.length = fs.length ∧ ∀ e ∈ es, ∃ d, Entries.find? fs e.1 = some d ∧ P e.2 d) ↔
      (∀ key, key ∈ Entries.keys es ↔ key ∈ Entries.keys fs) ∧
        ∀ key c d, Entries.find? es key = some c → Entries.find? fs key = some d → P c d := by
  have hlength : ∀ gs : Fields, (Entries.keys gs).length = gs.length := fun gs => List.length_map _
  constructor
  · rintro ⟨heq, hall⟩
    have hsub : Entries.keys es ⊆ Entries.keys fs := by
      intro key hkey
      obtain ⟨e, he, rfl⟩ := List.mem_map.mp hkey
      obtain ⟨d, hd, -⟩ := hall e he
      exact (Entries.find?_isSome_iff fs e.1).mp (Option.isSome_of_eq_some hd)
    have hperm : (Entries.keys es).Perm (Entries.keys fs) :=
      (List.Nodup.subperm hes hsub).perm_of_length_le (by rw [hlength, hlength, heq])
    refine ⟨fun key => hperm.mem_iff, fun key c d hc hd => ?_⟩
    obtain ⟨d', hd', hP⟩ := hall _ (Entries.mem_of_find? hc)
    exact Option.some.inj (hd'.symm.trans hd) ▸ hP
  · rintro ⟨hkeys, hall⟩
    have hperm : (Entries.keys es).Perm (Entries.keys fs) :=
      (List.perm_ext_iff_of_nodup hes hfs).mpr hkeys
    refine ⟨by rw [← hlength es, hperm.length_eq, hlength], fun e he => ?_⟩
    have hc : Entries.find? es e.1 = some e.2 := hes.find?_of_mem he
    have hmem := (hkeys e.1).mp ((Entries.find?_isSome_iff es e.1).mp (Option.isSome_of_eq_some hc))
    obtain ⟨d, hd⟩ := Option.isSome_iff_exists.mp ((Entries.find?_isSome_iff fs e.1).mpr hmem)
    exact ⟨d, hd, hall _ _ _ hc hd⟩

end Value

/-! ### What accepting comes to -/

namespace Expected

variable {now : Moment}

theorem acceptsFields_iff {wanted : List (String × Expected)} {got : Fields} :
    acceptsFields now wanted got = true ↔
      ∀ e ∈ wanted, ∃ v, Entries.find? got e.1 = some v ∧ e.2.accepts now v = true := by
  induction wanted with
  | nil => simp [acceptsFields]
  | cons e es ih =>
      obtain ⟨key, w⟩ := e
      rw [acceptsFields, Bool.and_eq_true, ih, List.forall_mem_cons]
      refine and_congr_left' ?_
      cases Entries.find? got key <;> simp

theorem acceptsItems_iff {wanted : List Expected} {got : List Value} :
    acceptsItems now wanted got = true ↔
      List.Forall₂ (fun w v => w.accepts now v = true) wanted got := by
  induction wanted generalizing got with
  | nil => cases got <;> simp [acceptsItems]
  | cons w ws ih => cases got <;> simp [acceptsItems, ih]

end Expected

namespace Matchers

variable {matchers : Matchers} {now : Moment} {v : Value}

/-- **What a document says is expected can be built exactly if the matchers of its outermost
descriptors can.** -/
theorem exists_expect_iff (hv : v.WellFormed) :
    (∃ w, matchers.expect now v = .ok w) ↔
      ∀ d, v.Outer d → Descriptor.isAt d = true →
        ∃ m, matchers.ofDescriptor? now d = .ok (some m) := by
  induction v using Value.induction with
  | map fields ih =>
      obtain ⟨hdistinct, hfields⟩ := Value.wellFormed_map_iff.mp hv
      by_cases hat : Descriptor.isAt (.map fields) = true
      · constructor
        · rintro ⟨w, hw⟩ d hd -
          obtain ⟨m, hm, -⟩ := (expect_of_isAt hat).mp hw
          exact ⟨m, (hd.eq_of_isAt hat) ▸ hm⟩
        · intro h
          obtain ⟨m, hm⟩ := h _ (.here _) hat
          exact ⟨.matcher m, (expect_of_isAt hat).mpr ⟨m, hm, rfl⟩⟩
      have hplain := Bool.eq_false_iff.mpr hat
      rw [exists_expect_map_iff hplain]
      constructor
      · intro h d hd hatd
        cases hd with
        | here => exact absurd hatd hat
        | key _ hc hd =>
            have he := Entries.mem_of_find? hc
            exact (ih _ he (hfields _ he)).mp (h _ he) d hd hatd
      · intro h e he
        exact (ih e he (hfields e he)).mpr fun d hd =>
          h d (.key hplain (hdistinct.find?_of_mem he) hd)
  | list items ih =>
      have hitems := Value.wellFormed_list_iff.mp hv
      rw [exists_expect_list_iff]
      constructor
      · intro h d hd hatd
        cases hd with
        | here => exact absurd hatd (by simp [Descriptor.isAt])
        | index hc hd =>
            have hmem := List.mem_of_getElem? hc
            exact (ih _ hmem (hitems _ hmem)).mp (h _ hmem) d hd hatd
      · intro h v hmem
        obtain ⟨i, hi⟩ := List.mem_iff_getElem?.mp hmem
        exact (ih v hmem (hitems v hmem)).mpr fun d hd => h d (.index hi hd)
  | _ =>
      refine ⟨fun _ d hd hatd => ?_, fun _ => ⟨_, expect_scalar rfl⟩⟩
      cases hd
      exact absurd hatd (by simp [Descriptor.isAt])

/-! ### Comparing -/

/-- What is asked of two nodes that correspond. -/
structure Meets (matchers : Matchers) (now : Moment) (v w : Value) : Prop where
  matcher : Descriptor.isAt v = true →
    ∃ m, matchers.ofDescriptor? now v = .ok (some m) ∧ m.accepts now w = true
  shape : Descriptor.isAt v = false → v.SameShape w

theorem meets_iff_of_isAt {a : Value} {m : Matcher} (hat : Descriptor.isAt v = true)
    (hm : matchers.ofDescriptor? now v = .ok (some m)) :
    matchers.Meets now v a ↔ m.accepts now a = true := by
  refine ⟨fun hmeets => ?_, fun haccepts => ⟨fun _ => ⟨m, hm, haccepts⟩, fun hplain => ?_⟩⟩
  · obtain ⟨m', hm', haccepts⟩ := hmeets.matcher hat
    obtain rfl := Option.some.inj (Except.ok.inj (hm.symm.trans hm'))
    exact haccepts
  · exact absurd (hat.symm.trans hplain) (by simp)

theorem meets_iff_of_plain {a : Value} (hplain : Descriptor.isAt v = false) :
    matchers.Meets now v a ↔ v.SameShape a :=
  ⟨fun hmeets => hmeets.shape hplain,
    fun hshape => ⟨fun hat => absurd (hat.symm.trans hplain) (by simp), fun _ => hshape⟩⟩

/-- What is asked of two nodes is all that is asked if nothing below them corresponds. -/
theorem meets_iff_of_paired {a : Value} (h : ∀ x y, v.Paired a x y → x = v ∧ y = a) :
    matchers.Meets now v a ↔ ∀ x y, v.Paired a x y → matchers.Meets now x y := by
  refine ⟨fun hmeets x y hpaired => ?_, fun hall => hall v a (.here v a)⟩
  obtain ⟨rfl, rfl⟩ := h x y hpaired
  exact hmeets

theorem accepts_iff_of_isAt {w : Expected} {a : Value} (hat : Descriptor.isAt v = true)
    (h : matchers.expect now v = .ok w) :
    w.accepts now a = true ↔ ∀ x y, v.Paired a x y → matchers.Meets now x y := by
  obtain ⟨m, hm, rfl⟩ := (expect_of_isAt hat).mp h
  rw [← meets_iff_of_paired fun x y hpaired => hpaired.eq_of_isAt hat, meets_iff_of_isAt hat hm]
  rfl

theorem accepts_iff_of_scalar {a : Value} (hv : v.isContainer = false) :
    (Expected.exact v).accepts now a = true ↔
      ∀ x y, v.Paired a x y → matchers.Meets now x y := by
  have hplain := Descriptor.isAt_of_scalar hv
  rw [← meets_iff_of_paired fun x y hpaired => hpaired.eq_of_scalar hv, meets_iff_of_plain hplain,
    Value.sameShape_scalar_iff hv, Expected.accepts]

/-- **A document is as expected exactly if all its pairs meet what is asked of them.** -/
theorem accepts_iff_paired {w : Expected} {a : Value} (hv : v.WellFormed) (ha : a.WellFormed)
    (h : matchers.expect now v = .ok w) :
    w.accepts now a = true ↔ ∀ x y, v.Paired a x y → matchers.Meets now x y := by
  induction v using Value.induction generalizing w a with
  | map fields ih =>
      obtain ⟨hdistinct, hfields⟩ := Value.wellFormed_map_iff.mp hv
      cases built_of_expect h with
      | exact hscalar => exact absurd hscalar (by simp [Value.isContainer])
      | matcher hat _ => exact accepts_iff_of_isAt hat h
      | @map _ ws hplain hws =>
          cases a with
          | map got =>
              obtain ⟨hgot, hgots⟩ := Value.wellFormed_map_iff.mp ha
              have hbelow : (∀ e ∈ fields, ∃ d, Entries.find? got e.1 = some d ∧
                    ∀ x y, e.2.Paired d x y → matchers.Meets now x y) ↔
                  ∀ w ∈ ws, ∃ d, Entries.find? got w.1 = some d ∧ w.2.accepts now d = true := by
                refine forall_mem_iff_of_forall₂ hws fun e he w hw => ?_
                rw [hw.1]
                refine exists_congr fun d => and_congr_right fun hd => ?_
                exact (ih e he (hfields e he) (hgots _ (Entries.mem_of_find? hd)) hw.2).symm
              rw [Value.forall_paired_map_iff hplain, meets_iff_of_plain hplain, Expected.accepts,
                Bool.and_eq_true, beq_iff_eq, Expected.acceptsFields_iff, ← hws.length_eq, ← hbelow]
              exact Value.forall_find?_iff hdistinct hgot
                (P := fun c d => ∀ x y, c.Paired d x y → matchers.Meets now x y)
          | _ =>
              refine iff_of_false (by simp [Expected.accepts]) fun hall => ?_
              have hshape := (hall _ _ (.here _ _)).shape hplain
              exact absurd hshape.1 (by simp [Value.isContainer])
  | list items ih =>
      have hitems := Value.wellFormed_list_iff.mp hv
      cases built_of_expect h with
      | exact hscalar => exact absurd hscalar (by simp [Value.isContainer])
      | matcher hat _ => exact absurd hat (by simp [Descriptor.isAt])
      | @list _ ws hws =>
          cases a with
          | list got =>
              have hgots := Value.wellFormed_list_iff.mp ha
              have hbelow : List.Forall₂
                    (fun c d => ∀ x y, c.Paired d x y → matchers.Meets now x y) items got ↔
                  List.Forall₂ (fun w d => w.accepts now d = true) ws got := by
                refine forall₂_congr_of_forall₂ hws fun c hc w d hd hw => ?_
                exact (ih c hc (hitems c hc) (hgots d hd) hw).symm
              rw [Value.forall_paired_list_iff, meets_iff_of_plain rfl, Expected.accepts,
                Expected.acceptsItems_iff, ← hbelow]
              exact forall₂_iff_getElem?
          | _ =>
              refine iff_of_false (by simp [Expected.accepts]) fun hall => ?_
              have hshape := (hall _ _ (.here _ _)).shape rfl
              exact absurd hshape.1 (by simp [Value.isContainer])
  | _ =>
      obtain rfl := Except.ok.inj ((expect_scalar rfl).symm.trans h)
      exact accepts_iff_of_scalar rfl

/-- Without descriptors only what is the same is as expected. -/
theorem accepts_eq_same {w : Expected} (hv : v.WellFormed)
    (hplain : ∀ d, v.Outer d → Descriptor.isAt d = false) (h : matchers.expect now v = .ok w)
    (a : Value) : w.accepts now a = v.same a := by
  induction v using Value.induction generalizing w a with
  | map fields ih =>
      obtain ⟨hdistinct, hfields⟩ := Value.wellFormed_map_iff.mp hv
      have hhere := hplain _ (.here _)
      cases built_of_expect h with
      | exact hscalar => exact absurd hscalar (by simp [Value.isContainer])
      | matcher hat _ => exact absurd (hat.symm.trans hhere) (by simp)
      | @map _ ws _ hws =>
          cases a with
          | map got =>
              rw [Expected.accepts, Value.same, hws.length_eq]
              congr 1
              rw [Bool.eq_iff_iff, Expected.acceptsFields_iff, Value.sameFields_iff]
              refine (forall_mem_iff_of_forall₂ hws fun e he w hw => ?_).symm
              have hbelow : ∀ d, e.2.Outer d → Descriptor.isAt d = false := fun d hd =>
                hplain d (.key hhere (hdistinct.find?_of_mem he) hd)
              rw [hw.1]
              exact exists_congr fun d => by rw [ih e he (hfields e he) hbelow hw.2]
          | _ => rfl
  | list items ih =>
      have hitems := Value.wellFormed_list_iff.mp hv
      cases built_of_expect h with
      | exact hscalar => exact absurd hscalar (by simp [Value.isContainer])
      | matcher hat _ => exact absurd hat (by simp [Descriptor.isAt])
      | @list _ ws hws =>
          cases a with
          | list got =>
              rw [Expected.accepts, Value.same, Bool.eq_iff_iff, Expected.acceptsItems_iff,
                Value.sameItems_iff]
              refine (forall₂_congr_of_forall₂ hws fun c hc w d _ hw => ?_).symm
              obtain ⟨i, hi⟩ := List.mem_iff_getElem?.mp hc
              rw [ih c hc (hitems c hc) (fun d hd => hplain d (.index hi hd)) hw]
          | _ => rfl
  | _ =>
      obtain rfl := Except.ok.inj ((expect_scalar rfl).symm.trans h)
      rw [Expected.accepts]

/-- **A matcher for the elements of lists accepts the lists of its lengths whose elements are all as
its argument says.** -/
theorem accepts_listEach {name : String} {rule : SizeRule} {args : Arguments} {m : Matcher}
    (hname : matchers.find? name = some (.builtin (.listEach rule)))
    (h : matchers.construct now name args = .ok m) :
    ∃ p element size?, Params.bind (Matcher.Builtin.listEach rule).params args = .ok p ∧
      p.require 0 = .ok element ∧ p.size? 1 = .ok size? ∧
      ∀ a, m.accepts now a = true ↔ ∃ items, a = .list items ∧
        rule.holds size? items.length = true ∧
        ∀ item ∈ items, matchers.accepts now element item = .ok true := by
  obtain ⟨p, element, size?, w, hbind, hrequire, hsize, hw, rfl⟩ := construct_listEach hname h
  refine ⟨p, element, size?, hbind, hrequire, hsize, fun a => ?_⟩
  have helement : ∀ item, matchers.accepts now element item = .ok (w.accepts now item) :=
    fun item => by rw [accepts, hw, Except.map]
  simp only [helement, Except.ok.injEq]
  rw [Matcher.accepts]
  cases a <;> simp [Value.items?]

theorem exists_fault_of_isAt (hat : Descriptor.isAt v = true)
    (h : ¬ ∃ m, matchers.ofDescriptor? now v = .ok (some m)) :
    ∃ fault, matchers.ofDescriptor? now v = .error fault := by
  cases hv : matchers.ofDescriptor? now v with
  | error fault => exact ⟨fault, rfl⟩
  | ok m? =>
      cases m? with
      | some m => exact absurd ⟨m, hv⟩ h
      | none =>
          simp only [ofDescriptor?] at hv
          split at hv
          · exact absurd hv (by simp)
          · have hnot := Descriptor.ofValue?_eq_none_iff.mp ‹_›
            exact absurd (hat.symm.trans hnot) (by simp)
          · cases hm : matchers.construct now _ _ <;> rw [hm] at hv <;> cases hv

/-- **Comparing with an expected document goes node by node, up to its descriptors.**

Either one of its outermost descriptors cannot be built, and then comparing fails for every
document with the same fault, or all of them can.  Then a document is as expected exactly if every
pair of nodes that correspond is: outside of descriptors the two have the same shape, and the
matcher of an outermost descriptor accepts what is at its place.  Without descriptors that is being
the same, and a descriptor for the elements of lists goes by this law again. -/
theorem accepts_structurally (now : Moment) {expected : Value} (hexpected : expected.WellFormed) :
    ((∃ fault, (∀ actual, standard.accepts now expected actual = .error fault) ∧
        ∃ d, expected.Outer d ∧ Descriptor.isAt d = true ∧
          ∃ cause, standard.ofDescriptor? now d = .error cause) ∨
      ((∀ d, expected.Outer d → Descriptor.isAt d = true →
          ∃ m, standard.ofDescriptor? now d = .ok (some m)) ∧
        ∀ actual, actual.WellFormed → ∃ accepted,
          standard.accepts now expected actual = .ok accepted ∧
          (accepted = true ↔
            ∀ x y, expected.Paired actual x y → standard.Meets now x y))) ∧
      ((∀ d, expected.Outer d → Descriptor.isAt d = false) →
        ∀ actual, standard.accepts now expected actual = .ok (expected.same actual)) ∧
      ∀ name rule args m, standard.find? name = some (.builtin (.listEach rule)) →
        standard.construct now name args = .ok m →
        ∃ p element size?, Params.bind (Matcher.Builtin.listEach rule).params args = .ok p ∧
          p.require 0 = .ok element ∧ p.size? 1 = .ok size? ∧
          ∀ actual, m.accepts now actual = true ↔ ∃ items, actual = .list items ∧
            rule.holds size? items.length = true ∧
            ∀ item ∈ items, standard.accepts now element item = .ok true := by
  have haccepts : ∀ {w}, standard.expect now expected = .ok w → ∀ actual,
      standard.accepts now expected actual = .ok (w.accepts now actual) :=
    fun hw actual => by rw [accepts, hw, Except.map]
  refine ⟨?_, fun hplain actual => ?_, fun name rule args m => accepts_listEach⟩
  · cases hexpect : standard.expect now expected with
    | ok w =>
        refine .inr ⟨(exists_expect_iff hexpected).mp ⟨w, hexpect⟩, fun actual hactual => ?_⟩
        exact ⟨_, haccepts hexpect actual, accepts_iff_paired hexpected hactual hexpect⟩
    | error fault =>
        refine .inl ⟨fault, fun actual => by rw [accepts, hexpect, Except.map], ?_⟩
        by_contra hnone
        obtain ⟨w, hw⟩ := (exists_expect_iff hexpected).mpr
          fun d hd hat => by
            by_contra hnot
            exact hnone ⟨d, hd, hat, exists_fault_of_isAt hat hnot⟩
        exact absurd (hexpect.symm.trans hw) (by simp)
  · obtain ⟨w, hw⟩ := (exists_expect_iff hexpected).mpr
      fun d hd hat => absurd (hat.symm.trans (hplain d hd)) (by simp)
    rw [haccepts hw, accepts_eq_same hexpected hplain hw]

/-- A document is as expected with its keys in another order, and then all pairs of the two are: the
number, which meets a matcher, and the list, which is compared item by item. -/
theorem accepts_structurally_reordered :
    let now : Moment := ⟨0, 0, 0⟩
    let expected : Value := .map [("id", .map [("$matcher", .text "AnyNumber")]),
      ("tags", .list [.text "a"])]
    let actual : Value := .map [("tags", .list [.text "a"]), ("id", .int 5)]
    expected.WellFormed ∧ actual.WellFormed ∧ standard.accepts now expected actual = .ok true ∧
      ∀ x y, expected.Paired actual x y → standard.Meets now x y := by
  intro now expected actual
  have hexpected : expected.WellFormed := by
    simp [expected, Value.wellFormed_map_iff, Entries.Distinct, Entries.keys]
  have hactual : actual.WellFormed := by
    simp [actual, Value.int, Value.wellFormed_map_iff, Entries.Distinct, Entries.keys]
  have haccepts : standard.accepts now expected actual = .ok true := by cbv
  refine ⟨hexpected, hactual, haccepts, ?_⟩
  obtain ⟨⟨fault, hfault, -⟩ | ⟨-, hall⟩, -⟩ := accepts_structurally now hexpected
  · exact absurd (haccepts.symm.trans (hfault actual)) (by simp)
  · obtain ⟨accepted, heq, hiff⟩ := hall actual hactual
    exact hiff.mp (Except.ok.inj (heq.symm.trans haccepts))

end Matchers

end Docweave
