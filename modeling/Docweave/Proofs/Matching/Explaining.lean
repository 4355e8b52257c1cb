import Docweave.Matcher.Wording
import Docweave.Proofs.Matching.Building
import Docweave.Proofs.Matching.Limits
import Mathlib

/-!
An explanation is given exactly for what is not accepted.

Most matchers decide first and explain afterwards, so there is nothing to show for them.  Two kinds
do not.  A matcher for the elements of lists does not decide at all: its explanation is what it has
to say about the length and about each element, so that the statement goes down with the elements.
A matcher that compares dates decides first but may still have nothing to say, namely if its limit
is no moment.  The limits of a matcher that was built were all read from some text, whichever depth
they are at (`Matchers.read_of_hasLimit`), so it is enough that such limits are moments.
-/

namespace Docweave

/-! ### Limits -/

mutual

/-- A limit that a matcher compares dates with, be it for the elements of a list. -/
inductive Matcher.HasLimit : Matcher → DateLimit → Prop
  | beyond (side : Side) (limit : DateLimit) : Matcher.HasLimit (.dateBeyond side limit) limit
  | earliest (earliest latest : DateLimit) : Matcher.HasLimit (.dateWithin earliest latest) earliest
  | latest (earliest latest : DateLimit) : Matcher.HasLimit (.dateWithin earliest latest) latest
  | element {rule : SizeRule} {size? : Option Nat} {wanted : Expected} {limit : DateLimit}
      (h : Expected.HasLimit wanted limit) : Matcher.HasLimit (.listEach rule size? wanted) limit

/-- A limit of a matcher that stands somewhere in an expected value. -/
inductive Expected.HasLimit : Expected → DateLimit → Prop
  | matcher {m : Matcher} {limit : DateLimit} (h : Matcher.HasLimit m limit) :
      Expected.HasLimit (.matcher m) limit
  | field {fields : List (String × Expected)} {field : String × Expected} {limit : DateLimit}
      (hfield : field ∈ fields) (h : Expected.HasLimit field.2 limit) :
      Expected.HasLimit (.map fields) limit
  | item {items : List Expected} {item : Expected} {limit : DateLimit}
      (hitem : item ∈ items) (h : Expected.HasLimit item limit) :
      Expected.HasLimit (.list items) limit

end

/-! ### Deciding and explaining -/

/-- Where the decision comes first, it is enough that there is something to say afterwards. -/
theorem ite_none_eq_none_iff {accepted : Bool} {reason : Option String} (h : reason.isSome = true) :
    (if accepted then none else reason) = none ↔ accepted = true := by
  cases accepted with
  | true => simp
  | false =>
      rw [if_neg Bool.false_ne_true]
      exact ⟨fun hnone => absurd h (by simp [hnone]), fun hfalse => absurd hfalse (by simp)⟩

theorem isSome_explainDateBeyond {now : Moment} {limit : DateLimit}
    (h : (limit.at? now).isSome = true) (side : Side) (v : Value) :
    (explainDateBeyond now side limit v).isSome = true := by
  unfold explainDateBeyond
  split
  · rfl
  · rw [Option.isSome_map, h]

theorem isSome_explainDateWithin {now : Moment} {earliest latest : DateLimit}
    (hearliest : (earliest.at? now).isSome = true) (hlatest : (latest.at? now).isSome = true)
    (v : Value) : (explainDateWithin now earliest latest v).isSome = true := by
  obtain ⟨first, hfirst⟩ := Option.isSome_iff_exists.mp hearliest
  obtain ⟨last, hlast⟩ := Option.isSome_iff_exists.mp hlatest
  unfold explainDateWithin
  split
  · rfl
  · rw [hfirst, hlast]
    dsimp only
    split
    · rfl
    · rfl

/-- There are lines about elements exactly if something is to be said about one of them. -/
theorem elementLines_eq_nil_iff {explain : Value → Option String} {items : List Value} :
    elementLines explain items = [] ↔ ∀ item ∈ items, explain item = none := by
  unfold elementLines
  rw [List.filterMap_eq_nil_iff]
  constructor
  · intro h item hitem
    obtain ⟨i, hi, rfl⟩ := List.mem_iff_getElem.mp hitem
    exact Option.map_eq_none_iff.mp
      (h (items[i], i) (List.mem_zipIdx_iff_getElem?.mpr (List.getElem?_eq_getElem hi)))
  · rintro h ⟨item, i⟩ hitem
    exact Option.map_eq_none_iff.mpr (h item (List.fst_mem_of_mem_zipIdx hitem))

/-- A list is explained by its length or by the lines about its elements. -/
theorem explainListEach_eq_none_iff {rule : SizeRule} {size? : Option Nat} {description : String}
    {items : List Value} {lines : List String} :
    explainListEach rule size? description items lines = none ↔
      rule.holds size? items.length = true ∧ lines = [] := by
  unfold explainListEach
  cases rule.holds size? items.length with
  | true => cases lines <;> simp
  | false => cases lines <;> simp

mutual

/-- A matcher with limits that are moments explains exactly what it does not accept. -/
theorem Matcher.explain_eq_none_iff {now : Moment} :
    ∀ (m : Matcher) (v : Value), (∀ limit, m.HasLimit limit → (limit.at? now).isSome = true) →
      (m.explain now v = none ↔ m.accepts now v = true)
  | .listEach rule size? wanted, v, hlimits => by
      have helement : ∀ item, wanted.explain now item = none ↔ wanted.accepts now item = true :=
        fun item => Expected.explain_eq_none_iff wanted item
          fun limit h => hlimits limit (.element h)
      cases v with
      | list items =>
          simp only [Matcher.explain, Matcher.accepts, Value.items?, Option.any_some,
            Bool.and_eq_true, List.all_eq_true, explainListEach_eq_none_iff,
            elementLines_eq_nil_iff, helement]
      | _ => simp [Matcher.explain, Matcher.accepts, Value.items?]
  | .dateBeyond side limit, v, hlimits =>
      ite_none_eq_none_iff (isSome_explainDateBeyond (hlimits limit (.beyond side limit)) side v)
  | .dateWithin earliest latest, v, hlimits =>
      ite_none_eq_none_iff (isSome_explainDateWithin (hlimits earliest (.earliest earliest latest))
        (hlimits latest (.latest earliest latest)) v)
  | .shape _, _, _ | .textLike _ _ _, _, _ | .textWith _ _, _, _ | .numberBeyond _ _, _, _
  | .numberWithin _ _, _, _ | .listOf _ _ _, _, _ | .listWithin _ _ _, _, _ | .date, _, _ =>
      ite_none_eq_none_iff rfl

/-- What is expected is explained exactly where it is not met. -/
theorem Expected.explain_eq_none_iff {now : Moment} :
    ∀ (w : Expected) (v : Value), (∀ limit, w.HasLimit limit → (limit.at? now).isSome = true) →
      (w.explain now v = none ↔ w.accepts now v = true)
  | .matcher m, v, hlimits =>
      Matcher.explain_eq_none_iff m v fun limit h => hlimits limit (.matcher h)
  | .map _, _, _ | .list _, _, _ | .exact _, _, _ => ite_none_eq_none_iff rfl

end

/-! ### Limits of what was built -/

namespace Matcher.Draft

variable {p : Params} {m : Matcher}

theorem ready_of_map {found : Except CallFault Matcher}
    (h : found.map Draft.ready = .ok (.ready m)) : found = .ok m := by
  obtain ⟨m', hm', heq⟩ := Except.map_eq_ok_iff.mp h
  rw [hm', Draft.ready.inj heq]

theorem dateBeyond_eq_ok {side : Side} (h : dateBeyond side p = .ok m) :
    ∃ text limit, DateLimit.read text = .ok limit ∧ m = .dateBeyond side limit := by
  obtain ⟨text?, -, h⟩ := Except.bind_eq_ok_iff.mp h
  obtain ⟨limit, hlimit, h⟩ := Except.bind_eq_ok_iff.mp h
  exact ⟨_, limit, hlimit, (Except.ok.inj h).symm⟩

theorem ofParams_listEach_ne_ready {now : Moment} {rule : SizeRule} :
    ofParams now p (.listEach rule) ≠ .ok (.ready m) := by
  intro h
  simp only [ofParams] at h
  split at h
  · exact absurd h (by simp)
  · exact absurd (Except.ok.inj h) (by simp)

/-- A matcher that is told by its arguments alone is of the kind that was asked for. -/
theorem builtin_of_ofParams {now : Moment} {b : Builtin} (h : ofParams now p b = .ok (.ready m)) :
    m.builtin = b := by
  cases b with
  | shape s | date =>
      obtain rfl := Draft.ready.inj (Except.ok.inj h)
      rfl
  | textLike =>
      obtain ⟨pattern, -, h⟩ := Except.bind_eq_ok_iff.mp (ready_of_map h)
      obtain ⟨flag, -, h⟩ := Except.bind_eq_ok_iff.mp h
      dsimp only at h
      split at h
      · obtain rfl := Except.ok.inj h
        rfl
      · exact absurd h (by simp)
  | textWith =>
      obtain ⟨part, -, h⟩ := Except.bind_eq_ok_iff.mp (ready_of_map h)
      obtain ⟨flag, -, h⟩ := Except.bind_eq_ok_iff.mp h
      obtain rfl := Except.ok.inj h
      rfl
  | numberBeyond side =>
      obtain ⟨number, -, h⟩ := Except.bind_eq_ok_iff.mp (ready_of_map h)
      obtain rfl := Except.ok.inj h
      rfl
  | listOf rule =>
      obtain ⟨size?, -, h⟩ := Except.bind_eq_ok_iff.mp (ready_of_map h)
      obtain rfl := Except.ok.inj h
      rfl
  | numberWithin | listWithin =>
      obtain ⟨min, -, h⟩ := Except.bind_eq_ok_iff.mp (ready_of_map h)
      obtain ⟨max, -, h⟩ := Except.bind_eq_ok_iff.mp h
      split at h
      · exact absurd h (by simp)
      · obtain rfl := Except.ok.inj h
        rfl
  | listEach rule => exact absurd h ofParams_listEach_ne_ready
  | dateBeyond side =>
      obtain ⟨_, _, -, rfl⟩ := dateBeyond_eq_ok (ready_of_map h)
      rfl
  | dateWithin =>
      obtain ⟨_, _, _, _, -, -, rfl, -⟩ := dateWithin_eq_ok (ready_of_map h)
      rfl

/-- What a draft compares dates with was read from some text. -/
theorem read_of_hasLimit {now : Moment} {args : Arguments} {b : Builtin} {limit : DateLimit}
    (h : ofArguments now args b = .ok (.ready m)) (hlimit : m.HasLimit limit) :
    ∃ text, DateLimit.read text = .ok limit := by
  obtain ⟨p, -, h⟩ := ofArguments_eq_ok_iff.mp h
  obtain rfl := builtin_of_ofParams h
  cases hlimit with
  | beyond side =>
      obtain ⟨text, limit', hread, heq⟩ := dateBeyond_eq_ok (ready_of_map h)
      obtain ⟨-, rfl⟩ := Matcher.dateBeyond.inj heq
      exact ⟨text, hread⟩
  | earliest _ latest =>
      obtain ⟨first, last, _, _, hfirst, -, heq, -⟩ :=
        dateWithin_eq_ok (ready_of_map h)
      obtain ⟨rfl, -⟩ := Matcher.dateWithin.inj heq
      exact ⟨first, hfirst⟩
  | latest earliest =>
      obtain ⟨first, last, _, _, -, hlast, heq, -⟩ :=
        dateWithin_eq_ok (ready_of_map h)
      obtain ⟨-, rfl⟩ := Matcher.dateWithin.inj heq
      exact ⟨last, hlast⟩
  | element _ => exact absurd h ofParams_listEach_ne_ready

end Matcher.Draft

namespace Matchers

/-- Whatever was built compares dates only with what was read from some text: at any depth, as the
elements of a list are built from the values in the arguments. -/
theorem read_of_hasLimit (built : Moment) :
    (∀ args : Arguments, ∀ name m, standard.construct built name args = .ok m →
      ∀ limit, m.HasLimit limit → ∃ text, DateLimit.read text = .ok limit) ∧
    ∀ v : Value, ∀ w, standard.expect built v = .ok w →
      ∀ limit, w.HasLimit limit → ∃ text, DateLimit.read text = .ok limit := by
  apply building_induction
  case call =>
    intro args hvalues name m hm limit hlimit
    obtain ⟨b, -, hname⟩ := exists_builtin_of_construct hm
    cases constructed_of_construct hname hm with
    | ready hdraft => exact Matcher.Draft.read_of_hasLimit hdraft hlimit
    | each hdraft hexpect =>
        cases hlimit with
        | element h =>
            exact hvalues _ (Matcher.Draft.size_le_of_ofArguments hdraft) _ hexpect limit h
  case descriptor =>
    intro v hat hcall w hw limit hlimit
    obtain ⟨m, hm, rfl⟩ := (expect_of_isAt hat).mp hw
    cases hlimit with
    | matcher h =>
        obtain ⟨d, hd, hm⟩ := ofDescriptor?_eq_ok_iff.mp hm
        exact hcall d hd d.name m hm limit h
  case map =>
    intro fields hplain hfields w hw limit hlimit
    cases built_of_expect hw with
    | matcher hat => exact absurd (hat.symm.trans hplain) (by simp)
    | exact hscalar => exact absurd hscalar (by simp [Value.isContainer])
    | map _ hws =>
        cases hlimit with
        | field hfield h =>
            obtain ⟨e, he, -, hexpect⟩ := exists_of_mem_right hws hfield
            exact hfields e he _ hexpect limit h
  case list =>
    intro items hitems w hw limit hlimit
    cases built_of_expect hw with
    | matcher hat => exact absurd hat (by simp [Descriptor.isAt])
    | exact hscalar => exact absurd hscalar (by simp [Value.isContainer])
    | list hws =>
        cases hlimit with
        | item hitem h =>
            obtain ⟨e, he, hexpect⟩ := exists_of_mem_right hws hitem
            exact hitems e he _ hexpect limit h
  case scalar =>
    intro v hscalar w hw limit hlimit
    rw [expect_scalar hscalar] at hw
    obtain rfl := Except.ok.inj hw
    cases hlimit

/-- **An explanation is given exactly for what is not accepted.**

Take any matcher that can be built from arguments, at whatever moment, and any value.  At a moment
at which every offset that can be read leads to a moment, the matcher has nothing to explain
exactly if it accepts the value; also if it is about the elements of lists, and these about theirs.
-/
theorem explain_eq_none_iff_accepts {now : Moment}
    (hnow : ∀ text limit, DateLimit.read text = .ok limit → (limit.at? now).isSome = true)
    {built : Moment} {name : String} {args : Arguments} {m : Matcher}
    (h : standard.construct built name args = .ok m) (v : Value) :
    m.explain now v = none ↔ m.accepts now v = true := by
  refine Matcher.explain_eq_none_iff m v fun limit hlimit => ?_
  obtain ⟨text, hread⟩ := (read_of_hasLimit built).1 args name m h limit hlimit
  exact hnow text limit hread

/-- Lists of dates that are still to come, in a list: in spring 2024 a date of 2023 is explained,
through both lists, and one of 2025 is not. -/
theorem explain_eq_none_iff_accepts_nested :
    let now : Moment := ⟨19800, 0, 0⟩
    let dates : Value := .map [("$matcher", .text "AnyDateAfter")]
    let lists : Value := .map [("$matcher", .text "AnyListOfMatchers"), ("$args", .list [dates])]
    ∃ m, standard.construct now "AnyListOfMatchers" ⟨[lists], []⟩ = .ok m ∧
      m.explain now (.list [.list [.text "2025-01-01"]]) = none ∧
      m.explain now (.list [.list [.text "2025-01-01", .text "2023-01-01"]]) ≠ none := by
  intro now dates lists
  have hnow : ∀ text limit, DateLimit.read text = .ok limit → (limit.at? now).isSome = true :=
    fun text limit => DateLimit.isSome_at?_of_read ⟨by decide, by decide, by decide⟩
  let m : Matcher := .listEach .exactly none (.matcher (.listEach .exactly none
    (.matcher (.dateBeyond .above (.relative "now" 0)))))
  have hm : standard.construct now "AnyListOfMatchers" ⟨[lists], []⟩ = .ok m := by cbv
  refine ⟨m, hm, ?_, fun hnone => ?_⟩
  · refine (explain_eq_none_iff_accepts hnow hm _).mpr ?_
    cbv
  · have haccepts := (explain_eq_none_iff_accepts hnow hm _).mp hnone
    have hrejects :
        m.accepts now (.list [.list [.text "2025-01-01", .text "2023-01-01"]]) = false := by cbv
    exact absurd (haccepts.symm.trans hrejects) (by simp)

end Matchers

end Docweave
