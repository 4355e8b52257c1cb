import Docweave.Proofs.Matching.Building
import Docweave.Proofs.Rounding

/-!
Matchers for numbers, and the integers that they tell apart.

The limits of these matchers and the numbers that they look at are binary64 numbers, and an integer
is rounded to the nearest one.  Rounding keeps the order, so a matcher never takes two integers the
wrong way round: all that can happen is that an integer and a limit become the same number, and then
they count as equal.  That needs two integers beyond `2^53` that are at most 2048 apart.
-/

namespace Docweave

namespace Matchers

open Double (Merge)
open Number (InRange)

theorem construct_numberBeyond (now : Moment) (side : Side) (n : Int) :
    standard.construct now (Matcher.Builtin.numberBeyond side).name ⟨[.int n], []⟩ =
      .ok (.numberBeyond side (Double.ofInt n)) :=
  construct_standard rfl

theorem construct_numberWithin (now : Moment) {a b : Int} (ha : InRange a) (hb : InRange b)
    (hab : a ≤ b) :
    standard.construct now Matcher.Builtin.numberWithin.name ⟨[.int a, .int b], []⟩ =
      .ok (.numberWithin (Double.ofInt a) (Double.ofInt b)) := by
  have hordered : ¬ (Double.ofInt b).less (Double.ofInt a) = true := by
    rw [Double.less_ofInt_iff hb ha]
    omega
  have hdraft : Matcher.Draft.ofArguments now ⟨[.int a, .int b], []⟩ .numberWithin =
      Except.map .ready (if (Double.ofInt b).less (Double.ofInt a) then
        .error (.numberLimits (Double.ofInt a) (Double.ofInt b))
      else .ok (.numberWithin (Double.ofInt a) (Double.ofInt b))) := rfl
  exact construct_standard (hdraft.trans (congrArg _ (if_neg hordered)))

/-- **Matchers for numbers compare integers as rounded, and rounding never turns them round.**

Take any integers of documents: one to look at, and limits, those of a range in order.  The matchers
are built.  What is beyond a limit is accepted, unless it becomes the same number as the limit; what
is within a range is accepted, and besides that only what becomes the same number as a limit.  Two
integers that become the same number are equal, or both are beyond `2^53` on the same side and at
most 2048 apart. -/
theorem integers_compared_as_rounded {a b m n : Int} (ha : InRange a) (hb : InRange b)
    (hab : a ≤ b) (hm : InRange m) (hn : InRange n) (now later : Moment) :
    (∃ matcher, standard.construct now "AnyNumberGreaterThan" ⟨[.int n], []⟩ = .ok matcher ∧
      (matcher.accepts later (.int m) = true ↔ n < m ∧ ¬ Merge n m)) ∧
    (∃ matcher, standard.construct now "AnyNumberLessThan" ⟨[.int n], []⟩ = .ok matcher ∧
      (matcher.accepts later (.int m) = true ↔ m < n ∧ ¬ Merge m n)) ∧
    (∃ matcher, standard.construct now "AnyNumberInRange" ⟨[.int a, .int b], []⟩ = .ok matcher ∧
      (matcher.accepts later (.int m) = true ↔ (a ≤ m ∨ Merge a m) ∧ (m ≤ b ∨ Merge m b))) ∧
    ∀ i j : Int, InRange i → InRange j → Merge i j →
      i = j ∨ (i - j).natAbs ≤ 2048 ∧
        (0x20000000000000 ≤ i ∧ 0x20000000000000 ≤ j ∨
          i ≤ -0x20000000000000 ∧ j ≤ -0x20000000000000) := by
  refine ⟨⟨_, construct_numberBeyond now .above n, ?_⟩,
    ⟨_, construct_numberBeyond now .below n, ?_⟩,
    ⟨_, construct_numberWithin now ha hb hab, ?_⟩, fun i j => Double.eq_or_near_of_merge⟩
  · rw [Matcher.accepts]
    exact Double.less_ofInt_iff hn hm
  · rw [Matcher.accepts]
    exact Double.less_ofInt_iff hm hn
  · rw [Matcher.accepts, ← Double.atMost_ofInt_iff ha hm, ← Double.atMost_ofInt_iff hm hb]
    exact Bool.and_eq_true_iff

/-- Near the upper end numbers are 2048 apart, and still two neighbours are told apart if halfway
between two numbers lies between them. -/
theorem integers_compared_as_rounded_near_the_end :
    InRange (-0x8000000000000000) ∧ InRange 0xfffffffffffff400 ∧ InRange 0xfffffffffffff401 ∧
      (∃ matcher, standard.construct ⟨0, 0, 0⟩ "AnyNumberGreaterThan"
          ⟨[.int 0xfffffffffffff400], []⟩ = .ok matcher ∧
        matcher.accepts ⟨0, 0, 0⟩ (.int 0xfffffffffffff401) = true) ∧
      ∃ matcher, standard.construct ⟨0, 0, 0⟩ "AnyNumberInRange"
          ⟨[.int (-0x8000000000000000), .int 0xfffffffffffff400], []⟩ = .ok matcher ∧
        ¬ matcher.accepts ⟨0, 0, 0⟩ (.int 0xfffffffffffff401) = true := by
  have hlow : InRange (-0x8000000000000000) := by decide
  have hlimit : InRange 0xfffffffffffff400 := by decide
  have hnext : InRange 0xfffffffffffff401 := by decide
  have hapart : ¬ Merge 0xfffffffffffff400 0xfffffffffffff401 := by
    unfold Merge
    decide +kernel
  have hapart' : ¬ Merge 0xfffffffffffff401 0xfffffffffffff400 := by
    unfold Merge
    decide +kernel
  obtain ⟨⟨above, habove, haccepts⟩, -, ⟨within, hwithin, hrefuses⟩, -⟩ :=
    integers_compared_as_rounded hlow hlimit (by decide) hnext hlimit ⟨0, 0, 0⟩ ⟨0, 0, 0⟩
  refine ⟨hlow, hlimit, hnext, ⟨above, habove, haccepts.mpr ⟨by decide, hapart⟩⟩,
    within, hwithin, fun h => ?_⟩
  rcases (hrefuses.mp h).2 with hle | hmerge
  · exact absurd hle (by decide)
  · exact hapart' hmerge

/-- **An integer beyond a limit may be refused**: the one after `2^53` is rounded to it. -/
theorem integer_above_refused :
    InRange 0x20000000000000 ∧ InRange 0x20000000000001 ∧
      ∃ matcher, standard.construct ⟨0, 0, 0⟩ "AnyNumberGreaterThan"
          ⟨[.int 0x20000000000000], []⟩ = .ok matcher ∧
        (0x20000000000000 : Int) < 0x20000000000001 ∧
        matcher.accepts ⟨0, 0, 0⟩ (.int 0x20000000000001) = false := by
  refine ⟨by decide, by decide, _, construct_numberBeyond _ .above _, by decide, ?_⟩
  rw [Matcher.accepts]
  show (Double.ofInt 0x20000000000000).less (Double.ofInt 0x20000000000001) = false
  decide +kernel

end Matchers

end Docweave
