import Docweave.Number
import Docweave.Proofs.Matching.Limits
import Mathlib.Algebra.Group.Nat.Defs
import Mathlib.Tactic.ByContra

/-!
Integers as binary64 numbers.

An integer becomes the binary64 number nearest to it.  A positive one with `e + 1` binary digits
has a significand of 53 digits (`significandOfNat`), counted in units of `2^(e-52)`, and its rank is
that significand behind those of all smaller powers of two.  Rounding keeps the order
(`rankOfRatio_one_mono`), and it is off by half a unit at most (`significandOfNat_near`), so what is
rounded to one number lies within one unit (`near_of_rank_eq`).  Up to 53 digits nothing is rounded
at all.

For the integers of a document this says: the order is kept, and two of them that become the same
number are equal, or they lie beyond `2^53` on the same side and at most 2048 apart
(`eq_or_near_of_merge`).
-/

namespace Docweave

namespace Double

/-! ### Rounding a quotient -/

section Quotients

variable {num num' den : Nat}

theorem divRound_cases (num den : Nat) :
    (divRound num den = num / den ∧ 2 * (num % den) ≤ den) ∨
      (divRound num den = num / den + 1 ∧ den ≤ 2 * (num % den)) := by
  unfold divRound
  dsimp only
  split
  · exact .inl ⟨rfl, by omega⟩
  split
  · exact .inr ⟨rfl, by omega⟩
  rcases Nat.mod_two_eq_zero_or_one (num / den) with heven | hodd
  · exact .inl ⟨by omega, by omega⟩
  · exact .inr ⟨by omega, by omega⟩

/-- A rounded quotient is off by half at most. -/
theorem divRound_near (num : Nat) (hden : 0 < den) :
    2 * num ≤ 2 * (divRound num den * den) + den ∧
      2 * (divRound num den * den) ≤ 2 * num + den := by
  have hdivision := Nat.div_add_mod' num den
  have hremainder := Nat.mod_lt num hden
  rcases divRound_cases num den with ⟨hround, htwice⟩ | ⟨hround, htwice⟩
  · rw [hround]
    omega
  · rw [hround, Nat.add_one_mul (num / den) den]
    omega

theorem divRound_mono (h : num ≤ num') : divRound num den ≤ divRound num' den := by
  have hquotient : num / den ≤ num' / den := Nat.div_le_div_right h
  rcases Nat.lt_or_eq_of_le hquotient with hlt | heq
  · rcases divRound_cases num den with hround | hround <;>
      rcases divRound_cases num' den with hround' | hround' <;> omega
  · -- with one quotient the remainders decide, and the tie goes the same way for both
    have hremainder : num % den ≤ num' % den := by
      have hdivision := Nat.div_add_mod' num den
      have hdivision' := Nat.div_add_mod' num' den
      rw [← heq] at hdivision'
      omega
    unfold divRound
    dsimp only
    rw [← heq]
    grind

theorem divRound_mul (k : Nat) (hden : 0 < den) : divRound (k * den) den = k := by
  simp [divRound, Nat.mul_div_cancel k hden, hden]

end Quotients

/-! ### Natural numbers -/

section Naturals

variable {m n : Nat}

theorem floorLog2_one (hn : n ≠ 0) : floorLog2 n 1 = n.log2 := by
  have hle : 1 <<< n.log2 ≤ n := by
    rw [Nat.one_shiftLeft]
    exact Nat.log2_self_le hn
  unfold floorLog2
  simp [show Nat.log2 1 = 0 by decide, hle]

theorem log2_mono (hm : m ≠ 0) (h : m ≤ n) : m.log2 ≤ n.log2 :=
  (Nat.le_log2 (by omega)).mpr (Nat.le_trans (Nat.log2_self_le hm) h)

/-- The 53 leading binary digits of a natural number, after rounding. -/
def significandOfNat (n : Nat) : Nat :=
  divRound (n * 2 ^ (52 - n.log2)) (2 ^ (n.log2 - 52))

theorem rankOfRatio_one (hn : n ≠ 0) :
    rankOfRatio n 1 = (n.log2 + 1022) * 0x10000000000000 + significandOfNat n := by
  have hexponent : max (-1074) (floorLog2 n 1 - 52) = (n.log2 : Int) - 52 := by
    rw [floorLog2_one hn]
    omega
  have hbinade : ((n.log2 : Int) - 52 + 1074).toNat = n.log2 + 1022 := by omega
  have hdown : (-((n.log2 : Int) - 52)).toNat = 52 - n.log2 := by omega
  have hup : ((n.log2 : Int) - 52).toNat = n.log2 - 52 := by omega
  unfold rankOfRatio significandOfNat
  rw [if_neg hn]
  dsimp only
  rw [hexponent, hbinade, hdown, hup, Nat.shiftLeft_eq, Nat.one_shiftLeft]

/-- A significand has 53 digits, or rounding made it the power of two that comes next. -/
theorem significandOfNat_bounds (hn : n ≠ 0) :
    0x10000000000000 ≤ significandOfNat n ∧ significandOfNat n ≤ 0x20000000000000 := by
  have hpower (e : Nat) :
      2 ^ (n.log2 + e) * 2 ^ (52 - n.log2) = 2 ^ (52 + e) * 2 ^ (n.log2 - 52) := by
    rw [← Nat.pow_add, ← Nat.pow_add]
    congr 1
    omega
  have hlow : 2 ^ n.log2 ≤ n := Nat.log2_self_le hn
  have hhigh : n ≤ 2 ^ (n.log2 + 1) := Nat.le_of_lt Nat.lt_log2_self
  constructor
  · calc 2 ^ 52 = divRound (2 ^ 52 * 2 ^ (n.log2 - 52)) (2 ^ (n.log2 - 52)) :=
          (divRound_mul _ (Nat.two_pow_pos _)).symm
      _ ≤ significandOfNat n := by
          refine divRound_mono ?_
          rw [← hpower 0]
          exact Nat.mul_le_mul_right _ hlow
  · calc significandOfNat n ≤ divRound (2 ^ 53 * 2 ^ (n.log2 - 52)) (2 ^ (n.log2 - 52)) := by
          refine divRound_mono ?_
          rw [← hpower 1]
          exact Nat.mul_le_mul_right _ hhigh
      _ = 2 ^ 53 := divRound_mul _ (Nat.two_pow_pos _)

/-- A number of at most 53 digits is not rounded. -/
theorem significandOfNat_of_small (h : n.log2 ≤ 52) :
    significandOfNat n * 2 ^ n.log2 = n * 2 ^ 52 := by
  have hunit : n.log2 - 52 = 0 := by omega
  have hexact := divRound_mul (n * 2 ^ (52 - n.log2)) Nat.one_pos
  rw [Nat.mul_one] at hexact
  rw [significandOfNat, hunit, Nat.pow_zero, hexact, Nat.mul_assoc, ← Nat.pow_add]
  congr 2
  omega

/-- Rounding is off by half a unit at most. -/
theorem significandOfNat_near (h : 52 ≤ n.log2) :
    2 * n ≤ 2 * (significandOfNat n * 2 ^ (n.log2 - 52)) + 2 ^ (n.log2 - 52) ∧
      2 * (significandOfNat n * 2 ^ (n.log2 - 52)) ≤ 2 * n + 2 ^ (n.log2 - 52) := by
  have hdigits : 52 - n.log2 = 0 := by omega
  rw [significandOfNat, hdigits, Nat.pow_zero, Nat.mul_one]
  exact divRound_near n (Nat.two_pow_pos _)

/-- **Rounding keeps the order.** -/
theorem rankOfRatio_one_mono (h : m ≤ n) : rankOfRatio m 1 ≤ rankOfRatio n 1 := by
  by_cases hm : m = 0
  · rw [hm, rankOfRatio, if_pos rfl]
    exact Nat.zero_le _
  have hn : n ≠ 0 := by omega
  have hmbounds := significandOfNat_bounds hm
  have hnbounds := significandOfNat_bounds hn
  rw [rankOfRatio_one hm, rankOfRatio_one hn]
  rcases Nat.lt_or_eq_of_le (log2_mono hm h) with hlt | heq
  · omega
  · have hsignificand : significandOfNat m ≤ significandOfNat n := by
      unfold significandOfNat
      rw [heq]
      exact divRound_mono (Nat.mul_le_mul_right _ h)
    omega

theorem rankOfRatio_one_pos (hn : n ≠ 0) : 0 < rankOfRatio n 1 := by
  rw [rankOfRatio_one hn]
  omega

/-- One rank is one value, also where a number is rounded up to the next power of two. -/
theorem value_eq_of_rank_eq (hm : m ≠ 0) (hle : m ≤ n) (h : rankOfRatio m 1 = rankOfRatio n 1) :
    significandOfNat m * 2 ^ m.log2 = significandOfNat n * 2 ^ n.log2 := by
  have hn : n ≠ 0 := by omega
  have hmbounds := significandOfNat_bounds hm
  have hnbounds := significandOfNat_bounds hn
  rw [rankOfRatio_one hm, rankOfRatio_one hn] at h
  rcases Nat.lt_or_eq_of_le (log2_mono hm hle) with hlt | heq
  · have hnext : n.log2 = m.log2 + 1 := by omega
    have hfull : significandOfNat m = 0x20000000000000 := by omega
    have hfirst : significandOfNat n = 0x10000000000000 := by omega
    rw [hfull, hfirst, hnext, Nat.pow_succ]
    omega
  · have hsignificand : significandOfNat m = significandOfNat n := by omega
    rw [hsignificand, heq]

/-- **What is rounded to one number lies beyond `2^53` and within one unit.** -/
theorem near_of_rank_eq (hlt : m < n) (h : rankOfRatio m 1 = rankOfRatio n 1) :
    0x20000000000000 ≤ m ∧ n - m ≤ 2 ^ (n.log2 - 52) := by
  have hn : n ≠ 0 := by omega
  have hm : m ≠ 0 := by
    rintro rfl
    have hpos := rankOfRatio_one_pos hn
    rw [← h, rankOfRatio, if_pos rfl] at hpos
    omega
  have hvalue := value_eq_of_rank_eq hm (Nat.le_of_lt hlt) h
  have hlog : m.log2 ≤ n.log2 := log2_mono hm (Nat.le_of_lt hlt)
  have hnlog : 52 < n.log2 := by
    by_contra hsmall
    rw [significandOfNat_of_small (by omega), significandOfNat_of_small (by omega)] at hvalue
    omega
  have hlarge : 0x20000000000000 ≤ m := by
    by_contra hless
    have hmlog : m.log2 < 53 := (Nat.log2_lt hm).mpr (by omega)
    have hpower : 2 ^ 53 ≤ 2 ^ n.log2 := Nat.pow_le_pow_right (by decide) (by omega)
    have hproduct := Nat.mul_le_mul (significandOfNat_bounds hn).1 hpower
    rw [← hvalue, significandOfNat_of_small (by omega)] at hproduct
    omega
  have hmlog : 53 ≤ m.log2 := (Nat.le_log2 hm).mpr hlarge
  have hrounded : significandOfNat m * 2 ^ (m.log2 - 52) =
      significandOfNat n * 2 ^ (n.log2 - 52) := by
    have hsplit (e : Nat) (he : 52 ≤ e) : 2 ^ e = 2 ^ (e - 52) * 2 ^ 52 := by
      rw [← Nat.pow_add, Nat.sub_add_cancel he]
    rw [hsplit m.log2 (by omega), hsplit n.log2 (by omega), ← Nat.mul_assoc,
      ← Nat.mul_assoc] at hvalue
    exact Nat.eq_of_mul_eq_mul_right (by decide) hvalue
  have hunit : 2 ^ (m.log2 - 52) ≤ 2 ^ (n.log2 - 52) :=
    Nat.pow_le_pow_right (by decide) (by omega)
  have hmnear := (significandOfNat_near (n := m) (by omega)).2
  have hnnear := (significandOfNat_near (n := n) (by omega)).1
  exact ⟨hlarge, by omega⟩

end Naturals

/-! ### The integers of a document -/

section Integers

open Number (InRange)

variable {i j : Int}

theorem rank_ofInt (hi : InRange i) : (ofInt i).rank = rankOfRatio i.natAbs 1 := by
  have hrank : rankOfRatio i.natAbs 1 < 2047 * 0x10000000000000 := by
    by_cases hzero : i.natAbs = 0
    · rw [hzero, rankOfRatio, if_pos rfl]
      decide
    · have hlog : i.natAbs.log2 < 65 := (Nat.log2_lt hzero).mpr (by unfold InRange at hi; omega)
      have hsignificand := (significandOfNat_bounds hzero).2
      rw [rankOfRatio_one hzero]
      omega
  unfold ofInt ofRatio?
  dsimp only
  rw [dif_pos hrank]
  rfl

theorem key_ofInt_of_nonneg (hi : InRange i) (h : 0 ≤ i) :
    (ofInt i).key = rankOfRatio i.natAbs 1 := by
  rw [key, negative_ofInt, decide_eq_false (by omega), rank_ofInt hi]
  rfl

theorem key_ofInt_of_neg (hi : InRange i) (h : i < 0) :
    (ofInt i).key = -(rankOfRatio i.natAbs 1 : Int) := by
  rw [key, negative_ofInt, decide_eq_true h, rank_ofInt hi]
  rfl

theorem key_ofInt_neg (hi : InRange i) (h : i < 0) : (ofInt i).key < 0 := by
  have hpos := rankOfRatio_one_pos (n := i.natAbs) (by omega)
  rw [key_ofInt_of_neg hi h]
  omega

theorem key_ofInt_nonneg (hi : InRange i) (h : 0 ≤ i) : 0 ≤ (ofInt i).key := by
  rw [key_ofInt_of_nonneg hi h]
  omega

theorem key_ofInt_mono (hi : InRange i) (hj : InRange j) (h : i ≤ j) :
    (ofInt i).key ≤ (ofInt j).key := by
  rcases Int.lt_or_le i 0 with hineg | hinonneg <;> rcases Int.lt_or_le j 0 with hjneg | hjnonneg
  · rw [key_ofInt_of_neg hi hineg, key_ofInt_of_neg hj hjneg]
    have := rankOfRatio_one_mono (m := j.natAbs) (n := i.natAbs) (by omega)
    omega
  · have := key_ofInt_neg hi hineg
    have := key_ofInt_nonneg hj hjnonneg
    omega
  · omega
  · rw [key_ofInt_of_nonneg hi hinonneg, key_ofInt_of_nonneg hj hjnonneg]
    have := rankOfRatio_one_mono (m := i.natAbs) (n := j.natAbs) (by omega)
    omega

/-- Two natural numbers of a document that are rounded to one are close. -/
theorem near_of_rank_eq_of_lt {m n : Nat} (hlt : m < n) (hn : n < 0x10000000000000000)
    (h : rankOfRatio m 1 = rankOfRatio n 1) : 0x20000000000000 ≤ m ∧ n - m ≤ 2048 := by
  obtain ⟨hlarge, hnear⟩ := near_of_rank_eq hlt h
  have hlog : n.log2 < 64 := (Nat.log2_lt (by omega)).mpr hn
  have hunit : 2 ^ (n.log2 - 52) ≤ 2 ^ 11 := Nat.pow_le_pow_right (by decide) (by omega)
  exact ⟨hlarge, by omega⟩

theorem near_of_key_ofInt_eq (hi : InRange i) (hj : InRange j) (hlt : i < j)
    (h : (ofInt i).key = (ofInt j).key) :
    j - i ≤ 2048 ∧ (0x20000000000000 ≤ i ∨ j ≤ -0x20000000000000) := by
  unfold InRange at hi hj
  rcases Int.lt_or_le i 0 with hineg | hinonneg <;> rcases Int.lt_or_le j 0 with hjneg | hjnonneg
  · rw [key_ofInt_of_neg hi hineg, key_ofInt_of_neg hj hjneg] at h
    have := near_of_rank_eq_of_lt (m := j.natAbs) (n := i.natAbs) (by omega) (by omega) (by omega)
    omega
  · have := key_ofInt_neg hi hineg
    have := key_ofInt_nonneg hj hjnonneg
    omega
  · omega
  · rw [key_ofInt_of_nonneg hi hinonneg, key_ofInt_of_nonneg hj hjnonneg] at h
    have := near_of_rank_eq_of_lt (m := i.natAbs) (n := j.natAbs) (by omega) (by omega) (by omega)
    omega

/-- Whether two integers become the same number. -/
def Merge (i j : Int) : Prop :=
  (ofInt i).same (ofInt j) = true

theorem merge_iff : Merge i j ↔ (ofInt i).key = (ofInt j).key :=
  beq_iff_eq

/-- **Two integers that become the same number are equal, or close and beyond `2^53`.** -/
theorem eq_or_near_of_merge (hi : InRange i) (hj : InRange j) (h : Merge i j) :
    i = j ∨ (i - j).natAbs ≤ 2048 ∧
      (0x20000000000000 ≤ i ∧ 0x20000000000000 ≤ j ∨
        i ≤ -0x20000000000000 ∧ j ≤ -0x20000000000000) := by
  have hkey := merge_iff.mp h
  rcases Int.lt_trichotomy i j with hlt | heq | hgt
  · have := near_of_key_ofInt_eq hi hj hlt hkey
    exact .inr ⟨by omega, by omega⟩
  · exact .inl heq
  · have := near_of_key_ofInt_eq hj hi hgt hkey.symm
    exact .inr ⟨by omega, by omega⟩

/-- **Rounded integers are compared as the integers are, unless they become the same number.** -/
theorem less_ofInt_iff (hi : InRange i) (hj : InRange j) :
    (ofInt i).less (ofInt j) = true ↔ i < j ∧ ¬ Merge i j := by
  rw [merge_iff, less, decide_eq_true_eq]
  constructor
  · intro h
    refine ⟨?_, by omega⟩
    by_contra hle
    have := key_ofInt_mono hj hi (by omega)
    omega
  · rintro ⟨hlt, hne⟩
    have := key_ofInt_mono hi hj (by omega)
    omega

theorem atMost_ofInt_iff (hi : InRange i) (hj : InRange j) :
    (ofInt i).atMost (ofInt j) = true ↔ i ≤ j ∨ Merge i j := by
  rw [merge_iff, atMost, decide_eq_true_eq]
  constructor
  · intro h
    by_contra hnot
    have := key_ofInt_mono hj hi (by omega)
    omega
  · rintro (hle | heq)
    · exact key_ofInt_mono hi hj hle
    · omega

end Integers

end Double

end Docweave
