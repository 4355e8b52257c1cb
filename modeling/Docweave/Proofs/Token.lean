import Docweave.Value.Walk
import Mathlib.Data.List.Basic
import Mathlib.Data.List.Induction
import Mathlib.Tactic.IntervalCases

/-!
Every element of a list has exactly one token.

`index?` reads a token by folding its digits, `token?` writes the position of an element in
decimal.  What ties the two together is that a canonical row of digits is the decimal text of its
own value: no sign, no leading zero, nothing but digits, so there is nothing left for two texts of
one number to differ in.  `index?_eq_some_iff` is that argument with the bound of a machine word,
and the rest of the module reads it off.
-/

namespace Docweave

/-- A row of decimal digits without a leading zero. -/
structure Canonical (cs : List Char) : Prop where
  head : cs = ['0'] ∨ (cs ≠ [] ∧ cs.head? ≠ some '0')
  digits : ∀ c ∈ cs, '0' ≤ c ∧ c ≤ '9'

/-- The number that a row of digits writes. -/
def digitsValue (cs : List Char) : Nat :=
  cs.foldl (fun n c => n * 10 + (c.toNat - '0'.toNat)) 0

private theorem digitChar_of_digit {c : Char} (h : '0' ≤ c ∧ c ≤ '9') :
    c.toNat - 48 < 10 ∧ Nat.digitChar (c.toNat - 48) = c := by
  have hlo : 48 ≤ c.toNat := h.1
  have hhi : c.toNat ≤ 57 := h.2
  have hc : c = Char.ofNat c.toNat := (Char.ofNat_toNat c).symm
  generalize c.toNat = n at hlo hhi hc
  subst hc
  interval_cases n <;> decide

private theorem digitsValue_eq (cs : List Char) : digitsValue cs = Nat.ofDigitChars 10 cs 0 := by
  simp only [digitsValue, Nat.ofDigitChars_eq_foldl, Nat.mul_comm]

private theorem ofDigitChars_pos {cs : List Char} (hne : cs ≠ []) (hhead : cs.head? ≠ some '0')
    (hdigits : ∀ c ∈ cs, '0' ≤ c ∧ c ≤ '9') : 0 < Nat.ofDigitChars 10 cs 0 := by
  cases cs with
  | nil => exact absurd rfl hne
  | cons c cs =>
      have hc := hdigits c (by simp)
      have hlo : 48 ≤ c.toNat := hc.1
      have hne0 : c.toNat ≠ 48 := by
        intro h48
        apply hhead
        have : c = '0' := by rw [← Char.ofNat_toNat c, h48]
        simp [this]
      rw [Nat.ofDigitChars_cons, Nat.ofDigitChars_eq_ofDigitChars_zero]
      have hpos : 0 < 10 * 0 + (c.toNat - '0'.toNat) := by
        show 0 < 10 * 0 + (c.toNat - 48)
        omega
      have := Nat.mul_pos (Nat.pow_pos (n := cs.length) (by omega : 0 < 10)) hpos
      omega

/-- A row of digits without a leading zero is the decimal text of its value. -/
theorem toDigits_digitsValue {cs : List Char} (h : Canonical cs) :
    Nat.toDigits 10 (digitsValue cs) = cs := by
  rw [digitsValue_eq]
  obtain ⟨hhead, hdigits⟩ := h
  rcases hhead with rfl | ⟨hne, hhead⟩
  · rfl
  induction cs using List.reverseRecOn with
  | nil => exact absurd rfl hne
  | append_singleton front c ih =>
      obtain ⟨hlt, hchar⟩ := digitChar_of_digit (hdigits c (by simp))
      have hlast : Nat.ofDigitChars 10 (front ++ [c]) 0
          = 10 * Nat.ofDigitChars 10 front 0 + (c.toNat - 48) := by
        rw [Nat.ofDigitChars_append, Nat.ofDigitChars_cons, Nat.ofDigitChars_nil]
        rfl
      rw [hlast]
      by_cases hfront : front = []
      · subst hfront
        rw [Nat.ofDigitChars_nil, Nat.toDigits_of_lt_base (by omega)]
        simpa using hchar
      · have hhead' : front.head? ≠ some '0' := by
          rwa [List.head?_append_of_ne_nil front hfront] at hhead
        have hdigits' : ∀ d ∈ front, '0' ≤ d ∧ d ≤ '9' := fun d hd => hdigits d (by simp [hd])
        have hpos := ofDigitChars_pos hfront hhead' hdigits'
        rw [← Nat.toDigits_append_toDigits (by omega) hpos hlt, ih hdigits' hfront hhead',
          Nat.toDigits_of_lt_base hlt, hchar]

theorem digitsValue_toDigits (i : Nat) : digitsValue (Nat.toDigits 10 i) = i := by
  rw [digitsValue_eq, Nat.ofDigitChars_ten_toDigits]

theorem canonical_toDigits (i : Nat) : Canonical (Nat.toDigits 10 i) := by
  constructor
  · rcases Nat.eq_zero_or_pos i with rfl | hpos
    · exact Or.inl rfl
    refine Or.inr ⟨Nat.toDigits_ne_nil, ?_⟩
    induction i using Nat.strong_induction_on with
    | _ i ih =>
        by_cases hlt : i < 10
        · rw [Nat.toDigits_of_lt_base hlt]
          interval_cases i <;> decide
        · rw [Nat.toDigits_of_base_le (by omega) (by omega),
            List.head?_append_of_ne_nil _ Nat.toDigits_ne_nil]
          exact ih (i / 10) (by omega) (by omega)
  · intro c hc
    have hdigit := Nat.isDigit_of_mem_toDigits (by omega) (by omega) hc
    simp only [Char.isDigit, Bool.and_eq_true, decide_eq_true_eq] at hdigit
    exact hdigit

private theorem index?_eq (token : String) : index? token =
    if (token.toList == ['0'] || (token.toList ≠ [] && token.toList.head? ≠ some '0')) &&
        token.toList.all (fun c => decide ('0' ≤ c ∧ c ≤ '9')) then
      if digitsValue token.toList < 0x10000000000000000 then some (digitsValue token.toList)
      else none
    else none := rfl

private theorem canonical_iff (cs : List Char) : Canonical cs ↔
    ((cs == ['0'] || (cs ≠ [] && cs.head? ≠ some '0')) &&
      cs.all (fun c => decide ('0' ≤ c ∧ c ≤ '9'))) = true := by
  simp only [Bool.and_eq_true, Bool.or_eq_true, beq_iff_eq, List.all_eq_true, decide_eq_true_eq]
  exact ⟨fun h => ⟨h.head, h.digits⟩, fun h => ⟨h.1, h.2⟩⟩

/-- **A token is an index exactly when it is the decimal text of a number that a machine word
holds.** -/
theorem index?_eq_some_iff {token : String} {i : Nat} :
    index? token = some i ↔ token = toString i ∧ i < 0x10000000000000000 := by
  rw [index?_eq]
  constructor
  · intro h
    split at h
    · rename_i hcanonical
      split at h
      · rename_i hlt
        obtain rfl := Option.some.inj h
        refine ⟨?_, hlt⟩
        rw [Nat.toString_eq_ofList_toDigits,
          toDigits_digitsValue ((canonical_iff _).mpr hcanonical), String.ofList_toList]
      · exact absurd h (by simp)
    · exact absurd h (by simp)
  · rintro ⟨rfl, hlt⟩
    have hlist : (toString i).toList = Nat.toDigits 10 i := by
      rw [Nat.toString_eq_repr, Nat.toList_repr]
    rw [hlist, if_pos ((canonical_iff _).mp (canonical_toDigits i)), digitsValue_toDigits,
      if_pos hlt]

theorem token?_eq_some_iff {token : String} {i : Nat} :
    token? i = some token ↔ index? token = some i := by
  rw [index?_eq_some_iff, token?]
  split
  · rename_i hlt
    exact ⟨fun h => ⟨(Option.some.inj h).symm, hlt⟩, fun h => by rw [h.1]⟩
  · rename_i hge
    exact ⟨fun h => absurd h (by simp), fun h => absurd h.2 hge⟩

/-- Two tokens of one index are one token. -/
theorem index?_inj {a b : String} {i : Nat} (ha : index? a = some i) (hb : index? b = some i) :
    a = b := by
  rw [(index?_eq_some_iff.mp ha).1, (index?_eq_some_iff.mp hb).1]

/-- Two positions with one token are one position. -/
theorem token?_inj {token : String} {i j : Nat} (hi : token? i = some token)
    (hj : token? j = some token) : i = j :=
  Option.some.inj ((token?_eq_some_iff.mp hi).symm.trans (token?_eq_some_iff.mp hj))

theorem toString_inj {i j : Nat} (h : toString i = toString j) : i = j := by
  have hdigits : Nat.toDigits 10 i = Nat.toDigits 10 j := by
    simpa only [Nat.toString_eq_repr, Nat.toList_repr] using congrArg String.toList h
  rw [← digitsValue_toDigits i, hdigits, digitsValue_toDigits]

theorem index?_appendToken : index? appendToken = none := by decide

theorem token?_eq_none_iff {i : Nat} : token? i = none ↔ 0x10000000000000000 ≤ i := by
  rw [token?]
  split <;> simp <;> omega

/-- Without a token of its own, a position is the index of no token. -/
theorem index?_ne_of_token?_eq_none {i : Nat} (h : token? i = none) (token : String) :
    index? token ≠ some i := by
  intro hindex
  rw [token?_eq_some_iff.mpr hindex] at h
  exact absurd h (by simp)

end Docweave
