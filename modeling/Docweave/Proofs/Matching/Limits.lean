import Docweave.Date.Limit

/-!
Offsets that are accepted lead somewhere.

Moments are only accepted in some years, so adding to a moment may fail.  An offset is read as a
number of microseconds that is at most `10^17`, which are some three thousand years, and cutting it
off to a whole number keeps that bound.  So a limit that was read is a moment for everybody who
compares within a quarter of a million years around 1970 (`DateLimit.isSome_at?_of_read`).
-/

namespace Docweave

namespace Double

/-! ### Signs -/

theorem negative_of_ofRatio? {negative : Bool} {num den : Nat} {d : Double}
    (h : ofRatio? negative num den = some d) : d.negative = negative := by
  unfold ofRatio? at h
  dsimp only at h
  split at h
  · rw [← Option.some.inj h]
  · exact absurd h (by simp)

theorem negative_of_ofDecimal? {negative : Bool} {digits : Nat} {scale : Int} {d : Double}
    (h : ofDecimal? negative digits scale = some d) : d.negative = negative := by
  unfold ofDecimal? at h
  split at h
  · rw [← Option.some.inj h, zero]
  split at h
  · exact absurd h (by simp)
  split at h
  · rw [← Option.some.inj h, zero]
  · exact negative_of_ofRatio? h

theorem negative_ofInt (i : Int) : (ofInt i).negative = decide (i < 0) := by
  unfold ofInt
  cases h : ofRatio? (decide (i < 0)) i.natAbs 1 with
  | none => rfl
  | some d => exact negative_of_ofRatio? h

/-! ### The bound -/

/-- A number that is not negative and at most `10^17` is cut off to such an integer. -/
theorem truncate_le_of_atMost {d : Double} (hd : d.negative = false)
    (h : d.atMost DateLimit.mostMicros = true) :
    0 ≤ d.truncate ∧ d.truncate ≤ 100000000000000000 := by
  have hmost : DateLimit.mostMicros.key = 1078 * 0x10000000000000 + 6250000000000000 := by
    decide +kernel
  have hrank : d.rank ≤ 1078 * 0x10000000000000 + 6250000000000000 := by
    unfold atMost at h
    rw [decide_eq_true_eq, hmost] at h
    have hkey : d.key = d.rank := by
      unfold key
      rw [hd]
      rfl
    omega
  have hwhole : d.truncate = ((d.numerator / d.denominator : Nat) : Int) := by
    unfold truncate
    rw [hd]
    rfl
  have hbound : d.numerator ≤ 100000000000000000 := by
    -- numbers of the greatest exponent are told by their significand, all others are smaller anyway
    by_cases htop : d.exponent = 4
    · have hsignificand : d.significand ≤ 6250000000000000 := by
        have := d.rank_eq
        omega
      simp only [numerator, htop, Nat.shiftLeft_eq]
      show d.significand * 2 ^ 4 ≤ _
      omega
    · have hexponent : d.exponent.toNat ≤ 3 := by
        unfold exponent at htop ⊢
        omega
      have hpower : 2 ^ d.exponent.toNat ≤ 2 ^ 3 := Nat.pow_le_pow_right (by omega) hexponent
      have hsmall := Nat.mul_le_mul (Nat.le_of_lt d.significand_lt) hpower
      rw [numerator, Nat.shiftLeft_eq]
      omega
  have hquotient := Nat.div_le_self d.numerator d.denominator
  rw [hwhole]
  generalize d.numerator / d.denominator = quotient at hquotient ⊢
  omega

end Double

/-- A literal without a sign is not negative. -/
theorem Literal.negative_of_double? {cs : List Char} (hcs : '-' ∉ cs) {d : Double}
    (h : double? cs = some d) : d.negative = false := by
  have hsign : (sign cs).1 = false := by
    unfold sign
    split
    · exact absurd List.mem_cons_self hcs
    · rfl
    · rfl
  obtain ⟨decimal, -, hd⟩ := Option.bind_eq_some_iff.mp
    (show (decimal? (sign cs).2).bind (fun decimal =>
      Double.ofDecimal? (sign cs).1 decimal.1 decimal.2) = some d from h)
  exact (Double.negative_of_ofDecimal? hd).trans hsign

namespace DateLimit

/-- The offset of a limit that was read is at most `10^17` microseconds. -/
theorem micros_of_read {text text' : String} {micros : Int}
    (h : read text = .ok (.relative text' micros)) :
    -100000000000000000 ≤ micros ∧ micros ≤ 100000000000000000 := by
  unfold read at h
  split at h
  · obtain ⟨-, rfl⟩ := relative.inj (Except.ok.inj h)
    omega
  split at h
  · rename_i offset _
    unfold Offset.limit at h
    split at h
    · exact absurd h (by simp)
    rename_i hdigits
    split at h
    · exact absurd h (by simp)
    rename_i d hd
    split at h
    · rename_i hmost
      have hminus : '-' ∉ offset.amount := by
        intro hmem
        simp only [Bool.not_eq_true', Bool.not_eq_false, List.all_eq_true] at hdigits
        exact absurd (hdigits _ hmem) (by decide)
      obtain ⟨amount, hamount, hd⟩ := Option.bind_eq_some_iff.mp hd
      have hnegative : d.negative = false := by
        rw [Double.negative_of_ofRatio? hd, Literal.negative_of_double? hminus hamount,
          Double.negative_ofInt]
        have hunit : ¬ (offset.micros : Int) < 0 := by omega
        rw [decide_eq_false hunit]
        rfl
      have htruncate := Double.truncate_le_of_atMost hnegative hmost
      obtain ⟨-, rfl⟩ := relative.inj (Except.ok.inj h)
      split <;> omega
    · exact absurd h (by simp)
  · split at h
    · exact absurd (Except.ok.inj h) (by simp)
    · exact absurd h (by simp)

end DateLimit

/-! ### The years around 1970 -/

theorem CalendarDay.acceptsYear_ofNumber {number : Int}
    (h : -93200000 ≤ number ∧ number ≤ 93200000) :
    Calendar.acceptsYear (ofNumber number).year = true := by
  have hyear : Calendar.firstYear ≤ (ofNumber number).year ∧
      (ofNumber number).year ≤ Calendar.lastYear := by
    unfold ofNumber Calendar.firstYear Calendar.lastYear
    dsimp only
    -- four centuries have 146097 days
    have hera : -634 ≤ (number + 719468) / 146097 ∧ (number + 719468) / 146097 ≤ 643 := by omega
    have hdayOfEra : 0 ≤ number + 719468 - (number + 719468) / 146097 * 146097 ∧
        number + 719468 - (number + 719468) / 146097 * 146097 < 146097 := by omega
    generalize (number + 719468) / 146097 = era at hera hdayOfEra ⊢
    generalize number + 719468 - era * 146097 = dayOfEra at hdayOfEra ⊢
    have hyearOfEra :
        0 ≤ (dayOfEra - dayOfEra / 1460 + dayOfEra / 36524 - dayOfEra / 146096) / 365 ∧
        (dayOfEra - dayOfEra / 1460 + dayOfEra / 36524 - dayOfEra / 146096) / 365 ≤ 400 := by
      omega
    generalize (dayOfEra - dayOfEra / 1460 + dayOfEra / 36524 - dayOfEra / 146096) / 365 = yearOfEra
      at hyearOfEra ⊢
    split
    · show _ ≤ yearOfEra + era * 400 ∧ yearOfEra + era * 400 ≤ _
      omega
    · show _ ≤ yearOfEra + era * 400 + 1 ∧ yearOfEra + era * 400 + 1 ≤ _
      omega
  exact decide_eq_true hyear

/-- A moment on a clock, some quarter of a million years before or after 1970 at most. -/
structure Moment.Near (m : Moment) : Prop where
  day : -92000000 ≤ m.day ∧ m.day ≤ 92000000
  second : m.second < secondsPerDay
  nano : m.nano < 2 * nanosPerSecond

theorem Moment.Near.isSome_addNanos? {m : Moment} (hm : m.Near) {nanos : Int}
    (h : -100000000000000000000 ≤ nanos ∧ nanos ≤ 100000000000000000000) :
    (m.addNanos? nanos).isSome = true := by
  obtain ⟨hday, hsecond, hnano⟩ := hm
  unfold secondsPerDay at hsecond
  unfold nanosPerSecond at hnano
  unfold addNanos? addSeconds? isValid secondsPerDay nanosPerSecond
  dsimp only
  rw [CalendarDay.acceptsYear_ofNumber, if_pos rfl, Option.isSome_some]
  omega

/-- **A limit that was read is a moment**, whoever compares within the years around 1970. -/
theorem DateLimit.isSome_at?_of_read {text : String} {limit : DateLimit} {now : Moment}
    (hnow : now.Near) (h : read text = .ok limit) : (limit.at? now).isSome = true := by
  cases limit with
  | fixed moment => rfl
  | relative text' micros =>
      have hmicros := micros_of_read h
      exact hnow.isSome_addNanos? (by omega)

end Docweave
