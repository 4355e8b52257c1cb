import Docweave.Proofs.Matching.Building

/-!
Matchers for parts of texts, with and without regard to case.

Without regard to case, the part and the text are both put into lower case, each on its own, and
what comes of the part is looked for in what comes of the text.  If every character had one lower
case, a text with the part would always be found.  But the capital sigma has two: it becomes the
final form at the end of a word, and the other form elsewhere.  What is the end of a word in a part
need not be one in a text, so a part is found in every text that has it only if the surroundings of
each of its sigmas decide the form within the part already.
-/

namespace Docweave

namespace Text

/-! ### Looking around -/

/-- Whether all characters are passed over when looking for a neighbour with a case. -/
def passedOver (cs : List Char) : Bool :=
  cs.all (Ranges.contains caseIgnorable)

theorem meetsCased_append (cs ds : List Char) :
    meetsCased (cs ++ ds) = if passedOver cs then meetsCased ds else meetsCased cs := by
  induction cs with
  | nil => rfl
  | cons c cs ih =>
      simp only [meetsCased, passedOver, List.cons_append, List.dropWhile_cons,
        List.all_cons] at ih ⊢
      cases Ranges.contains caseIgnorable c with
      | true => simpa using ih
      | false => simp

theorem meetsCased_of_passedOver {cs : List Char} (h : passedOver cs = true) :
    meetsCased cs = false := by
  have hrest := meetsCased_append cs []
  rwa [List.append_nil, if_pos h] at hrest

/-! ### Lower case in context -/

/-- The small form of a capital sigma, by what stands before it, given backwards, and after it. -/
def sigmaAt (before after : List Char) : Char :=
  if meetsCased before && !meetsCased after then '\u03c2' else '\u03c3'

/-- The lower case of a character at its place. -/
def lowerAt (before : List Char) (c : Char) (after : List Char) : List Char :=
  if c = '\u03a3' then [sigmaAt before after] else lowerChar c

/-- The lower case of a part of a text at its place. -/
def lowerWithin (before : List Char) : List Char → List Char → List Char
  | [], _ => []
  | c :: part, after => lowerAt before c (part ++ after) ++ lowerWithin (c :: before) part after

theorem lowerFrom_eq_lowerWithin (before cs : List Char) :
    lowerFrom before cs = lowerWithin before cs [] := by
  induction cs generalizing before with
  | nil => rfl
  | cons c cs ih =>
      rw [lowerFrom, lowerWithin, ih, List.append_nil, lowerAt, sigmaAt]
      congr 1
      split
      · split <;> rfl
      · rfl

theorem lower_eq_lowerWithin (cs : List Char) : lower cs = lowerWithin [] cs [] :=
  lowerFrom_eq_lowerWithin [] cs

theorem lowerWithin_append (before left right after : List Char) :
    lowerWithin before (left ++ right) after =
      lowerWithin before left (right ++ after) ++
        lowerWithin (left.reverse ++ before) right after := by
  induction left generalizing before with
  | nil => rfl
  | cons c left ih =>
      rw [List.cons_append, lowerWithin, lowerWithin, ih, List.reverse_cons, List.append_assoc,
        List.append_assoc, List.append_assoc, List.singleton_append]

/-- The lower case of a text is that of its parts at their places. -/
theorem lower_append_append (before part after : List Char) :
    lower (before ++ part ++ after) =
      lowerWithin [] before (part ++ after) ++ lowerWithin before.reverse part after ++
        lowerWithin (part.reverse ++ before.reverse) after [] := by
  rw [lower_eq_lowerWithin, lowerWithin_append, lowerWithin_append, List.append_nil,
    List.append_nil, List.reverse_append, List.append_nil]

/-! ### Sigmas whose form is decided -/

/-- Whether what stands on either side of a sigma decides its form, whatever stands further out: a
letter with a case follows, or there is a character before it that is not passed over and, if that
is a letter with a case, one after it too. -/
def Decided (before after : List Char) : Prop :=
  meetsCased after = true ∨
    passedOver before = false ∧ (meetsCased before = true → passedOver after = false)

instance (before after : List Char) : Decidable (Decided before after) :=
  inferInstanceAs (Decidable (_ ∨ _))

theorem Decided.sigmaAt_append {before after : List Char} (h : Decided before after)
    (left right : List Char) :
    sigmaAt (before ++ left) (after ++ right) = sigmaAt before after := by
  unfold sigmaAt
  rw [meetsCased_append, meetsCased_append]
  rcases h with hfollowed | ⟨hstop, hcased⟩
  · have hpassed : passedOver after = false := by
      cases hafter : passedOver after with
      | false => rfl
      | true => exact absurd (hfollowed.symm.trans (meetsCased_of_passedOver hafter)) (by simp)
    simp [hfollowed, hpassed]
  · cases hbefore : meetsCased before with
    | false => simp [hstop]
    | true => simp [hstop, hcased hbefore]

/-- Whether the form of each sigma in a part is decided, given what stands before it there. -/
def SettledFrom (before : List Char) : List Char → Prop
  | [] => True
  | c :: part => (c = '\u03a3' → Decided before part) ∧ SettledFrom (c :: before) part

/-- Whether the form of each sigma in a part is decided by the part. -/
def Settled (part : List Char) : Prop :=
  SettledFrom [] part

instance decidableSettledFrom (before : List Char) :
    (part : List Char) → Decidable (SettledFrom before part)
  | [] => inferInstanceAs (Decidable True)
  | c :: part =>
    have := decidableSettledFrom (c :: before) part
    inferInstanceAs (Decidable (_ ∧ _))

instance (part : List Char) : Decidable (Settled part) :=
  decidableSettledFrom [] part

theorem SettledFrom.lowerWithin_eq {before part : List Char} (h : SettledFrom before part)
    (left right : List Char) :
    lowerWithin (before ++ left) part right = lowerWithin before part [] := by
  induction part generalizing before with
  | nil => rfl
  | cons c part ih =>
      rw [lowerWithin, lowerWithin, ← List.cons_append, ih h.2, List.append_nil]
      congr 1
      unfold lowerAt
      split
      · next hc => rw [(h.1 hc).sigmaAt_append]
      · rfl

theorem exists_undecided {before part : List Char} (h : ¬ SettledFrom before part) :
    ∃ front back, part = front ++ '\u03a3' :: back ∧ ¬ Decided (front.reverse ++ before) back := by
  induction part generalizing before with
  | nil => exact absurd trivial h
  | cons c part ih =>
      by_cases hc : c = '\u03a3' → Decided before part
      · obtain ⟨front, back, rfl, hback⟩ := ih fun hrest => h ⟨hc, hrest⟩
        exact ⟨c :: front, back, rfl, by simpa using hback⟩
      · obtain ⟨rfl, hundecided⟩ := Classical.not_imp.mp hc
        exact ⟨[], part, rfl, hundecided⟩

/-! ### Sigmas whose form changes -/

section Counting

variable {small : Char} {left left' right right' : List Char}

/-- If each sigma that becomes a form in some surroundings does so in others too, there are at least
as many of that form there. -/
theorem count_lowerWithin_le
    (h : ∀ before after, sigmaAt (before ++ left) (after ++ right) = small →
      sigmaAt (before ++ left') (after ++ right') = small) (before part : List Char) :
    (lowerWithin (before ++ left) part right).count small ≤
      (lowerWithin (before ++ left') part right').count small := by
  induction part generalizing before with
  | nil => exact Nat.le_refl 0
  | cons c part ih =>
      rw [lowerWithin, lowerWithin, List.count_append, List.count_append]
      refine Nat.add_le_add ?_ (ih (c :: before))
      unfold lowerAt
      split
      · rw [List.count_singleton, List.count_singleton]
        by_cases hsmall : sigmaAt (before ++ left) (part ++ right) = small
        · rw [hsmall, h before part hsmall]
        · simp [hsmall]
      · exact Nat.le_refl _

/-- If besides that one sigma does so in the others only, there are more of that form there. -/
theorem count_lowerWithin_lt
    (h : ∀ before after, sigmaAt (before ++ left) (after ++ right) = small →
      sigmaAt (before ++ left') (after ++ right') = small) {front back : List Char}
    (hnot : sigmaAt (front.reverse ++ left) (back ++ right) ≠ small)
    (hsmall : sigmaAt (front.reverse ++ left') (back ++ right') = small) :
    (lowerWithin left (front ++ '\u03a3' :: back) right).count small <
      (lowerWithin left' (front ++ '\u03a3' :: back) right').count small := by
  have hfront : (lowerWithin left front ('\u03a3' :: back ++ right)).count small ≤
      (lowerWithin left' front ('\u03a3' :: back ++ right')).count small := by
    refine count_lowerWithin_le (fun before after => ?_) [] front
    simpa using h before (after ++ '\u03a3' :: back)
  have hsigma : (lowerAt (front.reverse ++ left) '\u03a3' (back ++ right)).count small <
      (lowerAt (front.reverse ++ left') '\u03a3' (back ++ right')).count small := by
    rw [lowerAt, lowerAt, if_pos rfl, if_pos rfl, hsmall]
    simp [hnot]
  have hback := count_lowerWithin_le h ('\u03a3' :: front.reverse) back
  rw [List.cons_append, List.cons_append] at hback
  rw [lowerWithin_append, lowerWithin_append, lowerWithin, lowerWithin, List.count_append,
    List.count_append, List.count_append, List.count_append]
  omega

end Counting

theorem meetsCased_append_letter (cs : List Char) :
    meetsCased (cs ++ ['A']) = (passedOver cs || meetsCased cs) := by
  have hletter : meetsCased ['A'] = true := by decide +kernel
  rw [meetsCased_append, hletter]
  cases passedOver cs <;> rfl

theorem lowerWithin_letter (before after : List Char) : lowerWithin before ['A'] after = ['a'] := by
  have hletter : lowerChar 'A' = ['a'] := by decide +kernel
  rw [lowerWithin, lowerAt, if_neg (by decide), hletter]
  rfl

/-- A letter before a part makes a sigma final that was not. -/
theorem count_lowerWithin_letter_lt {front back : List Char}
    (hfront : passedOver front.reverse = true) (hback : meetsCased back = false) :
    (lowerWithin ['A'] (front ++ '\u03a3' :: back) []).count '\u03c3' <
      (lower (front ++ '\u03a3' :: back)).count '\u03c3' := by
  rw [lower_eq_lowerWithin]
  refine count_lowerWithin_lt (fun before after => ?_) ?_ ?_
  · rw [List.append_nil, List.append_nil, sigmaAt, sigmaAt, meetsCased_append_letter]
    cases meetsCased before <;> simp
  · rw [List.append_nil, sigmaAt, meetsCased_append_letter, hfront, hback]
    simp
  · rw [List.append_nil, List.append_nil, sigmaAt, meetsCased_of_passedOver hfront]
    rfl

/-- A letter after a part makes a sigma no longer final that was. -/
theorem count_lowerWithin_before_letter_lt {front back : List Char}
    (hfront : meetsCased front.reverse = true) (hback : passedOver back = true) :
    (lowerWithin [] (front ++ '\u03a3' :: back) ['A']).count '\u03c2' <
      (lower (front ++ '\u03a3' :: back)).count '\u03c2' := by
  rw [lower_eq_lowerWithin]
  refine count_lowerWithin_lt (fun before after => ?_) ?_ ?_
  · rw [List.append_nil, List.append_nil, sigmaAt, sigmaAt, meetsCased_append_letter]
    cases meetsCased after <;> simp +contextual
  · rw [List.append_nil, sigmaAt, meetsCased_append_letter, hback]
    simp
  · rw [List.append_nil, List.append_nil, sigmaAt, hfront, meetsCased_of_passedOver hback]
    rfl

/-- Where the form of a sigma is not decided, a letter next to the part changes it: there are fewer
of one form then than the part has on its own. -/
theorem exists_fewer_in_lower {part : List Char} (h : ¬ Settled part) :
    ∃ left right small, (lower (left ++ part ++ right)).count small < (lower part).count small := by
  obtain ⟨front, back, rfl, hundecided⟩ := exists_undecided h
  rw [List.append_nil] at hundecided
  obtain ⟨hfollowed, hopen⟩ := not_or.mp hundecided
  simp only [lower_append_append]
  cases hstop : passedOver front.reverse with
  | true =>
      have hfewer := count_lowerWithin_letter_lt hstop (Bool.not_eq_true _ ▸ hfollowed)
      refine ⟨['A'], [], '\u03c3', ?_⟩
      rw [lowerWithin_letter, lowerWithin, List.append_nil, List.count_append]
      simpa using hfewer
  | false =>
      obtain ⟨hcased, hpassed⟩ := Classical.not_imp.mp fun hclosed => hopen ⟨hstop, hclosed⟩
      have hfewer := count_lowerWithin_before_letter_lt hcased (Bool.not_eq_false _ ▸ hpassed)
      refine ⟨[], ['A'], '\u03c2', ?_⟩
      rw [lowerWithin_letter, lowerWithin, List.nil_append, List.count_append]
      simpa using hfewer

/-- **A part is settled if lower case finds it wherever it stands.** -/
theorem settled_iff {part : List Char} :
    Settled part ↔ ∀ left right, lower part <:+: lower (left ++ part ++ right) := by
  constructor
  · intro h left right
    have hsame := SettledFrom.lowerWithin_eq h left.reverse right
    rw [List.nil_append, ← lower_eq_lowerWithin] at hsame
    rw [lower_append_append, hsame]
    exact ⟨_, _, rfl⟩
  · intro h
    by_contra hunsettled
    obtain ⟨left, right, small, hfewer⟩ := exists_fewer_in_lower hunsettled
    exact absurd ((h left right).sublist.count_le small) (Nat.not_le.mpr hfewer)

/-- A part is found if its characters stand next to each other. -/
theorem occursIn_eq_true_iff {part cs : List Char} : occursIn part cs = true ↔ part <:+: cs := by
  induction cs with
  | nil => simp [occursIn]
  | cons c cs ih =>
      rw [occursIn, Bool.or_eq_true, List.isPrefixOf_iff_prefix, ih, List.infix_cons_iff]

end Text

/-- Without regard to case, the lower case of a text has to have that of the part. -/
theorem hasPart_iff {part text : String} :
    (hasPart part true text = true ↔ part.toList <:+: text.toList) ∧
      (hasPart part false text = true ↔ Text.lower part.toList <:+: Text.lower text.toList) :=
  ⟨Text.occursIn_eq_true_iff, Text.occursIn_eq_true_iff⟩

theorem Matcher.accepts_textWith_iff {part : String} {caseSensitive : Bool} {now : Moment}
    {v : Value} :
    (Matcher.textWith part caseSensitive).accepts now v = true ↔
      ∃ text, v = .text text ∧ hasPart part caseSensitive text = true := by
  rw [Matcher.accepts]
  cases v <;> simp [Value.text?]

namespace Matchers

theorem construct_textWith (now : Moment) (part : String) :
    standard.construct now Matcher.Builtin.textWith.name ⟨[.text part], []⟩ =
      .ok (.textWith part false) :=
  construct_standard rfl

theorem construct_textWith_caseSensitive (now : Moment) (part : String) :
    standard.construct now Matcher.Builtin.textWith.name
        ⟨[.text part], [("case_sensitive", .bool true)]⟩ = .ok (.textWith part true) :=
  construct_standard rfl

/-- **Ignoring case only widens a matcher for texts with a part if the part is settled.**

The matchers that mind and ignore case are built for every part.  What the first accepts is accepted
by the second, for all values, exactly if the form of each sigma in the part is decided by the part.
And for any part, a text that has it is accepted by the second where the part has the lower case
there that it has on its own. -/
theorem ignoring_case_widens_iff (now later : Moment) (part : String) :
    ∃ minding ignoring,
      standard.construct now "AnyTextWith" ⟨[.text part], [("case_sensitive", .bool true)]⟩ =
        .ok minding ∧
      standard.construct now "AnyTextWith" ⟨[.text part], []⟩ = .ok ignoring ∧
      ((∀ v, minding.accepts later v = true → ignoring.accepts later v = true) ↔
        Text.Settled part.toList) ∧
      ∀ before after : String,
        Text.lowerWithin before.toList.reverse part.toList after.toList =
            Text.lower part.toList →
          minding.accepts later (.text (before ++ part ++ after)) = true ∧
          ignoring.accepts later (.text (before ++ part ++ after)) = true := by
  refine ⟨_, _, construct_textWith_caseSensitive now part, construct_textWith now part, ?_, ?_⟩
  · rw [Text.settled_iff]
    constructor
    · intro hwidens left right
      have hminding : (Matcher.textWith part true).accepts later
          (.text (String.ofList (left ++ part.toList ++ right))) = true := by
        refine Matcher.accepts_textWith_iff.mpr ⟨_, rfl, hasPart_iff.1.mpr ?_⟩
        rw [String.toList_ofList]
        exact ⟨left, right, rfl⟩
      obtain ⟨text, heq, hpart⟩ := Matcher.accepts_textWith_iff.mp (hwidens _ hminding)
      obtain rfl := Value.text.inj heq
      have hfound := hasPart_iff.2.mp hpart
      rwa [String.toList_ofList] at hfound
    · intro hsettled v hminding
      obtain ⟨text, rfl, hpart⟩ := Matcher.accepts_textWith_iff.mp hminding
      obtain ⟨left, right, htext⟩ := hasPart_iff.1.mp hpart
      refine Matcher.accepts_textWith_iff.mpr ⟨text, rfl, hasPart_iff.2.mpr ?_⟩
      exact htext ▸ hsettled left right
  · intro before after hsame
    rw [Matcher.accepts_textWith_iff, Matcher.accepts_textWith_iff]
    refine ⟨⟨_, rfl, hasPart_iff.1.mpr ?_⟩, ⟨_, rfl, hasPart_iff.2.mpr ?_⟩⟩
    · rw [String.toList_append, String.toList_append]
      exact ⟨_, _, rfl⟩
    · rw [String.toList_append, String.toList_append, Text.lower_append_append, hsame]
      exact ⟨_, _, rfl⟩

/-- In `ΟΔΟΣ 1` the word ends within the part, so ignoring case only widens. -/
theorem ignoring_case_widens_settled :
    ∃ minding ignoring,
      standard.construct ⟨0, 0, 0⟩ "AnyTextWith"
          ⟨[.text "ΟΔΟΣ 1"], [("case_sensitive", .bool true)]⟩ = .ok minding ∧
      standard.construct ⟨0, 0, 0⟩ "AnyTextWith" ⟨[.text "ΟΔΟΣ 1"], []⟩ = .ok ignoring ∧
      (∀ v, minding.accepts ⟨0, 0, 0⟩ v = true → ignoring.accepts ⟨0, 0, 0⟩ v = true) ∧
      ignoring.accepts ⟨0, 0, 0⟩ (.text "ΠΕΖΟΔΟΣ 1Α") = true := by
  obtain ⟨minding, ignoring, hminding, hignoring, hwidens, hpart⟩ :=
    ignoring_case_widens_iff ⟨0, 0, 0⟩ ⟨0, 0, 0⟩ "ΟΔΟΣ 1"
  refine ⟨minding, ignoring, hminding, hignoring, hwidens.mpr (by decide +kernel), ?_⟩
  exact (hpart "ΠΕΖ" "Α" (by decide +kernel)).2

/-- **Ignoring case may refuse what minding it accepts**: in `ΑΣ` the sigma is final, in `ΑΣΑ` it is
not. -/
theorem part_refused_ignoring_case :
    ∃ minding ignoring,
      standard.construct ⟨0, 0, 0⟩ "AnyTextWith"
          ⟨[.text "ΑΣ"], [("case_sensitive", .bool true)]⟩ = .ok minding ∧
      standard.construct ⟨0, 0, 0⟩ "AnyTextWith" ⟨[.text "ΑΣ"], []⟩ = .ok ignoring ∧
      minding.accepts ⟨0, 0, 0⟩ (.text "ΑΣΑ") = true ∧
      ignoring.accepts ⟨0, 0, 0⟩ (.text "ΑΣΑ") = false := by
  refine ⟨_, _, construct_textWith_caseSensitive _ _, construct_textWith _ _, ?_, ?_⟩
  · decide +kernel
  · decide +kernel

end Matchers

end Docweave
