import Docweave.Proofs.Pointer.Canonical

/-!
Reading an escape in two steps is reading it in one.

Escapes are read by two replacements, first of `~1` and then of `~0`, each from left to right.
`decode` goes over the characters once.  The two agree because the first replacement brings in
slashes and nothing else (`head?_replaceMark`): no digit comes to stand behind a tilde, so whatever
the second replacement finds was an escape in the text before.  In the other order that would not
hold, for a tilde that `~0` leaves can come to stand before a `1`.

The texts that reading and writing leave as they are can be told without either: they have no slash,
and after each tilde one of the two digits (`Escaped`).
-/

namespace Docweave

namespace Pointer

/-- Reads escapes in one pass. -/
def decode : List Char → List Char
  | '~' :: '1' :: cs => '/' :: decode cs
  | '~' :: '0' :: cs => '~' :: decode cs
  | c :: cs => c :: decode cs
  | [] => []

/-- Writes a text in place of every occurrence of a character. -/
def replaceChar (char : Char) (new : List Char) (cs : List Char) : List Char :=
  cs.flatMap fun c => if c = char then new else [c]

/-- There is no slash, and every tilde is followed by one of the two digits. -/
structure Escaped (cs : List Char) : Prop where
  no_slash : '/' ∉ cs
  digit : ∀ i, cs[i]? = some '~' → cs[i + 1]? = some '0' ∨ cs[i + 1]? = some '1'

variable {c : Char} {cs : List Char}

theorem head?_ne_of_forall_ne {digit : Char} (h : ∀ ds, cs = digit :: ds → False) :
    cs.head? ≠ some digit := by
  intro hhead
  obtain ⟨ds, hds⟩ := List.head?_eq_some_iff.mp hhead
  exact h ds hds

theorem escapeChars_cons (c : Char) (cs : List Char) :
    escapeChars (c :: cs) = escapeChar c ++ escapeChars cs :=
  List.flatMap_cons

/-! ### Two replacements -/

/-- Writing in two steps is writing in one: what the first step brings in is no slash. -/
theorem replaceChar_replaceChar (cs : List Char) :
    replaceChar '/' ['~', '1'] (replaceChar '~' ['~', '0'] cs) = escapeChars cs := by
  rw [replaceChar, replaceChar, List.flatMap_assoc, escapeChars]
  congr 1
  funext c
  by_cases htilde : c = '~'
  · subst htilde
    rfl
  · by_cases hslash : c = '/' <;> simp [escapeChar, htilde, hslash]

/-- The first replacement puts no digit at the front. -/
theorem head?_replaceMark (h : (replaceMark '1' '/' cs).head? = some '0') :
    cs.head? = some '0' := by
  fun_cases replaceMark '1' '/' cs with
  | case1 => exact h
  | case2 => exact h
  | case3 c d cs hmark =>
      rw [replaceMark, if_pos hmark] at h
      exact absurd (Option.some.inj h) (by decide)
  | case4 c d cs hmark =>
      rw [replaceMark, if_neg hmark] at h
      exact h

theorem replaceMark_tilde_of_head?_ne {digit : Char} (char : Char) (h : cs.head? ≠ some digit) :
    replaceMark digit char ('~' :: cs) = '~' :: replaceMark digit char cs := by
  cases cs with
  | nil => rfl
  | cons d cs => rw [replaceMark, if_neg fun hmark => h (congrArg some hmark.2)]

/-- A tilde that no digit follows stands for itself. -/
theorem unescapeChars_tilde (hzero : cs.head? ≠ some '0') (hone : cs.head? ≠ some '1') :
    unescapeChars ('~' :: cs) = '~' :: unescapeChars cs := by
  rw [unescapeChars, replaceMark_tilde_of_head?_ne '/' hone,
    replaceMark_tilde_of_head?_ne '~' (mt head?_replaceMark hzero)]
  rfl

/-- **Two replacements read what one pass reads.** -/
theorem unescapeChars_eq_decode (cs : List Char) : unescapeChars cs = decode cs := by
  fun_induction decode cs with
  | case1 cs ih => exact (unescapeChars_escapeChar_append '/' cs).trans (congrArg _ ih)
  | case2 cs ih => exact (unescapeChars_escapeChar_append '~' cs).trans (congrArg _ ih)
  | case3 c cs hone hzero ih =>
      rw [← ih]
      by_cases hc : c = '~'
      · subst hc
        exact unescapeChars_tilde (head?_ne_of_forall_ne fun ds => hzero ds rfl)
          (head?_ne_of_forall_ne fun ds => hone ds rfl)
      · exact unescapeChars_cons_of_ne hc cs
  | case4 => rfl

/-! ### Texts that are escaped -/

theorem Escaped.nil : Escaped [] :=
  ⟨List.not_mem_nil, fun i hi => absurd hi (by simp)⟩

theorem Escaped.of_cons (h : Escaped (c :: cs)) : Escaped cs :=
  ⟨fun hslash => h.no_slash (List.mem_cons_of_mem c hslash), fun i => h.digit (i + 1)⟩

theorem Escaped.head? (h : Escaped ('~' :: cs)) : cs.head? = some '0' ∨ cs.head? = some '1' := by
  rw [List.head?_eq_getElem?]
  exact h.digit 0 rfl

theorem Escaped.cons (h : Escaped cs) (hslash : c ≠ '/')
    (hdigit : c = '~' → cs.head? = some '0' ∨ cs.head? = some '1') : Escaped (c :: cs) := by
  refine ⟨fun hmem => ?_, fun i hi => ?_⟩
  · rcases List.mem_cons.mp hmem with heq | hmem
    · exact hslash heq.symm
    · exact h.no_slash hmem
  · cases i with
    | zero =>
        rw [List.getElem?_cons_succ, ← List.head?_eq_getElem?]
        exact hdigit (Option.some.inj hi)
    | succ i => exact h.digit i hi

/-- What is written is escaped. -/
theorem escaped_escapeChars (cs : List Char) : Escaped (escapeChars cs) := by
  induction cs with
  | nil => exact .nil
  | cons c cs ih =>
      rw [escapeChars_cons, escapeChar]
      split
      · exact (ih.cons (by decide) fun h => absurd h (by decide)).cons (by decide) fun _ => .inl rfl
      split
      · exact (ih.cons (by decide) fun h => absurd h (by decide)).cons (by decide) fun _ => .inr rfl
      · next htilde hslash => exact ih.cons hslash fun heq => absurd heq htilde

/-- What is escaped is written again as it was. -/
theorem escapeChars_decode (h : Escaped cs) : escapeChars (decode cs) = cs := by
  fun_induction decode cs with
  | case1 cs ih => exact congrArg (fun cs => '~' :: '1' :: cs) (ih h.of_cons.of_cons)
  | case2 cs ih => exact congrArg (fun cs => '~' :: '0' :: cs) (ih h.of_cons.of_cons)
  | case3 c cs hone hzero ih =>
      have htilde : c ≠ '~' := by
        rintro rfl
        rcases h.head? with hdigit | hdigit
        · exact head?_ne_of_forall_ne (fun ds => hzero ds rfl) hdigit
        · exact head?_ne_of_forall_ne (fun ds => hone ds rfl) hdigit
      have hslash : c ≠ '/' := fun heq => h.no_slash (heq ▸ List.mem_cons_self)
      rw [escapeChars_cons, escapeChar, if_neg htilde, if_neg hslash, ih h.of_cons]
      rfl
  | case4 => rfl

/-- **Escapes are read in one pass, and reading undoes writing.**  Writing replaces the tilde and
then the slash, reading the escape of the slash and then that of the tilde, and in neither does the
second replacement find anything that the first one brought in.  Every text is read back from its
escaped form, and writing what was read gives the text back exactly if it has no slash and each of
its tildes is followed by one of the two digits. -/
theorem escapes_read_in_one_pass (text : String) :
    unescape text = String.ofList (decode text.toList) ∧
    escape text =
      String.ofList (replaceChar '/' ['~', '1'] (replaceChar '~' ['~', '0'] text.toList)) ∧
    unescape (escape text) = text ∧
    (escape (unescape text) = text ↔ Escaped text.toList) := by
  refine ⟨congrArg String.ofList (unescapeChars_eq_decode _),
    congrArg String.ofList (replaceChar_replaceChar _).symm, ?_, ?_⟩
  · rw [unescape, escape, String.toList_ofList, unescapeChars_escapeChars, String.ofList_toList]
  · rw [escape, unescape, String.toList_ofList, unescapeChars_eq_decode]
    constructor
    · intro h
      rw [← h, String.toList_ofList]
      exact escaped_escapeChars _
    · intro h
      rw [escapeChars_decode h, String.ofList_toList]

/-- The tilde that `~0` stands for is no part of an escape, and neither is one before another. -/
example : unescape "~01~~1~" = "~1~/~" := by rfl

end Pointer

end Docweave
