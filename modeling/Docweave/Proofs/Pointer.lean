import Docweave.Pointer

/-!
Reading and writing pointers.

A text with a mark is read as a pointer of the kind that the mark says, or not at all.  Different
paths have different texts: the escape is a prefix code, so escaped segments can be told apart, and
none of them holds a slash, so the slashes of the text of a path are the ones between its segments.
-/

namespace Docweave

namespace Pointer

/-! ### Marks -/

theorem parse_of_isReferenceText {raw : String} (h : isReferenceText raw = true) :
    (∃ flaw, parse raw = .error flaw) ∨ ∃ first rest, parse raw = .ok (.reference first rest) := by
  obtain ⟨target, htarget⟩ := Option.isSome_iff_exists.mp h
  simp only [parse, htarget]
  cases pathOfChars target with
  | error flaw => exact .inl ⟨_, rfl⟩
  | ok path =>
      cases path with
      | nil => exact .inl ⟨_, rfl⟩
      | cons first rest => exact .inr ⟨first, rest, rfl⟩

theorem parse_of_isFileText {raw : String} (hreference : isReferenceText raw = false)
    (h : isFileText raw = true) :
    (∃ flaw, parse raw = .error flaw) ∨ ∃ path hpath, parse raw = .ok (.file path hpath) := by
  have hnone := Option.not_isSome_iff_eq_none.mp (Bool.eq_false_iff.mp hreference)
  obtain ⟨target, htarget⟩ := Option.isSome_iff_exists.mp h
  simp only [parse, hnone, htarget]
  split
  · next hpath => exact .inr ⟨_, hpath, rfl⟩
  · exact .inl ⟨_, rfl⟩

/-! ### Texts of paths -/

theorem escapeChar_ne_nil (c : Char) : escapeChar c ≠ [] := by
  rw [escapeChar]
  split
  · simp
  · split <;> simp

/-- The escape of no character begins the escape of another. -/
theorem escapeChar_append_inj {c d : Char} {cs ds : List Char}
    (h : escapeChar c ++ cs = escapeChar d ++ ds) : c = d ∧ cs = ds := by
  simp only [escapeChar] at h
  grind

theorem escapeChars_inj {cs ds : List Char} (h : escapeChars cs = escapeChars ds) : cs = ds := by
  induction cs generalizing ds with
  | nil =>
      cases ds with
      | nil => rfl
      | cons d ds =>
          simp only [escapeChars, List.flatMap_nil, List.flatMap_cons] at h
          exact absurd (List.append_eq_nil_iff.mp h.symm).1 (escapeChar_ne_nil d)
  | cons c cs ih =>
      cases ds with
      | nil =>
          simp only [escapeChars, List.flatMap_nil, List.flatMap_cons] at h
          exact absurd (List.append_eq_nil_iff.mp h).1 (escapeChar_ne_nil c)
      | cons d ds =>
          simp only [escapeChars, List.flatMap_cons] at h
          obtain ⟨rfl, hrest⟩ := escapeChar_append_inj h
          rw [ih hrest]

theorem slash_not_mem_escapeChars (cs : List Char) : '/' ∉ escapeChars cs := by
  intro h
  obtain ⟨c, -, hc⟩ := List.mem_flatMap.mp h
  simp only [escapeChar] at hc
  grind

/-- Cutting the text of a path at slashes gives its segments, escaped. -/
theorem splitOn_charsOfPath (segment : String) (path : Path) :
    Text.splitOn '/' (escapeChars segment.toList ++ charsOfPath path) =
      (segment :: path).map fun s => escapeChars s.toList := by
  induction path generalizing segment with
  | nil =>
      rw [charsOfPath, List.flatMap_nil, List.append_nil,
        Text.splitOn_of_not_mem (slash_not_mem_escapeChars segment.toList)]
      rfl
  | cons next path ih =>
      have hcons : charsOfPath (next :: path) =
          '/' :: (escapeChars next.toList ++ charsOfPath path) := rfl
      rw [hcons, Text.splitOn_append_cons (slash_not_mem_escapeChars segment.toList), ih,
        List.map_cons, List.map_cons, List.map_cons]

theorem charsOfPath_inj {p q : Path} (h : charsOfPath p = charsOfPath q) : p = q := by
  have hsplit := congrArg (Text.splitOn '/') (congrArg (escapeChars "".toList ++ ·) h)
  rw [splitOn_charsOfPath, splitOn_charsOfPath, List.map_cons, List.map_cons] at hsplit
  refine (List.map_inj_right fun a b hab => ?_).mp (List.cons.inj hsplit).2
  exact String.toList_inj.mp (escapeChars_inj hab)

/-- **No two paths have one text.** -/
theorem textOfPath_inj {p q : Path} (h : textOfPath p = textOfPath q) : p = q :=
  charsOfPath_inj (String.ofList_injective h)

end Pointer

end Docweave
