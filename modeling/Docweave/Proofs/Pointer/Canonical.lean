import Docweave.Proofs.Pointer

/-!
The text of a pointer stands for the pointer.

Reading the text of a pointer gives the very pointer, whatever its segments are made of: the escape
is undone piece by piece (`unescapeChars_escapeChar_append`), no escaped segment holds a slash, and
a path is empty or starts with a slash, so that no path is taken for a directive.  What is read from
any other text has a text of its own, and from there on reading and writing change nothing.
-/

namespace Docweave

namespace Pointer

/-! ### Segments -/

theorem replaceMark_cons_of_ne (digit char : Char) {c : Char} (hc : c ≠ '~') (cs : List Char) :
    replaceMark digit char (c :: cs) = c :: replaceMark digit char cs := by
  cases cs with
  | nil => rfl
  | cons d cs => rw [replaceMark, if_neg fun h => hc h.1]

theorem replaceMark_mark (digit char : Char) (cs : List Char) :
    replaceMark digit char ('~' :: digit :: cs) = char :: replaceMark digit char cs := by
  rw [replaceMark, if_pos ⟨rfl, rfl⟩]

/-- A tilde before another character stands for itself. -/
theorem replaceMark_tilde_of_ne {digit d : Char} (char : Char) (hd : d ≠ digit) (hd' : d ≠ '~')
    (cs : List Char) :
    replaceMark digit char ('~' :: d :: cs) = '~' :: d :: replaceMark digit char cs := by
  rw [replaceMark, if_neg fun h => hd h.2, replaceMark_cons_of_ne digit char hd']

theorem unescapeChars_cons_of_ne {c : Char} (hc : c ≠ '~') (cs : List Char) :
    unescapeChars (c :: cs) = c :: unescapeChars cs := by
  rw [unescapeChars, replaceMark_cons_of_ne '1' '/' hc, replaceMark_cons_of_ne '0' '~' hc]
  rfl

/-- The escape of a character is undone whatever follows it. -/
theorem unescapeChars_escapeChar_append (c : Char) (cs : List Char) :
    unescapeChars (escapeChar c ++ cs) = c :: unescapeChars cs := by
  by_cases htilde : c = '~'
  · subst htilde
    show replaceMark '0' '~' (replaceMark '1' '/' ('~' :: '0' :: cs)) = _
    rw [replaceMark_tilde_of_ne '/' (by decide) (by decide), replaceMark_mark]
    rfl
  by_cases hslash : c = '/'
  · subst hslash
    show replaceMark '0' '~' (replaceMark '1' '/' ('~' :: '1' :: cs)) = _
    rw [replaceMark_mark, replaceMark_cons_of_ne '0' '~' (by decide)]
    rfl
  · rw [escapeChar, if_neg htilde, if_neg hslash, List.singleton_append,
      unescapeChars_cons_of_ne htilde]

theorem unescapeChars_escapeChars (cs : List Char) : unescapeChars (escapeChars cs) = cs := by
  induction cs with
  | nil => rfl
  | cons c cs ih =>
      rw [escapeChars, List.flatMap_cons, unescapeChars_escapeChar_append]
      exact congrArg (c :: ·) ih

/-! ### Paths -/

theorem pathOfChars_charsOfPath (path : Path) : pathOfChars (charsOfPath path) = .ok path := by
  cases path with
  | nil => rfl
  | cons segment path =>
      have hcons : charsOfPath (segment :: path) =
          '/' :: (escapeChars segment.toList ++ charsOfPath path) := rfl
      have hread : ∀ s : String, String.ofList (unescapeChars (escapeChars s.toList)) = s := by
        intro s
        rw [unescapeChars_escapeChars, String.ofList_toList]
      rw [hcons, pathOfChars, if_pos rfl, splitOn_charsOfPath, List.map_map]
      exact congrArg Except.ok ((List.map_congr_left fun s _ => hread s).trans (List.map_id _))

/-- The text of a path is empty or starts with a slash. -/
theorem head?_charsOfPath (path : Path) {c : Char} (h : (charsOfPath path).head? = some c) :
    c = '/' := by
  cases path with
  | nil => exact absurd h (by simp [charsOfPath])
  | cons segment path => exact (Option.some.inj h).symm

/-- No path is written like a directive. -/
theorem afterMark?_charsOfPath {m : Char} (hm : m ≠ '/') (mark : List Char) (path : Path) :
    Text.afterMark? (m :: mark) (charsOfPath path) = none := by
  refine Option.eq_none_iff_forall_ne_some.mpr fun rest hrest => ?_
  have hmark := Text.afterMark?_eq_some_iff.mp hrest
  exact hm (head?_charsOfPath path (by rw [hmark]; rfl))

/-! ### Pointers -/

/-- **Reading the text of a pointer gives the pointer.** -/
theorem parse_render (p : Pointer) : parse p.render = .ok p := by
  cases p with
  | plain path =>
      have hreference : Text.afterMark? referenceMark.toList (charsOfPath path) = none :=
        afterMark?_charsOfPath (by decide) _ path
      have hfile : Text.afterMark? fileMark.toList (charsOfPath path) = none :=
        afterMark?_charsOfPath (by decide) _ path
      simp only [render, textOfPath, parse, parsePlain, String.toList_ofList, hreference, hfile,
        pathOfChars_charsOfPath]
      rfl
  | reference first rest =>
      have hmark : Text.afterMark? referenceMark.toList
          (referenceMark.toList ++ charsOfPath (first :: rest)) =
            some (charsOfPath (first :: rest)) :=
        Text.afterMark?_eq_some_iff.mpr rfl
      simp only [render, textOfPath, parse, String.toList_append, String.toList_ofList, hmark,
        pathOfChars_charsOfPath]
  | file path hpath =>
      have hreference : Text.afterMark? referenceMark.toList (fileMark.toList ++ path.toList) =
          none := by
        rfl
      have hmark : Text.afterMark? fileMark.toList (fileMark.toList ++ path.toList) =
          some path.toList :=
        Text.afterMark?_eq_some_iff.mpr rfl
      simp only [render, parse, String.toList_append, hreference, hmark, String.ofList_toList,
        dif_pos hpath]

/-- **Pointers can be told by their texts, whatever their kinds and however they were made.**  Every
pointer is read back from its text with its kind and its segments, or its path taken literally, so
there is one text for each pointer; and of any text that is read at all, the text of the pointer is
the one that no more reading and writing changes. -/
theorem texts_canonical :
    (∀ p : Pointer, parse p.render = .ok p) ∧
    (∀ p q : Pointer, p.render = q.render ↔ p = q) ∧
    ∀ raw, (parse raw).map render >>= (fun text => (parse text).map render) =
      (parse raw).map render := by
  refine ⟨parse_render, fun p q => ⟨fun h => ?_, congrArg render⟩, fun raw => ?_⟩
  · have hread : parse q.render = .ok p := h ▸ parse_render p
    exact Except.ok.inj (hread.symm.trans (parse_render q))
  · cases parse raw with
    | error flaw => rfl
    | ok p =>
        show (parse p.render).map render = .ok p.render
        rw [parse_render]
        rfl

/-- A segment like a directive, an empty one, and one that looks escaped. -/
example : parse (render (.plain ["!ref /a", "", "~1"])) = .ok (.plain ["!ref /a", "", "~1"]) := by
  rfl

end Pointer

end Docweave
