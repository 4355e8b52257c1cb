import Docweave.Proofs.Addresses
import Docweave.Proofs.Pointer
import Mathlib.Logic.Function.Iterate
import Mathlib.Order.RelClasses

/-!
What lies below what can be read off the texts.

A pointer lies below another if the segments of the other are a leading part of its own.  In the
texts that is a leading part with a slash behind it: an escaped segment holds no slash, so cutting
the longer text there cuts between two of its segments (`isBelow_iff_chars`).  A leading part alone
would not do, for the text of a segment can begin the text of another.

Going up takes off one segment after the other, and so comes by all leading parts
(`segments_iterate_parent`).
-/

namespace Docweave

namespace Pointer

variable {p q : Pointer} {path path' : Path}

/-! ### Leading parts of texts -/

theorem charsOfPath_append (path path' : Path) :
    charsOfPath (path ++ path') = charsOfPath path ++ charsOfPath path' :=
  List.flatMap_append

/-- Cutting the text of a path gives what is in front of the first slash, and the segments. -/
theorem splitOn_charsOfPath_nil (path : Path) :
    Text.splitOn '/' (charsOfPath path) = [] :: path.map fun s => escapeChars s.toList :=
  splitOn_charsOfPath "" path

/-- **A path lies below another exactly if its text is the other's with a slash and anything
behind it.** -/
theorem isBelow_iff_chars :
    path'.isBelow path = true ↔ ∃ rest, charsOfPath path' = charsOfPath path ++ '/' :: rest := by
  rw [Path.isBelow_iff]
  constructor
  · rintro ⟨_ | ⟨segment, below⟩, hne, rfl⟩
    · exact absurd rfl hne
    · exact ⟨escapeChars segment.toList ++ charsOfPath below, charsOfPath_append path _⟩
  · rintro ⟨rest, hrest⟩
    have hsplit := congrArg (Text.splitOn '/') hrest
    rw [Text.splitOn_append, splitOn_charsOfPath_nil, splitOn_charsOfPath_nil,
      List.cons_append] at hsplit
    obtain ⟨above, below, rfl, habove, hbelow⟩ := List.map_eq_append_iff.mp (List.cons.inj hsplit).2
    have hinj : above = path := by
      refine (List.map_inj_right fun a b hab => ?_).mp habove
      exact String.toList_inj.mp (escapeChars_inj hab)
    subst hinj
    refine ⟨below, ?_, rfl⟩
    rintro rfl
    exact Text.splitOn_ne_nil '/' rest hbelow.symm

/-! ### Pointers that address nodes -/

theorem path?_eq_some (h : p.file? = none) : p.path? = some p.segments := by
  cases p with
  | file path hpath => exact absurd h (by simp [file?])
  | _ => rfl

theorem render_asPlain (h : p.file? = none) : p.asPlain.render = textOfPath p.segments := by
  cases p with
  | file path hpath => exact absurd h (by simp [file?])
  | _ => rfl

theorem isRoot_eq_false_iff (h : p.file? = none) : p.isRoot = false ↔ p.segments ≠ [] := by
  rcases p with (_ | ⟨segment, path⟩) | ⟨first, rest⟩ | ⟨path, hpath⟩
  · simp [isRoot, segments, path?]
  · simp [isRoot, segments, path?]
  · simp [isRoot, segments, path?]
  · exact absurd h (by simp [file?])

theorem isBelow_eq (hp : p.file? = none) (hq : q.file? = none) :
    q.isBelow p = q.segments.isBelow p.segments := by
  rw [isBelow, path?_eq_some hp, path?_eq_some hq]

theorem same_iff (hp : p.file? = none) (hq : q.file? = none) :
    p.same q = true ↔ p.segments = q.segments :=
  same_iff_of_path? (path?_eq_some hp) (path?_eq_some hq)

/-! ### The way up -/

theorem segments_parent (p : Pointer) : p.parent.segments = p.segments.dropLast :=
  rfl

theorem segments_iterate_parent (p : Pointer) (n : Nat) :
    (parent^[n] p).segments = p.segments.take (p.segments.length - n) := by
  induction n with
  | zero => simp
  | succ n ih =>
      rw [Function.iterate_succ_apply', segments_parent, ih, List.dropLast_eq_take, List.take_take,
        List.length_take]
      congr 1
      omega

theorem file?_iterate_parent (hp : p.file? = none) (n : Nat) : (parent^[n] p).file? = none := by
  cases n with
  | zero => exact hp
  | succ n =>
      rw [Function.iterate_succ_apply']
      rfl

/-- The way up comes by the leading parts of a path, and by nothing else. -/
theorem exists_iterate_parent_iff (hp : p.file? = none) (hq : q.file? = none) :
    (∃ n, (parent^[n] q).same p = true) ↔ p.segments <+: q.segments := by
  simp only [same_iff (file?_iterate_parent hq _) hp, segments_iterate_parent]
  constructor
  · rintro ⟨n, hn⟩
    exact hn ▸ List.take_prefix _ _
  · intro h
    refine ⟨q.segments.length - p.segments.length, ?_⟩
    have hlength := h.length_le
    rw [Nat.sub_sub_self hlength]
    exact (List.prefix_iff_eq_take.mp h).symm

/-! ### Below -/

theorem isBelow_iff :
    p.isBelow q = true ↔
      ∃ path path', p.path? = some path ∧ q.path? = some path' ∧ path.isBelow path' = true := by
  rw [isBelow]
  cases hp : p.path? with
  | none => simp
  | some path =>
      cases hq : q.path? with
      | none => simp
      | some path' => simp

theorem not_isBelow_self (p : Pointer) : ¬ p.isBelow p = true := by
  intro h
  obtain ⟨path, path', hp, hp', hbelow⟩ := isBelow_iff.mp h
  obtain rfl := Option.some.inj (hp.symm.trans hp')
  exact (Path.isBelow_iff_prefix_ne.mp hbelow).2 rfl

theorem isBelow_trans {r : Pointer} (hpq : p.isBelow q = true) (hqr : q.isBelow r = true) :
    p.isBelow r = true := by
  obtain ⟨path, middle, hp, hq, hpq⟩ := isBelow_iff.mp hpq
  obtain ⟨middle', path', hq', hr, hqr⟩ := isBelow_iff.mp hqr
  obtain rfl := Option.some.inj (hq.symm.trans hq')
  exact isBelow_iff.mpr ⟨path, path', hp, hr, Path.isBelow_trans hpq hqr⟩

theorem join_isBelow_iff (hp : p.file? = none) (hq : q.file? = none) :
    (p.join q).isBelow p = true ↔ q.isRoot = false := by
  rw [isRoot_eq_false_iff hq, isBelow_eq hp rfl, Path.isBelow_iff]
  constructor
  · rintro ⟨below, hne, hbelow⟩
    exact List.append_cancel_left hbelow ▸ hne
  · intro hne
    exact ⟨q.segments, hne, rfl⟩

/-- **Ancestry can be read off the texts.**  Of two pointers that address nodes, one lies below the
other exactly if its plain text is the other's with a slash and anything behind it, and exactly if
it is not the other and the way up from it comes by the other.  To lie below is a strict order, and
what is joined to a pointer lies below it exactly if it is not the root. -/
theorem ancestry_in_text (hp : p.file? = none) (hq : q.file? = none) :
    (q.isBelow p = true ↔ ∃ rest, q.asPlain.render = p.asPlain.render ++ "/" ++ rest) ∧
    (q.isBelow p = true ↔ p.same q = false ∧ ∃ n, (parent^[n] q).same p = true) ∧
    IsStrictOrder Pointer (fun q p => q.isBelow p = true) ∧
    ((p.join q).isBelow p = true ↔ q.isRoot = false) := by
  refine ⟨?_, ?_, ?_, join_isBelow_iff hp hq⟩
  · rw [isBelow_eq hp hq, isBelow_iff_chars, render_asPlain hp, render_asPlain hq]
    constructor
    · rintro ⟨rest, hrest⟩
      refine ⟨String.ofList rest, ?_⟩
      rw [textOfPath, hrest, textOfPath, ← String.toList_inj]
      simp
    · rintro ⟨rest, hrest⟩
      have hchars := congrArg String.toList hrest
      exact ⟨rest.toList, by simpa [textOfPath] using hchars⟩
  · rw [isBelow_eq hp hq, Path.isBelow_iff_prefix_ne, exists_iterate_parent_iff hp hq,
      ← Bool.not_eq_true, same_iff hp hq]
    exact and_comm.trans (and_congr_left' ne_comm)
  · exact { irrefl := not_isBelow_self, trans := fun _ _ _ => isBelow_trans }

/-- The text of a segment can begin the text of another one, which is not below it; an empty segment
below it shows as a slash. -/
theorem ancestry_in_text_escaped :
    file? (.plain ["a"]) = none ∧ file? (.reference "a" ["", "~"]) = none ∧
      file? (.plain ["a/b"]) = none ∧
      isBelow (.reference "a" ["", "~"]) (.plain ["a"]) = true ∧
      isBelow (.plain ["a/b"]) (.plain ["a"]) = false := by
  obtain ⟨hbelow, -⟩ := ancestry_in_text (p := .plain ["a"]) (q := .reference "a" ["", "~"]) rfl rfl
  obtain ⟨hbeside, -⟩ := ancestry_in_text (p := .plain ["a"]) (q := .plain ["a/b"]) rfl rfl
  refine ⟨rfl, rfl, rfl, hbelow.mpr ⟨"/~0", by rfl⟩, Bool.eq_false_iff.mpr fun h => ?_⟩
  obtain ⟨rest, hrest⟩ := hbeside.mp h
  have hchars := congrArg String.toList hrest
  rw [String.toList_append, String.toList_append] at hchars
  have hthird : some '~' = some '/' := congrArg (fun cs : List Char => cs[2]?) hchars
  exact absurd hthird (by decide)

end Pointer

end Docweave
