import Docweave.Listing
import Docweave.Proofs.Leaves

/-!
The listing of the leaves of a document, read back.

A reader cuts the listing at the ends of lines, and each line at its first tab.  What is behind the
tab never gets in the way: a compact text has no control characters, as those in quotes are escaped.
What is before it is the text of a pointer, and there only the tilde and the slash are escaped, so a
key brings its tabs and ends of lines along.  The listing can be read back exactly if no key on the
way to a leaf has any.
-/

namespace Docweave

/-! ### Texts without control characters -/

/-- Whether none of the control characters below the space is among some. -/
def NoControls (cs : List Char) : Prop :=
  ∀ c ∈ cs, 32 ≤ c.toNat

@[simp] theorem noControls_nil : NoControls [] :=
  fun _ h => absurd h List.not_mem_nil

@[simp] theorem noControls_cons {c : Char} {cs : List Char} :
    NoControls (c :: cs) ↔ 32 ≤ c.toNat ∧ NoControls cs :=
  List.forall_mem_cons

@[simp] theorem noControls_append {cs ds : List Char} :
    NoControls (cs ++ ds) ↔ NoControls cs ∧ NoControls ds :=
  List.forall_mem_append

theorem NoControls.not_mem {cs : List Char} (h : NoControls cs) {c : Char} (hc : c.toNat < 32) :
    c ∉ cs :=
  fun hmem => absurd (h c hmem) (by omega)

theorem NoControls.of_subset {cs ds : List Char} (h : NoControls ds) (hsubset : cs ⊆ ds) :
    NoControls cs :=
  fun c hc => h c (hsubset hc)

theorem noControls_toDigits (n : Nat) : NoControls (Nat.toDigits 10 n) := by
  intro c hc
  have hzero : 48 ≤ c.toNat := ((canonical_toDigits n).digits c hc).1
  omega

theorem noControls_toString_nat (n : Nat) : NoControls (toString n).toList := by
  show NoControls (String.ofList (Nat.toDigits 10 n)).toList
  rw [String.toList_ofList]
  exact noControls_toDigits n

theorem noControls_toString_int (i : Int) : NoControls (toString i).toList := by
  rw [Int.toString_eq_repr, Int.repr_eq_if]
  split
  · exact noControls_toString_nat _
  · rw [String.toList_append, noControls_append]
    exact ⟨by simp, noControls_toString_nat _⟩

theorem noControls_replicate_zero (n : Nat) : NoControls (List.replicate n '0') := by
  intro c hc
  rw [List.eq_of_mem_replicate hc]
  decide

namespace Decimal

theorem noControls_plain (d : Decimal) : NoControls d.plain := by
  have hdigits : NoControls d.digitChars := noControls_toDigits d.digits
  unfold plain
  dsimp only
  split
  · simp [hdigits, noControls_replicate_zero]
  · split
    · simp [hdigits, noControls_replicate_zero]
    · have htake := hdigits.of_subset (List.take_subset (d.exponent.toNat + 1) _)
      have hdrop := hdigits.of_subset (List.drop_subset (d.exponent.toNat + 1) _)
      exact noControls_append.mpr ⟨htake, noControls_cons.mpr ⟨by decide, hdrop⟩⟩

theorem noControls_scientific (d : Decimal) : NoControls d.scientific := by
  have hdigits : NoControls d.digitChars := noControls_toDigits d.digits
  have htake := hdigits.of_subset (List.take_subset 1 _)
  have hdrop := hdigits.of_subset (List.drop_subset 1 _)
  have hexponent := noControls_toDigits d.exponent.natAbs
  unfold scientific
  dsimp only
  rw [noControls_append, noControls_append, noControls_cons, noControls_cons]
  refine ⟨⟨htake, ?_⟩, by decide, ?_, hexponent⟩
  · split
    · exact noControls_nil
    · exact noControls_cons.mpr ⟨by decide, hdrop⟩
  · split <;> decide

end Decimal

theorem Double.noControls_render (layout : Layout) (d : Double) :
    NoControls (d.render layout).toList := by
  have hmarked (whole : Bool) {cs : List Char} (h : NoControls cs) :
      NoControls (if whole && layout.pointZero then cs ++ ['.', '0'] else cs) := by
    split
    · simp [h]
    · exact h
  unfold render
  rw [String.toList_ofList, noControls_append]
  constructor
  · split <;> simp
  · split
    · exact hmarked true (by simp)
    · dsimp only
      split
      · exact hmarked _ (Decimal.noControls_plain _)
      · exact Decimal.noControls_scientific _

theorem Number.noControls_render (n : Number) : NoControls n.render.toList := by
  cases n with
  | integer i => exact noControls_toString_int i
  | float d => exact d.noControls_render Layout.document

namespace Json

theorem noControls_escapeChar (c : Char) : NoControls (escapeChar c) := by
  have hdigit : ∀ n < 16, 32 ≤ (Nat.digitChar n).toNat := by decide
  have hlow := hdigit (c.toNat % 16) (Nat.mod_lt _ (by decide))
  by_cases hcontrol : c.toNat < 32
  · have hhigh := hdigit (c.toNat / 16) (by omega)
    simp only [escapeChar, if_pos hcontrol]
    split_ifs <;> simp [hhigh, hlow]
  · simp only [escapeChar, if_neg hcontrol]
    rw [Nat.not_lt] at hcontrol
    split_ifs <;> simp [hcontrol]

theorem noControls_quote (s : String) : NoControls (quote s) := by
  have hescaped : NoControls (s.toList.flatMap escapeChar) := by
    intro d hd
    obtain ⟨c, -, hmem⟩ := List.mem_flatMap.mp hd
    exact noControls_escapeChar c d hmem
  simp [quote, hescaped]

theorem noControls_compactItems {items : List Value}
    (h : ∀ v ∈ items, NoControls (compactChars v)) : NoControls (compactItems items) := by
  induction items with
  | nil => exact noControls_nil
  | cons v vs ih =>
      obtain ⟨hv, hvs⟩ := List.forall_mem_cons.mp h
      cases vs with
      | nil => exact hv
      | cons => simp [compactItems, hv, ih hvs]

theorem noControls_compactFields {fields : Fields}
    (h : ∀ e ∈ fields, NoControls (compactChars e.2)) : NoControls (compactFields fields) := by
  induction fields with
  | nil => exact noControls_nil
  | cons e es ih =>
      obtain ⟨he, hes⟩ := List.forall_mem_cons.mp h
      cases es with
      | nil => simp [compactFields, noControls_quote, he]
      | cons => simp [compactFields, noControls_quote, he, ih hes]

/-- **A compact text has no control characters**, so it stands on one line and in one column. -/
theorem noControls_compactChars (v : Value) : NoControls (compactChars v) := by
  induction v using Value.induction with
  | null => simp [compactChars]
  | bool b => cases b <;> simp [compactChars]
  | number n => exact n.noControls_render
  | text s => exact noControls_quote s
  | list items ih => simp [compactChars, noControls_compactItems ih]
  | map fields ih => simp [compactChars, noControls_compactFields ih]

end Json

/-! ### Control characters in pointers -/

section Control

variable {c : Char}

/-- The text of a path has the control characters that its segments have. -/
theorem Pointer.mem_textOfPath_iff (hc : c.toNat < 32) {path : Path} :
    c ∈ (textOfPath path).toList ↔ ∃ segment ∈ path, c ∈ segment.toList := by
  have hslash : c ≠ '/' := by
    rintro rfl
    exact absurd hc (by decide)
  have hescape (d : Char) : c ∈ escapeChar d ↔ d = c := by
    unfold escapeChar
    split_ifs with hd hd
    · refine iff_of_false (NoControls.not_mem (by simp) hc) ?_
      rintro rfl
      exact absurd hc (by simp [hd])
    · refine iff_of_false (NoControls.not_mem (by simp) hc) ?_
      rintro rfl
      exact absurd hc (by simp [hd])
    · rw [List.mem_singleton, eq_comm]
  simp [textOfPath, charsOfPath, escapeChars, List.mem_flatMap, hslash, hescape]

/-- The pointer to a position has the control characters that the keys on the way have. -/
theorem Step.mem_textOfPath_iff (hc : c.toNat < 32) {steps : List Step} :
    c ∈ (Pointer.textOfPath (steps.map Step.text)).toList ↔
      ∃ key, .key key ∈ steps ∧ c ∈ key.toList := by
  rw [Pointer.mem_textOfPath_iff hc]
  constructor
  · rintro ⟨segment, hsegment, hmem⟩
    obtain ⟨step, hstep, rfl⟩ := List.mem_map.mp hsegment
    cases step with
    | key key => exact ⟨key, hstep, hmem⟩
    | index i => exact absurd hmem ((noControls_toString_nat i).not_mem hc)
  · rintro ⟨key, hkey, hmem⟩
    exact ⟨key, List.mem_map.mpr ⟨_, hkey, rfl⟩, hmem⟩

end Control

namespace Listing

/-! ### Lines and columns -/

/-- The lines of a text.  An empty text has none. -/
def linesOf (text : String) : List (List Char) :=
  if text = "" then [] else Text.splitOn '\n' text.toList

/-- What stands before the first tab of a line and behind it, if there is a tab. -/
def cutAtTab? : List Char → Option (List Char × List Char)
  | [] => none
  | c :: cs =>
    if c = '\t' then some ([], cs)
    else (cutAtTab? cs).map fun columns => (c :: columns.1, columns.2)

/-- What a reader finds in a listing: the lines, each cut at its first tab. -/
def readBack (text : String) : List (Option (String × String)) :=
  (linesOf text).map fun line =>
    (cutAtTab? line).map fun columns => (String.ofList columns.1, String.ofList columns.2)

theorem cutAtTab?_eq_some_iff {line left right : List Char} :
    cutAtTab? line = some (left, right) ↔ line = left ++ '\t' :: right ∧ '\t' ∉ left := by
  induction line generalizing left with
  | nil => simp [cutAtTab?]
  | cons c cs ih =>
      rw [cutAtTab?]
      split
      · next hc =>
          subst hc
          cases left with
          | nil => simp [eq_comm]
          | cons d left =>
              refine iff_of_false (by simp) ?_
              rintro ⟨heq, htab⟩
              exact htab ((List.cons.inj heq).1 ▸ List.mem_cons_self)
      · next hc =>
          rw [Option.map_eq_some_iff]
          constructor
          · rintro ⟨⟨before, after⟩, hcut, heq⟩
            obtain ⟨rfl, rfl⟩ := Prod.mk.inj heq
            obtain ⟨rfl, htab⟩ := ih.mp hcut
            exact ⟨rfl, List.not_mem_cons_of_ne_of_not_mem (Ne.symm hc) htab⟩
          · rintro ⟨heq, htab⟩
            cases left with
            | nil => exact absurd (List.cons.inj heq).1 hc
            | cons d before =>
                obtain ⟨rfl, rfl⟩ := List.cons.inj heq
                exact ⟨(before, right), ih.mpr ⟨rfl, mt (List.mem_cons_of_mem c) htab⟩, rfl⟩

/-! ### Reading back -/

/-- The pointer to a node as it is shown. -/
def shown (path : Path) : String :=
  if path = [] then "\"\"" else Pointer.textOfPath path

theorem mem_shown_iff {c : Char} (hc : c.toNat < 32) {steps : List Step} :
    c ∈ (shown (steps.map Step.text)).toList ↔ ∃ key, .key key ∈ steps ∧ c ∈ key.toList := by
  cases steps with
  | nil =>
      refine iff_of_false (NoControls.not_mem ?_ hc) (by simp)
      simp [shown]
  | cons step steps =>
      rw [shown, if_neg (by simp)]
      exact Step.mem_textOfPath_iff hc

/-- The pointers to the leaves show a control character if a key on the way to one has it. -/
theorem forall_shown_iff {c : Char} (hc : c.toNat < 32) {root : Value} :
    (∀ leaf ∈ root.leaves, c ∉ (shown leaf.1).toList) ↔
      ∀ steps v, (steps, v) ∈ root.scalars → ∀ key, .key key ∈ steps → c ∉ key.toList := by
  constructor
  · intro h steps v hmem key hkey hkeyc
    exact h _ (List.mem_map_of_mem hmem) ((mem_shown_iff hc).mpr ⟨key, hkey, hkeyc⟩)
  · intro h leaf hleaf hshown
    obtain ⟨⟨steps, v⟩, hmem, rfl⟩ := List.mem_map.mp hleaf
    obtain ⟨key, hkey, hkeyc⟩ := (mem_shown_iff hc).mp hshown
    exact h steps v hmem key hkey hkeyc

theorem toList_leafLine (leaf : Path × Value) :
    (leafLine leaf).toList = (shown leaf.1).toList ++ '\t' :: Json.compactChars leaf.2 := by
  have hline : leafLine leaf = shown leaf.1 ++ "\t" ++ Json.compact leaf.2 := rfl
  have hcompact : (Json.compact leaf.2).toList = Json.compactChars leaf.2 := String.toList_ofList
  rw [hline, String.toList_append, String.toList_append, hcompact, List.append_assoc]
  rfl

theorem not_mem_leafLine {leaf : Path × Value} (h : '\n' ∉ (shown leaf.1).toList) :
    '\n' ∉ (leafLine leaf).toList := by
  rw [toList_leafLine, List.mem_append, List.mem_cons, not_or, not_or]
  exact ⟨h, by decide, (Json.noControls_compactChars leaf.2).not_mem (by decide)⟩

theorem linesOf_leaves {leaves : List (Path × Value)}
    (h : ∀ leaf ∈ leaves, '\n' ∉ (shown leaf.1).toList) :
    linesOf (Listing.leaves leaves) = leaves.map fun leaf => (leafLine leaf).toList := by
  cases leaves with
  | nil => rfl
  | cons first rest =>
      have hsplit : Text.splitOn '\n' (Listing.leaves (first :: rest)).toList =
          (first :: rest).map fun leaf => (leafLine leaf).toList := by
        rw [Listing.leaves, String.toList_intercalate, List.map_map]
        refine Text.splitOn_intercalate (by simp) fun line hline => ?_
        obtain ⟨leaf, hleaf, rfl⟩ := List.mem_map.mp hline
        exact not_mem_leafLine (h leaf hleaf)
      rw [linesOf, hsplit]
      refine if_neg fun hempty => ?_
      -- an empty text would be one line, and no line of a leaf is empty
      rw [hempty, List.map_cons, toList_leafLine] at hsplit
      exact absurd (List.cons.inj hsplit).1 (by simp)

theorem not_mem_of_mem_linesOf {text : String} {line : List Char} (h : line ∈ linesOf text) :
    '\n' ∉ line := by
  rw [linesOf] at h
  split at h
  · exact absurd h List.not_mem_nil
  · exact Text.not_mem_of_mem_splitOn h

/-- A listing is read back rightly if the pointers that it shows stay on their line and in their
column. -/
theorem readBack_leaves_iff {leaves : List (Path × Value)} :
    readBack (Listing.leaves leaves) =
        leaves.map (fun leaf => some (shown leaf.1, Json.compact leaf.2)) ↔
      ∀ leaf ∈ leaves, '\n' ∉ (shown leaf.1).toList ∧ '\t' ∉ (shown leaf.1).toList := by
  constructor
  · intro hread leaf hleaf
    have hmem : some (shown leaf.1, Json.compact leaf.2) ∈ readBack (Listing.leaves leaves) :=
      hread ▸ List.mem_map_of_mem hleaf
    obtain ⟨line, hline, hcolumns⟩ := List.mem_map.mp hmem
    obtain ⟨⟨left, right⟩, hcut, heq⟩ := Option.map_eq_some_iff.mp hcolumns
    obtain ⟨rfl, htab⟩ := cutAtTab?_eq_some_iff.mp hcut
    have hshown : left = (shown leaf.1).toList := by
      rw [← (Prod.mk.inj heq).1, String.toList_ofList]
    rw [← hshown]
    exact ⟨fun hend => not_mem_of_mem_linesOf hline (List.mem_append_left _ hend), htab⟩
  · intro h
    rw [readBack, linesOf_leaves fun leaf hleaf => (h leaf hleaf).1, List.map_map]
    refine List.map_congr_left fun leaf hleaf => ?_
    have hcut := cutAtTab?_eq_some_iff.mpr ⟨toList_leafLine leaf, (h leaf hleaf).2⟩
    rw [Function.comp_apply, hcut, Option.map_some, String.ofList_toList]
    rfl

/-- **The listing of the leaves can be read back exactly if no key on the way to one has a tab or an
end of line.**

Cut at the ends of lines, and each line at its first tab, the listing then has one line for each
scalar of the document, from left to right: the pointer to it, two quotes for the root, and its
compact text.  With any other key on the way to a leaf something else is read. -/
theorem read_back_iff (store : Store) :
    readBack (Listing.leaves store.leaves) =
        store.content.leaves.map (fun leaf => some (shown leaf.1, Json.compact leaf.2)) ↔
      ∀ steps v, (steps, v) ∈ store.content.scalars → ∀ key, .key key ∈ steps →
        '\n' ∉ key.toList ∧ '\t' ∉ key.toList := by
  have hleaves : store.leaves = store.content.leaves := Leaves.ofValue_eq store.content
  have hend : '\n'.toNat < 32 := by decide
  have htab : '\t'.toNat < 32 := by decide
  rw [hleaves, readBack_leaves_iff]
  simp only [imp_and, forall_and, forall_shown_iff hend, forall_shown_iff htab]

/-- Quotes, slashes and an end of line in a text do no harm. -/
theorem read_back_odd_texts :
    readBack (Listing.leaves (Store.wrap .indexed
        (.map [("a/b", .list [.text "x\ny\tz"]), ("\"", .null), ("", .map [])])).leaves) =
      [some ("/a~1b/0", "\"x\\ny\\tz\""), some ("/\"", "null")] := by
  refine ((read_back_iff _).mpr fun steps v hmem key hkey => ?_).trans ?_
  · simp only [Store.content_wrap, Value.scalars, Value.scalarsOfFields, Value.scalarsOfItems,
      Value.inside, List.map_cons, List.map_nil, List.append_nil, List.cons_append,
      List.nil_append, List.mem_cons, List.not_mem_nil, or_false, Prod.mk.injEq] at hmem
    rcases hmem with ⟨rfl, rfl⟩ | ⟨rfl, rfl⟩
    · obtain rfl : key = "a/b" := by simpa using hkey
      decide
    · obtain rfl : key = "\"" := by simpa using hkey
      decide
  · decide +kernel

/-- **An end of line in a key makes two lines of one leaf.** -/
theorem two_lines_of_one_leaf :
    let store := Store.wrap .direct (.map [("a\nb", .int 1)])
    store.content.leaves.map (fun leaf => some (shown leaf.1, Json.compact leaf.2)) =
        [some ("/a\nb", "1")] ∧
      readBack (Listing.leaves store.leaves) = [none, some ("b", "1")] := by
  refine ⟨?_, ?_⟩
  · decide +kernel
  · decide +kernel

end Listing

end Docweave
