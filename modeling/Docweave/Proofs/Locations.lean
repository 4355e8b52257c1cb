import Docweave.File.Reader

/-!
There is one name for every place.

What a location stands for is where it leads.  Seen from a directory, its pieces are followed one
after the other: a name goes down, `..` goes up, and the root is above itself.  `Location.target` is
that walk; it cancels nothing and knows no normal form.

Normalizing keeps the target, because adding a piece to what has been kept is taking one more step
(`reached_push`).  The other direction is what makes normal forms names: a normal form goes up some
way and then down, and seen from directories that are deep enough the target shows how far up it
went and by which names it came down (`Reduced.eq_of_target_eq`).  So two locations have one normal
form exactly if they lead to one place from everywhere, and the laws of normal forms are read off
targets.  Only slashes and points are looked at, so that what holds of texts holds of rows of bytes
as well: each byte can be read as a character.
-/

namespace Docweave

/-- The directory that is reached by one more piece.  The innermost name comes first. -/
def Piece.follow (directory : List String) : Piece → List String
  | .here => directory
  | .up => directory.tail
  | .name n => n :: directory

namespace Location

/-- The place that a location leads to, seen from a directory.  The innermost name comes first. -/
def target (location : Location) (directory : List String) : List String :=
  location.pieces.foldl Piece.follow (if location.absolute then [] else directory)

/-- There is nothing to cancel: an absolute location goes down only, and a relative one goes up
before it goes down. -/
inductive Reduced : Location → Prop
  | absolute (names : List String) : Reduced ⟨true, names.map .name⟩
  | relative (ups : Nat) (names : List String) :
      Reduced ⟨false, List.replicate ups .up ++ names.map .name⟩

/-! ### Normalizing keeps the target -/

/-- The place that pieces lead to which are given backwards, as they are kept while normalizing. -/
def reached (before : List Piece) (directory : List String) : List String :=
  before.foldr (fun piece place => piece.follow place) directory

/-- Adding a piece to what has been kept is one more step.  The walk from the root only ever keeps
names, so that a `..` that is lost there is one that goes nowhere. -/
theorem reached_push {absolute : Bool} {directory : List String}
    (hroot : absolute = true → directory = []) (before : List Piece) (piece : Piece) :
    reached (push absolute before piece) directory = piece.follow (reached before directory) := by
  cases piece with
  | here => rfl
  | name n => rfl
  | up =>
      cases before with
      | nil =>
          cases absolute with
          | true =>
              obtain rfl := hroot rfl
              rfl
          | false => rfl
      | cons last rest => cases last <;> rfl

theorem reached_foldl_push {absolute : Bool} {directory : List String}
    (hroot : absolute = true → directory = []) (pieces before : List Piece) :
    reached (pieces.foldl (push absolute) before) directory =
      pieces.foldl Piece.follow (reached before directory) := by
  induction pieces generalizing before with
  | nil => rfl
  | cons piece pieces ih => rw [List.foldl_cons, List.foldl_cons, ih, reached_push hroot]

theorem target_normalize (location : Location) (directory : List String) :
    location.normalize.target directory = location.target directory := by
  rw [target, normalize, List.foldl_reverse]
  exact reached_foldl_push (fun habsolute => if_pos habsolute) location.pieces []

/-! ### What a text leads to -/

theorem rawPieces_append_slash (a b : String) :
    rawPieces (a ++ "/" ++ b) = rawPieces a ++ rawPieces b := by
  have hchars : (a ++ "/" ++ b).toList = a.toList ++ '/' :: b.toList := by
    rw [String.toList_append, String.toList_append, List.append_assoc]
    rfl
  simp only [rawPieces, hchars, Text.splitOn_append, List.filter_append, List.map_append]

@[simp] theorem rawPieces_empty : rawPieces "" = [] := rfl

/-- Where a `.` stands makes no difference to where pieces lead. -/
theorem foldl_filter_here (pieces : List Piece) (directory : List String) :
    (pieces.filter (· ≠ .here)).foldl Piece.follow directory =
      pieces.foldl Piece.follow directory := by
  induction pieces generalizing directory with
  | nil => rfl
  | cons piece pieces ih =>
      by_cases hpiece : piece = .here
      · subst hpiece
        exact ih directory
      · rw [List.filter_cons_of_pos (by simpa using hpiece), List.foldl_cons, List.foldl_cons, ih]

theorem absolute_ofText (text : String) :
    (ofText text).absolute = (text.toList.head? == some '/') := by
  rw [ofText]
  split <;> rfl

/-- The target of a text is where the pieces between its slashes lead. -/
theorem target_ofText (text : String) (directory : List String) :
    (ofText text).target directory =
      ((rawPieces text).map Piece.ofText).foldl Piece.follow
        (if text.toList.head? = some '/' then [] else directory) := by
  rw [target, absolute_ofText]
  simp only [beq_iff_eq]
  generalize (if text.toList.head? = some '/' then [] else directory) = start
  rw [ofText]
  split
  · next hpieces => rw [hpieces]
  · next first rest hpieces =>
    rw [hpieces, List.foldl_cons]
    dsimp only
    split
    · next hfirst =>
      obtain rfl : first = .here := by simpa using (Bool.and_eq_true_iff.mp hfirst).2
      exact foldl_filter_here rest start
    · rw [List.foldl_cons, foldl_filter_here]

theorem join_of_absolute {base text : String} (h : text.toList.head? = some '/') :
    join base text = text :=
  if_pos h

theorem rawPieces_join {base text : String} (h : text.toList.head? ≠ some '/') :
    rawPieces (join base text) = rawPieces base ++ rawPieces text := by
  rw [join, if_neg h]
  split
  · next hjoined =>
    rcases (by simpa using hjoined) with rfl | hslash
    · rw [String.empty_append, rawPieces_empty, List.nil_append]
    · obtain ⟨cs, hcs⟩ := List.getLast?_eq_some_iff.mp hslash
      obtain rfl : base = String.ofList cs ++ "/" := by
        rw [← String.toList_inj, hcs, String.toList_append, String.toList_ofList]
        rfl
      have hslash : rawPieces (String.ofList cs ++ "/") = rawPieces (String.ofList cs) := by
        have happend := rawPieces_append_slash (String.ofList cs) ""
        rwa [String.append_empty, rawPieces_empty, List.append_nil] at happend
      rw [rawPieces_append_slash, hslash]
  · exact rawPieces_append_slash base text

theorem head?_join {base text : String} (h : text.toList.head? ≠ some '/') :
    (join base text).toList.head? = some '/' ↔ base.toList.head? = some '/' := by
  rw [join, if_neg h]
  by_cases hempty : base = ""
  · subst hempty
    simpa using h
  · obtain ⟨c, cs, hcs⟩ := List.exists_cons_of_ne_nil (mt String.toList_eq_nil_iff.mp hempty)
    split <;> simp [String.toList_append, hcs]

/-- Seen from a base directory, a text leads where it leads from the target of the directory. -/
theorem target_join (base text : String) (directory : List String) :
    (ofText (join base text)).target directory =
      (ofText text).target ((ofText base).target directory) := by
  by_cases habsolute : text.toList.head? = some '/'
  · rw [join_of_absolute habsolute]
    simp only [target_ofText, if_pos habsolute]
  · simp only [target_ofText, if_neg habsolute, rawPieces_join habsolute, head?_join habsolute,
      List.map_append, List.foldl_append]

/-! ### Normal forms can be told by their targets -/

/-- From the root only names are kept. -/
theorem exists_names_of_foldl_push (pieces : List Piece) (names : List String) :
    ∃ names' : List String, pieces.foldl (push true) (names.map .name) = names'.map .name := by
  induction pieces generalizing names with
  | nil => exact ⟨names, rfl⟩
  | cons piece pieces ih =>
      cases piece with
      | here => exact ih names
      | name n => exact ih (n :: names)
      | up =>
          cases names with
          | nil => exact ih []
          | cons last rest => exact ih rest

theorem Normal.eq_append {pieces : List Piece} (h : Normal pieces) :
    ∃ (ups : Nat) (names : List String), pieces = List.replicate ups .up ++ names.map .name := by
  induction pieces with
  | nil => exact ⟨0, [], rfl⟩
  | cons first rest ih =>
      obtain ⟨hhere, hup⟩ := h
      rw [List.mem_cons, not_or] at hhere
      obtain ⟨hfirst, hup⟩ := List.pairwise_cons.mp hup
      obtain ⟨ups, names, rfl⟩ := ih ⟨hhere.2, hup⟩
      cases first with
      | here => exact absurd rfl hhere.1
      | up => exact ⟨ups + 1, names, rfl⟩
      | name n =>
          -- Behind a name there is no way up.
          cases ups with
          | zero => exact ⟨0, n :: names, rfl⟩
          | succ ups => exact absurd (hfirst .up (by simp [List.replicate_succ]) rfl) (by simp)

theorem reduced_normalize (location : Location) : location.normalize.Reduced := by
  obtain ⟨ups, names, hpieces⟩ := (normal_normalize location).eq_append
  obtain ⟨absolute, pieces⟩ := location
  cases absolute with
  | false =>
      rw [show normalize ⟨false, pieces⟩ = ⟨false, _⟩ from congrArg (Location.mk false) hpieces]
      exact .relative ups names
  | true =>
      obtain ⟨kept, hkept⟩ := exists_names_of_foldl_push pieces []
      have hnormalize : normalize ⟨true, pieces⟩ = ⟨true, kept.reverse.map .name⟩ := by
        rw [List.map_reverse, ← hkept]
        rfl
      rw [hnormalize]
      exact .absolute kept.reverse

theorem foldl_names (names directory : List String) :
    (names.map Piece.name).foldl Piece.follow directory = names.reverse ++ directory := by
  induction names generalizing directory with
  | nil => rfl
  | cons n names ih => simp [Piece.follow, ih]

theorem foldl_ups (ups : Nat) (directory : List String) :
    (List.replicate ups Piece.up).foldl Piece.follow directory = directory.drop ups := by
  induction ups generalizing directory with
  | zero => rfl
  | succ ups ih => rw [List.replicate_succ, List.foldl_cons, ih, Piece.follow, List.drop_tail]

theorem target_absolute (names directory : List String) :
    target ⟨true, names.map .name⟩ directory = names.reverse := by
  simp [target, foldl_names]

theorem target_relative (ups : Nat) (names directory : List String) :
    target ⟨false, List.replicate ups .up ++ names.map .name⟩ directory =
      names.reverse ++ directory.drop ups := by
  simp [target, foldl_names, foldl_ups]

/-- What is left of a directory shows how far up a relative location goes. -/
theorem ups_le {ups ups' : Nat} {down down' : List String}
    (h : ∀ directory : List String, down ++ directory.drop ups = down' ++ directory.drop ups') :
    ups' ≤ ups := by
  refine Nat.le_of_not_lt fun hlt => ?_
  -- A name that only the second one leaves behind would have to be every name.
  have hkept : ∀ n : String, down ++ List.replicate (ups' - ups) n = down' := by
    intro n
    simpa using h (List.replicate ups' n)
  have hsame := List.append_cancel_left ((hkept "a").trans (hkept "b").symm)
  obtain ⟨k, hk⟩ := Nat.exists_eq_add_one_of_ne_zero (Nat.sub_ne_zero_of_lt hlt)
  rw [hk, List.replicate_succ, List.replicate_succ] at hsame
  exact absurd (List.cons.inj hsame).1 (by decide)

/-- From deep enough, no relative location leads where an absolute one does. -/
theorem exists_target_ne (names names' : List String) (ups : Nat) :
    ∃ directory, target ⟨true, names.map .name⟩ directory ≠
      target ⟨false, List.replicate ups .up ++ names'.map .name⟩ directory := by
  refine ⟨List.replicate (ups + names.length + 1) "", fun h => ?_⟩
  have hlength := congrArg List.length h
  simp only [target_absolute, target_relative, List.length_append, List.length_reverse,
    List.length_drop, List.length_replicate] at hlength
  omega

/-- **Locations with nothing to cancel that lead to one place from everywhere are one location.** -/
theorem Reduced.eq_of_target_eq {a b : Location} (ha : a.Reduced) (hb : b.Reduced)
    (h : ∀ directory, a.target directory = b.target directory) : a = b := by
  cases ha with
  | absolute names =>
      cases hb with
      | absolute names' =>
          have hdown := h []
          rw [target_absolute, target_absolute, List.reverse_inj] at hdown
          rw [hdown]
      | relative ups names' =>
          obtain ⟨directory, hne⟩ := exists_target_ne names names' ups
          exact absurd (h directory) hne
  | relative ups names =>
      cases hb with
      | absolute names' =>
          obtain ⟨directory, hne⟩ := exists_target_ne names' names ups
          exact absurd (h directory).symm hne
      | relative ups' names' =>
          simp only [target_relative] at h
          obtain rfl : ups = ups' := Nat.le_antisymm (ups_le fun d => (h d).symm) (ups_le h)
          have hdown := h []
          rw [List.drop_nil, List.append_nil, List.append_nil, List.reverse_inj] at hdown
          rw [hdown]

/-! ### The text of a normal form -/

theorem rawPieces_slash_append (text : String) : rawPieces ("/" ++ text) = rawPieces text := by
  have happend := rawPieces_append_slash "" text
  rwa [String.empty_append, rawPieces_empty, List.nil_append] at happend

/-- No piece starts with a slash, so that pieces with slashes between them do not either. -/
theorem head?_intercalate_ne {raws : List String} (h : ∀ raw ∈ raws, IsRawPiece raw) :
    ("/".intercalate raws).toList.head? ≠ some '/' := by
  cases raws with
  | nil => simp
  | cons raw raws =>
      obtain ⟨hne, hslash⟩ := h raw List.mem_cons_self
      obtain ⟨c, cs, hcs⟩ := List.exists_cons_of_ne_nil (mt String.toList_eq_nil_iff.mp hne)
      rw [hcs, List.mem_cons, not_or] at hslash
      have hhead : ("/".intercalate (raw :: raws)).toList.head? = some c := by
        cases raws <;> simp [String.toList_intercalate, hcs]
      rw [hhead]
      exact fun heq => hslash.1 (Option.some.inj heq).symm

/-- Reading the text of a location gives the location, if its pieces can stand between slashes and
none of them is `.`. -/
theorem ofText_render {location : Location}
    (hraw : ∀ piece ∈ location.pieces,
      IsRawPiece piece.render ∧ Piece.ofText piece.render = piece)
    (hhere : .here ∉ location.pieces) : ofText location.render = location := by
  obtain ⟨absolute, pieces⟩ := location
  dsimp only at hraw hhere
  have hraws : ∀ raw ∈ pieces.map Piece.render, IsRawPiece raw := by
    intro raw hmem
    obtain ⟨piece, hpiece, rfl⟩ := List.mem_map.mp hmem
    exact (hraw piece hpiece).1
  have hpieces : (rawPieces (render ⟨absolute, pieces⟩)).map Piece.ofText = pieces := by
    have hcut : rawPieces (render ⟨absolute, pieces⟩) = pieces.map Piece.render := by
      cases absolute with
      | false =>
          rw [← rawPieces_intercalate hraws]
          exact congrArg rawPieces String.empty_append
      | true =>
          rw [← rawPieces_intercalate hraws]
          exact rawPieces_slash_append _
    rw [hcut, map_ofText_render fun piece hpiece => (hraw piece hpiece).2]
  have habsolute : ((render ⟨absolute, pieces⟩).toList.head? == some '/') = absolute := by
    cases absolute with
    | false => simpa [render] using head?_intercalate_ne hraws
    | true => simp [render]
  rw [ofText, hpieces, habsolute]
  cases pieces with
  | nil => rfl
  | cons first rest =>
      rw [List.mem_cons, not_or] at hhere
      have hrest : rest.filter (· ≠ .here) = rest :=
        List.filter_eq_self.mpr fun piece hpiece => by
          simpa using fun heq : piece = .here => hhere.2 (heq ▸ hpiece)
      dsimp only
      rw [hrest, if_neg (by simpa using fun _ => Ne.symm hhere.1)]

theorem ofText_render_normalize (text : String) :
    ofText (ofText text).normalize.render = (ofText text).normalize :=
  ofText_render (fun _ => isRawPiece_of_mem_normalize) (normal_normalize (ofText text)).here_not_mem

/-- The text of a normal form is read as the normal form; only the empty one has to be written
with a `.`. -/
theorem ofText_normalText (text : String) :
    (normalText text = "." ∧ (ofText text).normalize = ⟨false, []⟩) ∨
      (normalText text = (ofText text).normalize.render ∧
        ofText (normalText text) = (ofText text).normalize) := by
  have hread := ofText_render_normalize text
  rw [normalText]
  split
  · next hempty => exact .inl ⟨rfl, by rw [← hread, hempty]; rfl⟩
  · exact .inr ⟨rfl, hread⟩

/-- The normal form of a location leads where the location leads. -/
theorem target_normalText (text : String) (directory : List String) :
    (ofText (normalText text)).target directory = (ofText text).target directory := by
  rw [← target_normalize (ofText text)]
  rcases ofText_normalText text with ⟨hdot, hnormal⟩ | ⟨-, hnormal⟩
  · rw [hdot, hnormal]
    rfl
  · rw [hnormal]

/-- **Two locations have one normal form exactly if they lead to one place from everywhere.** -/
theorem normalText_eq_iff {a b : String} :
    normalText a = normalText b ↔
      ∀ directory, (ofText a).target directory = (ofText b).target directory := by
  constructor
  · intro h directory
    rw [← target_normalText a, h, target_normalText]
  · intro h
    have hnormal : (ofText a).normalize = (ofText b).normalize := by
      refine (reduced_normalize _).eq_of_target_eq (reduced_normalize _) fun directory => ?_
      rw [target_normalize, target_normalize, h]
    rw [normalText, normalText, hnormal]

/-- **Normal forms are the names of places.**  Two locations have one normal form exactly if they
lead to one place from every directory.  A normal form is its own, it is written piece by piece, and
apart from `.` alone there is nothing in it to cancel: no `.`, no `..` behind a name and none in an
absolute location.  Seen from any base directory a location can be exchanged for its normal form, so
a reader knows a file by the normal form of what is written. -/
theorem normalText_names_places :
    (∀ a b, normalText a = normalText b ↔
      ∀ directory, (ofText a).target directory = (ofText b).target directory) ∧
    (∀ text, normalText (normalText text) = normalText text) ∧
    (∀ text, (ofText (normalText text)).render = normalText text ∧
      (normalText text = "." ∨ (ofText (normalText text)).Reduced)) ∧
    (∀ base text, normalText (join base text) = normalText (join base (normalText text))) ∧
    ∀ (reader : Reader) raw, reader.resolve raw = reader.resolve (normalText raw) := by
  have hidempotent : ∀ text, normalText (normalText text) = normalText text :=
    fun text => normalText_eq_iff.mpr (target_normalText text)
  have hjoin : ∀ base text,
      normalText (join base text) = normalText (join base (normalText text)) :=
    fun base text => normalText_eq_iff.mpr fun directory => by
      rw [target_join, target_join, target_normalText]
  refine ⟨fun a b => normalText_eq_iff, hidempotent, fun text => ?_, hjoin, fun reader raw => ?_⟩
  · rcases ofText_normalText text with ⟨hdot, -⟩ | ⟨htext, hnormal⟩
    · exact ⟨by rw [hdot]; rfl, .inl hdot⟩
    · exact ⟨by rw [hnormal, htext], .inr (hnormal ▸ reduced_normalize (ofText text))⟩
  · obtain ⟨_ | base⟩ := reader
    · exact (hidempotent raw).symm
    · exact hjoin base raw

example : normalText "a/.//../../b/../c" = "../c" := by decide

end Location

end Docweave
