import Docweave.Text.Split

/-!
Locations of files as they are written down, and their lexical normal form.

A location is absolute or relative, and names one piece after the other.  Normalizing drops `.`
and lets `..` cancel the name before it; at the front of a relative location `..` stays, and at
the root of an absolute one it is lost.  Nothing of this looks at a file system.
-/

namespace Docweave

/-- A piece of a location. -/
inductive Piece where
  | here
  | up
  | name (name : String)
deriving DecidableEq

/-- The text of a piece. -/
def Piece.render : Piece → String
  | .here => "."
  | .up => ".."
  | .name n => n

/-- The piece that a text between slashes writes. -/
def Piece.ofText (raw : String) : Piece :=
  if raw = "." then .here else if raw = ".." then .up else .name raw

@[simp] theorem Piece.render_ofText (raw : String) : (ofText raw).render = raw := by
  rw [ofText]
  split
  · next h => rw [h, render]
  · split
    · next h => rw [h, render]
    · rfl

/-- A location, by its pieces. -/
structure Location where
  absolute : Bool
  pieces : List Piece
deriving DecidableEq

namespace Location

/-- The pieces between slashes, without empty ones. -/
def rawPieces (text : String) : List String :=
  ((Text.splitOn '/' text.toList).filter fun cs => !cs.isEmpty).map String.ofList

/-- The location that a text writes.  A `.` counts only at the very front. -/
def ofText (text : String) : Location :=
  let absolute := text.toList.head? == some '/'
  match (rawPieces text).map Piece.ofText with
  | [] => ⟨absolute, []⟩
  | first :: rest =>
    let rest := rest.filter (· ≠ .here)
    ⟨absolute, if absolute && first = .here then rest else first :: rest⟩

/-- The text of a location. -/
def render (location : Location) : String :=
  (if location.absolute then "/" else "")
    ++ "/".intercalate (location.pieces.map Piece.render)

/-- Adds a piece behind others, which are given backwards. -/
def push (absolute : Bool) (before : List Piece) : Piece → List Piece
  | .here => before
  | .name name => .name name :: before
  | .up =>
    match before with
    | .name _ :: rest => rest
    | [] => if absolute then [] else [.up]
    | before => .up :: before

/-- The location without `.`, and without any `..` that can be cancelled. -/
def normalize (location : Location) : Location :=
  ⟨location.absolute, (location.pieces.foldl (push location.absolute) []).reverse⟩

/-- The text of the normal form; the empty relative location is `.`. -/
def normalText (text : String) : String :=
  let normal := ((ofText text).normalize).render
  if normal = "" then "." else normal

/-- The text of a location seen from a base directory. -/
def join (base text : String) : String :=
  if text.toList.head? = some '/' then text
  else if base = "" || base.toList.getLast? = some '/' then base ++ text
  else base ++ "/" ++ text

/-- The directory of a file, if the location names more than the file. -/
def directory? (text : String) : Option String :=
  let location := ofText text
  match location.pieces with
  | [] => none
  | pieces =>
    let parent := (Location.mk location.absolute pieces.dropLast).render
    if parent = "" then none else some parent

/-- The name at the end of a location. -/
def fileName? (text : String) : Option String :=
  match (ofText text).pieces.getLast? with
  | some (.name name) => some name
  | _ => none

/-- What follows the last point of the name at the end, unless the name starts with that point. -/
def extension? (text : String) : Option String :=
  (fileName? text).bind fun name =>
    match (Text.splitOn '.' name.toList).reverse with
    | extension :: before :: rest =>
      if before.isEmpty && rest.isEmpty then none else some (String.ofList extension)
    | _ => none

/-! ### Normal forms -/

/-- A text that can stand between slashes. -/
def IsRawPiece (raw : String) : Prop := raw ≠ "" ∧ '/' ∉ raw.toList

theorem isRawPiece_of_mem {text raw : String} (h : raw ∈ rawPieces text) : IsRawPiece raw := by
  obtain ⟨cs, hcs, rfl⟩ := List.mem_map.mp h
  obtain ⟨hsplit, hne⟩ := List.mem_filter.mp hcs
  refine ⟨fun hempty => ?_, by simpa using Text.not_mem_of_mem_splitOn hsplit⟩
  obtain rfl : cs = [] := by simpa using congrArg String.toList hempty
  exact absurd hne (by simp)

/-- Pieces that are joined by slashes come apart again. -/
theorem rawPieces_intercalate {raws : List String} (h : ∀ raw ∈ raws, IsRawPiece raw) :
    rawPieces ("/".intercalate raws) = raws := by
  rw [rawPieces, String.toList_intercalate]
  by_cases hne : raws = []
  · rw [hne]
    rfl
  have hsplit : Text.splitOn '/' (['/'].intercalate (raws.map String.toList)) =
      raws.map String.toList := by
    refine Text.splitOn_intercalate (by simpa using hne) fun piece hpiece => ?_
    obtain ⟨raw, hraw, rfl⟩ := List.mem_map.mp hpiece
    exact (h raw hraw).2
  have hkept : (raws.map String.toList).filter (fun cs => !cs.isEmpty) =
      raws.map String.toList := by
    refine List.filter_eq_self.mpr fun piece hpiece => ?_
    obtain ⟨raw, hraw, rfl⟩ := List.mem_map.mp hpiece
    have hraw := (h raw hraw).1
    simpa using hraw
  rw [show "/".toList = ['/'] from rfl, hsplit, hkept, List.map_map]
  exact List.map_id'' (fun raw => String.ofList_toList) raws

/-- Pieces of a normal form: no `.`, and `..` only in front. -/
structure Normal (pieces : List Piece) : Prop where
  here_not_mem : .here ∉ pieces
  up_first : pieces.Pairwise fun before after => after = .up → before = .up

/-- Adding a piece to a normal form leaves a normal form. -/
theorem Normal.push {before : List Piece} (h : Normal before.reverse) (absolute : Bool)
    (piece : Piece) : Normal (push absolute before piece).reverse := by
  obtain ⟨hhere, hup⟩ := h
  rw [List.mem_reverse] at hhere
  rw [List.pairwise_reverse] at hup
  cases piece with
  | here => exact ⟨by simpa [Location.push] using hhere, List.pairwise_reverse.mpr hup⟩
  | name n =>
    refine ⟨by simpa [Location.push] using hhere, List.pairwise_reverse.mpr ?_⟩
    exact List.pairwise_cons.mpr ⟨fun _ _ hname => absurd hname (by simp), hup⟩
  | up =>
    cases before with
    | nil => cases absolute <;> simp [Location.push, Normal.mk]
    | cons last rest =>
      rw [List.mem_cons, not_or] at hhere
      obtain ⟨hlast, hrest⟩ := List.pairwise_cons.mp hup
      cases last with
      | here => exact absurd rfl hhere.1
      | name n =>
        exact ⟨by simpa [Location.push] using hhere.2, List.pairwise_reverse.mpr hrest⟩
      | up =>
        refine ⟨by simpa [Location.push] using hhere.2, List.pairwise_reverse.mpr ?_⟩
        refine List.pairwise_cons.mpr ⟨fun piece hpiece _ => ?_, hup⟩
        rcases List.mem_cons.mp hpiece with rfl | hpiece
        · rfl
        · exact hlast piece hpiece rfl

theorem normal_normalize (location : Location) : Normal location.normalize.pieces := by
  have hfold : ∀ (pieces before : List Piece), Normal before.reverse →
      Normal (pieces.foldl (push location.absolute) before).reverse := by
    intro pieces
    induction pieces with
    | nil => exact fun before h => h
    | cons piece pieces ih => exact fun before h => ih _ (h.push location.absolute piece)
  exact hfold location.pieces [] ⟨List.not_mem_nil, List.Pairwise.nil⟩

theorem mem_of_mem_push {absolute : Bool} {before : List Piece} {piece p : Piece}
    (h : p ∈ push absolute before piece) : p = piece ∨ p ∈ before := by
  cases piece with
  | here => exact .inr h
  | name n => exact List.mem_cons.mp h
  | up =>
    rcases before with _ | ⟨_ | _ | _, rest⟩
    · cases absolute
      · exact .inl (List.mem_singleton.mp h)
      · exact absurd h List.not_mem_nil
    all_goals grind [Location.push]

/-- Normalizing makes no pieces. -/
theorem mem_of_mem_normalize {location : Location} {piece : Piece}
    (h : piece ∈ location.normalize.pieces) : piece ∈ location.pieces := by
  have hfold : ∀ (pieces before : List Piece),
      piece ∈ pieces.foldl (push location.absolute) before → piece ∈ pieces ∨ piece ∈ before := by
    intro pieces
    induction pieces with
    | nil => exact fun before h => .inr h
    | cons first rest ih =>
      intro before h
      rcases ih _ h with hmem | hmem
      · exact .inl (List.mem_cons_of_mem first hmem)
      · exact (mem_of_mem_push hmem).imp_left fun (heq : piece = first) => heq ▸ List.mem_cons_self
  exact (hfold location.pieces [] (List.mem_reverse.mp h)).resolve_right List.not_mem_nil

theorem mem_rawPieces_of_mem_ofText {text : String} {piece : Piece}
    (h : piece ∈ (ofText text).pieces) : ∃ raw ∈ rawPieces text, piece = .ofText raw := by
  have hmem : piece ∈ (rawPieces text).map Piece.ofText := by
    rw [ofText] at h
    split at h
    · exact absurd h List.not_mem_nil
    · next first rest heq =>
      rw [heq]
      dsimp only at h
      split at h
      · exact List.mem_cons_of_mem first (List.mem_filter.mp h).1
      · rcases List.mem_cons.mp h with rfl | h
        · exact List.mem_cons_self
        · exact List.mem_cons_of_mem first (List.mem_filter.mp h).1
  obtain ⟨raw, hraw, rfl⟩ := List.mem_map.mp hmem
  exact ⟨raw, hraw, rfl⟩

/-- The pieces of a normal form can stand between slashes and are read as they are written. -/
theorem isRawPiece_of_mem_normalize {text : String} {piece : Piece}
    (h : piece ∈ (ofText text).normalize.pieces) :
    IsRawPiece piece.render ∧ Piece.ofText piece.render = piece := by
  obtain ⟨raw, hraw, rfl⟩ := mem_rawPieces_of_mem_ofText (mem_of_mem_normalize h)
  rw [Piece.render_ofText]
  exact ⟨isRawPiece_of_mem hraw, rfl⟩

theorem map_ofText_render {pieces : List Piece}
    (h : ∀ piece ∈ pieces, Piece.ofText piece.render = piece) :
    (pieces.map Piece.render).map Piece.ofText = pieces := by
  calc (pieces.map Piece.render).map Piece.ofText
    _ = pieces.map (Piece.ofText ∘ Piece.render) := List.map_map
    _ = pieces.map id := List.map_congr_left h
    _ = pieces := List.map_id pieces

/-- A relative location in normal form is `.`, or its pieces with slashes between them. -/
theorem normal_rawPieces_normalText {text : String}
    (h : (normalText text).toList.head? ≠ some '/') :
    normalText text = "." ∨ (Normal ((rawPieces (normalText text)).map Piece.ofText) ∧
      "/".intercalate (rawPieces (normalText text)) = normalText text) := by
  have hpieces : ∀ piece ∈ (ofText text).normalize.pieces,
      IsRawPiece piece.render ∧ Piece.ofText piece.render = piece :=
    fun piece => isRawPiece_of_mem_normalize
  have hnormal := normal_normalize (ofText text)
  rw [normalText] at h ⊢
  generalize (ofText text).normalize = location at *
  obtain ⟨absolute, pieces⟩ := location
  by_cases hempty : (Location.mk absolute pieces).render = ""
  · exact .inl (if_pos hempty)
  rw [if_neg hempty] at h ⊢
  cases absolute with
  | true => exact absurd (by simp [render]) h
  | false =>
    have hrender : (Location.mk false pieces).render = "/".intercalate (pieces.map Piece.render) :=
      String.empty_append
    have hraw : ∀ raw ∈ pieces.map Piece.render, IsRawPiece raw := by
      intro raw hraw
      obtain ⟨piece, hpiece, rfl⟩ := List.mem_map.mp hraw
      exact (hpieces piece hpiece).1
    refine .inr ?_
    rw [hrender, rawPieces_intercalate hraw,
      map_ofText_render fun piece hpiece => (hpieces piece hpiece).2]
    exact ⟨hnormal, rfl⟩

end Location

end Docweave
