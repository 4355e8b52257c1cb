import Docweave.Fault
import Docweave.File.Location

/-!
The files that documents are read from.

What the rest of the library needs of a file system is one function, from the text of a location
to the text of a file or the reason that it cannot be read, and that only finitely many files can
be read by a location in normal form.  A `Tree` is a file system given by its files: the files
below the current directory, each with its bytes.
-/

namespace Docweave

/-- What reading each location gives. -/
structure Files where
  read : String → Except FileFault String
  /-- The locations in normal form that can be read are among these. -/
  readable : List String
  mem_readable : ∀ {raw text : String}, read (Location.normalText raw) = .ok text →
    Location.normalText raw ∈ readable

/-- No files. -/
def Files.none : Files :=
  ⟨fun _ => .error .missing, [], fun h => absurd h (by simp)⟩

/-- A file in a tree: the names of the directories down to it and its own, and its bytes. -/
structure TreeFile where
  names : List String
  bytes : ByteArray

/-- The files below the current directory. -/
structure Tree where
  files : List TreeFile

namespace Tree

/-- Where a walk through a tree has come to.  Nothing is known of directories outside the tree but
that they are directories. -/
inductive Place where
  | directory (names : List String)
  | file (bytes : ByteArray)
  | outside

/-- The bytes of a file. -/
def find? (tree : Tree) (names : List String) : Option ByteArray :=
  (tree.files.find? fun file => file.names == names).map TreeFile.bytes

/-- Whether some file lies below these names. -/
def hasDirectory (tree : Tree) (names : List String) : Bool :=
  tree.files.any fun file =>
    names.isPrefixOf file.names && decide (names.length < file.names.length)

/-- Goes one piece on. -/
def step (tree : Tree) (place : Place) (piece : Piece) : Except FileFault Place :=
  match place, piece with
  | .file _, _ => .error .notDirectory
  | place, .here => .ok place
  | .outside, .up => .ok .outside
  | .outside, .name _ => .error .missing
  | .directory [], .up => .ok .outside
  | .directory names, .up => .ok (.directory names.dropLast)
  | .directory names, .name name =>
    match tree.find? (names ++ [name]) with
    | some bytes => .ok (.file bytes)
    | none =>
      if tree.hasDirectory (names ++ [name]) then .ok (.directory (names ++ [name]))
      else .error .missing

/-- Reads the file at a location.  A location that ends with a slash can only be a directory. -/
def read (tree : Tree) (location : String) : Except FileFault String :=
  let cs := location.toList
  if cs.contains '\x00' then .error .badName
  else if cs.isEmpty then .error .missing
  else
    let start := if cs.head? = some '/' then Place.outside else .directory []
    let pieces := (Location.rawPieces location).map Piece.ofText
    match pieces.foldlM tree.step start with
    | .error fault => .error fault
    | .ok (.file bytes) =>
      if cs.getLast? = some '/' then .error .notDirectory
      else match String.fromUTF8? bytes with
        | some text => .ok text
        | none => .error .notText
    | .ok _ => .error .directory

/-- The tree with a file written, over one that was there before. -/
def write (tree : Tree) (location : String) (bytes : ByteArray) : Tree :=
  let names := Location.rawPieces location
  ⟨tree.files.filter (fun file => file.names != names) ++ [⟨names, bytes⟩]⟩

/-! ### What can be read -/

/-- Outside of the tree there are no files. -/
theorem eq_outside_of_foldlM {tree : Tree} {pieces : List Piece} {place : Place}
    (h : pieces.foldlM tree.step .outside = .ok place) : place = .outside := by
  induction pieces with
  | nil => exact (Except.ok.inj h).symm
  | cons piece pieces ih =>
    cases piece with
    | name n => exact absurd h (by simp [step, bind, Except.bind])
    | here => exact ih h
    | up => exact ih h

theorem exists_file_of_find? {tree : Tree} {names : List String} {bytes : ByteArray}
    (h : tree.find? names = some bytes) : ∃ file ∈ tree.files, file.names = names := by
  obtain ⟨file, hfile, -⟩ := Option.map_eq_some_iff.mp h
  exact ⟨file, List.mem_of_find?_eq_some hfile, by simpa using List.find?_some hfile⟩

/-- Going down by names leads to the file with these names. -/
theorem names_of_foldlM {tree : Tree} {raws names : List String} {bytes : ByteArray}
    (hdown : ∀ piece ∈ raws.map Piece.ofText, piece ≠ .here ∧ piece ≠ .up)
    (h : (raws.map Piece.ofText).foldlM tree.step (.directory names) = .ok (.file bytes)) :
    ∃ file ∈ tree.files, file.names = names ++ raws := by
  induction raws generalizing names with
  | nil => exact absurd h (by simp [pure, Except.pure])
  | cons raw raws ih =>
    obtain ⟨⟨hhere, hup⟩, hdown⟩ := List.forall_mem_cons.mp hdown
    have hname : Piece.ofText raw = .name raw := by grind [Piece.ofText]
    rw [List.map_cons, List.foldlM_cons, hname] at h
    have hstep : tree.step (.directory names) (.name raw) =
        match tree.find? (names ++ [raw]) with
        | some bytes => .ok (.file bytes)
        | none =>
          if tree.hasDirectory (names ++ [raw]) then .ok (.directory (names ++ [raw]))
          else .error .missing := by
      cases names <;> rfl
    rw [hstep] at h
    cases hfind : tree.find? (names ++ [raw]) with
    | some found =>
      rw [hfind] at h
      cases raws with
      | nil => exact exists_file_of_find? hfind
      | cons next rest => exact absurd h (by simp [step, bind, Except.bind])
    | none =>
      rw [hfind] at h
      by_cases hdirectory : tree.hasDirectory (names ++ [raw]) = true
      · simp only [hdirectory, if_true] at h
        obtain ⟨file, hfile, hnames⟩ := ih hdown h
        exact ⟨file, hfile, by rw [hnames, List.append_assoc, List.singleton_append]⟩
      · simp only [hdirectory] at h
        exact absurd h (by simp [bind, Except.bind])

/-- What is read is a file that the pieces lead to. -/
theorem foldlM_of_read {tree : Tree} {location text : String}
    (h : tree.read location = .ok text) :
    ∃ bytes, ((Location.rawPieces location).map Piece.ofText).foldlM tree.step
      (if location.toList.head? = some '/' then .outside else .directory []) =
        .ok (.file bytes) := by
  unfold read at h
  dsimp only at h
  split at h
  · exact absurd h (by simp)
  split at h
  · exact absurd h (by simp)
  split at h
  · exact absurd h (by simp)
  · next bytes hfold => exact ⟨bytes, hfold⟩
  · exact absurd h (by simp)

/-- The files of the tree are all that can be read by locations in normal form. -/
theorem exists_file_of_read {tree : Tree} {raw text : String}
    (h : tree.read (Location.normalText raw) = .ok text) :
    ∃ file ∈ tree.files, "/".intercalate file.names = Location.normalText raw := by
  obtain ⟨bytes, hfold⟩ := foldlM_of_read h
  by_cases habsolute : (Location.normalText raw).toList.head? = some '/'
  · rw [if_pos habsolute] at hfold
    exact absurd (eq_outside_of_foldlM hfold) (by simp)
  rw [if_neg habsolute] at hfold
  rcases Location.normal_rawPieces_normalText habsolute with hdot | ⟨hnormal, htext⟩
  · have hhere : (Location.rawPieces ".").map Piece.ofText = [.here] := by decide
    rw [hdot, hhere] at hfold
    exact absurd (Except.ok.inj hfold) (by simp)
  rw [← htext]
  generalize Location.rawPieces (Location.normalText raw) = raws at hfold hnormal
  -- A `..` in front leads out of the tree, and behind a name there is none.
  have hdown : ∀ piece ∈ raws.map Piece.ofText, piece ≠ .here ∧ piece ≠ .up := by
    intro piece hpiece
    refine ⟨fun hhere => hnormal.here_not_mem (hhere ▸ hpiece), ?_⟩
    rintro rfl
    cases hpieces : raws.map Piece.ofText with
    | nil => exact absurd (hpieces ▸ hpiece) List.not_mem_nil
    | cons first rest =>
      rw [hpieces] at hfold hpiece
      have hup := hpieces ▸ hnormal.up_first
      obtain rfl : first = .up := by
        rcases List.mem_cons.mp hpiece with heq | hmem
        · exact heq.symm
        · exact (List.pairwise_cons.mp hup).1 _ hmem rfl
      have hrest : rest.foldlM tree.step .outside = .ok (.file bytes) := hfold
      exact absurd (eq_outside_of_foldlM hrest) (by simp)
  obtain ⟨file, hfile, hnames⟩ := names_of_foldlM hdown hfold
  exact ⟨file, hfile, by rw [hnames, List.nil_append]⟩

/-- The tree as a file system. -/
def toFiles (tree : Tree) : Files where
  read := tree.read
  readable := tree.files.map fun file => "/".intercalate file.names
  mem_readable := fun h =>
    let ⟨file, hfile, hnames⟩ := exists_file_of_read h
    List.mem_map.mpr ⟨file, hfile, hnames⟩

end Tree

end Docweave
