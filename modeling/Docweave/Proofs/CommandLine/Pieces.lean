import Docweave.CommandLine.Command
import Mathlib.Data.List.Basic

/-!
Arguments, cut into pieces.

Reading goes on argument by argument, and what an argument means depends on the one before it: the
value of an option may look like another option.  Here arguments are cut up first, without reading
them: into options that stand alone, options with the argument behind each as its value, and
operands, which do not look like options.  There is one way at most to do so, because the first
word of a piece tells its kind (`Spells.unique`).  Reading is then the same as taking piece after
piece (`Grammar.read_eq_ok_iff`), and the rest of the theory is about pieces.
-/

namespace Docweave.CommandLine

/-! ### Pieces -/

/-- A piece of the arguments: an option that stands alone, an option with its value, or an
operand. -/
inductive Piece where
  | bare (option : String)
  | valued (option value : String)
  | operand (text : String)
deriving DecidableEq

namespace Piece

/-- The arguments that a piece takes up. -/
def words : Piece → List String
  | .bare option => [option]
  | .valued option value => [option, value]
  | .operand text => [text]

/-- The operand that a piece is. -/
def operand? : Piece → Option String
  | .operand text => some text
  | _ => none

/-- The value that a piece gives to an option. -/
def valueOf? (option : String) : Piece → Option String
  | .valued option' value => if option' = option then some value else none
  | _ => none

/-- The way to expand that a piece asks for. -/
def expansion? : Piece → Option Expansion
  | .bare option =>
    if option = "--compose" then some .composed
    else if option = "--resolve" then some .resolved
    else none
  | _ => none

end Piece

/-- The options of a command: those that stand alone and those with a value. -/
structure Vocabulary where
  bare : List String
  valued : List String

/-- Whether a piece is one of a command: one of its options, or no option at all. -/
def Vocabulary.Knows (vocabulary : Vocabulary) : Piece → Prop
  | .bare option => option ∈ vocabulary.bare
  | .valued option _ => option ∈ vocabulary.valued
  | .operand text => isOption text = false

instance (vocabulary : Vocabulary) (piece : Piece) : Decidable (vocabulary.Knows piece) :=
  match piece with
  | .bare option => inferInstanceAs (Decidable (option ∈ vocabulary.bare))
  | .valued option _ => inferInstanceAs (Decidable (option ∈ vocabulary.valued))
  | .operand text => inferInstanceAs (Decidable (isOption text = false))

/-- The arguments are cut into pieces that a command knows. -/
structure Spells (vocabulary : Vocabulary) (arguments : List String) (pieces : List Piece) :
    Prop where
  words : pieces.flatMap Piece.words = arguments
  known : ∀ piece ∈ pieces, vocabulary.Knows piece

/-- Options look like options, and none of them stands both alone and with a value. -/
structure Vocabulary.Proper (vocabulary : Vocabulary) : Prop where
  bare : ∀ option ∈ vocabulary.bare, isOption option = true
  valued : ∀ option ∈ vocabulary.valued, isOption option = true
  disjoint : ∀ option ∈ vocabulary.bare, option ∉ vocabulary.valued

/-- **Arguments are cut into pieces in one way.** -/
theorem Spells.unique {vocabulary : Vocabulary} (hproper : vocabulary.Proper)
    {arguments : List String} {pieces pieces' : List Piece}
    (h : Spells vocabulary arguments pieces) (h' : Spells vocabulary arguments pieces') :
    pieces = pieces' := by
  obtain ⟨hwords, hknown⟩ := h
  obtain ⟨hwords', hknown'⟩ := h'
  subst hwords
  induction pieces generalizing pieces' with
  | nil =>
      cases pieces' with
      | nil => rfl
      | cons piece' rest' => cases piece' <;> simp [Piece.words] at hwords'
  | cons piece rest ih =>
      obtain ⟨hpiece, hrest⟩ := List.forall_mem_cons.mp hknown
      cases pieces' with
      | nil => cases piece <;> simp [Piece.words] at hwords'
      | cons piece' rest' =>
          obtain ⟨hpiece', hrest'⟩ := List.forall_mem_cons.mp hknown'
          rw [List.flatMap_cons, List.flatMap_cons] at hwords'
          -- the first word tells the kind of the first piece
          obtain ⟨heq, htail⟩ : piece' = piece ∧
              rest'.flatMap Piece.words = rest.flatMap Piece.words := by
            have hbare := hproper.bare
            have hvalued := hproper.valued
            have hdisjoint := hproper.disjoint
            cases piece <;> cases piece' <;>
              simp only [Piece.words, Vocabulary.Knows, List.cons_append, List.nil_append,
                List.cons.injEq] at hwords' hpiece hpiece' <;> grind
          rw [heq, ih hrest hrest' htail]

/-! ### Reading piece by piece -/

theorem toOption_eq_some_iff {ε β : Type} {x : Except ε β} {b : β} :
    x.toOption = some b ↔ x = .ok b := by
  cases x <;> simp [Except.toOption]

namespace Grammar

variable {α : Type}

/-- The options that a grammar has. -/
def vocabulary (grammar : Grammar α) : Vocabulary where
  bare := grammar.options.filterMap fun
    | (option, .bare _) => some option
    | _ => none
  valued := grammar.options.filterMap fun
    | (option, .valued _) => some option
    | _ => none

theorem mem_bare_iff {grammar : Grammar α} {option : String} :
    option ∈ grammar.vocabulary.bare ↔ ∃ act, (option, .bare act) ∈ grammar.options := by
  simp only [vocabulary, List.mem_filterMap]
  constructor
  · rintro ⟨⟨option', rule⟩, hmem, heq⟩
    cases rule with
    | bare act =>
        obtain rfl := Option.some.inj heq
        exact ⟨act, hmem⟩
    | valued act => exact absurd heq (by simp)
  · rintro ⟨act, hmem⟩
    exact ⟨_, hmem, rfl⟩

theorem mem_valued_iff {grammar : Grammar α} {option : String} :
    option ∈ grammar.vocabulary.valued ↔ ∃ act, (option, .valued act) ∈ grammar.options := by
  simp only [vocabulary, List.mem_filterMap]
  constructor
  · rintro ⟨⟨option', rule⟩, hmem, heq⟩
    cases rule with
    | bare act => exact absurd heq (by simp)
    | valued act =>
        obtain rfl := Option.some.inj heq
        exact ⟨act, hmem⟩
  · rintro ⟨act, hmem⟩
    exact ⟨_, hmem, rfl⟩

/-- Every option of the grammar looks like one and has one rule. -/
structure Proper (grammar : Grammar α) : Prop where
  distinct : (grammar.options.map Prod.fst).Nodup
  options : ∀ entry ∈ grammar.options, isOption entry.1 = true

theorem Proper.lookup_eq_some_iff {grammar : Grammar α} (h : grammar.Proper) {option : String}
    {rule : OptionRule α} :
    grammar.options.lookup option = some rule ↔ (option, rule) ∈ grammar.options := by
  rw [List.lookup_eq_some_iff]
  constructor
  · rintro ⟨before, after, heq, -⟩
    rw [heq]
    exact List.mem_append_right before List.mem_cons_self
  · intro hmem
    obtain ⟨before, after, heq⟩ := List.append_of_mem hmem
    refine ⟨before, after, heq, fun entry hentry => ?_⟩
    have hdistinct := h.distinct
    rw [heq, List.map_append, List.map_cons, List.nodup_append] at hdistinct
    have hne := hdistinct.2.2 entry.1 (List.mem_map_of_mem hentry) option List.mem_cons_self
    simpa using Ne.symm hne

theorem Proper.lookup_eq_none {grammar : Grammar α} (h : grammar.Proper) {text : String}
    (htext : isOption text = false) : grammar.options.lookup text = none := by
  cases hlookup : grammar.options.lookup text with
  | none => rfl
  | some rule =>
      have hoption := h.options _ (h.lookup_eq_some_iff.mp hlookup)
      exact absurd (hoption.symm.trans htext) (by simp)

theorem Proper.vocabulary {grammar : Grammar α} (h : grammar.Proper) :
    grammar.vocabulary.Proper where
  bare := by
    intro option hmem
    obtain ⟨act, hmem⟩ := mem_bare_iff.mp hmem
    exact h.options _ hmem
  valued := by
    intro option hmem
    obtain ⟨act, hmem⟩ := mem_valued_iff.mp hmem
    exact h.options _ hmem
  disjoint := by
    intro option hbare hvalued
    obtain ⟨act, hbare⟩ := mem_bare_iff.mp hbare
    obtain ⟨act', hvalued⟩ := mem_valued_iff.mp hvalued
    have heq := (h.lookup_eq_some_iff.mpr hbare).symm.trans (h.lookup_eq_some_iff.mpr hvalued)
    exact absurd (Option.some.inj heq) (by simp)

/-- What is known of a command after one more piece, if it fits. -/
def take? (grammar : Grammar α) (a : α) : Piece → Option α
  | .bare option =>
    match grammar.options.lookup option with
    | some (.bare act) => (act a).toOption
    | _ => none
  | .valued option value =>
    match grammar.options.lookup option with
    | some (.valued act) => (act value a).toOption
    | _ => none
  | .operand text =>
    match grammar.options.lookup text with
    | none => if isOption text then none else (grammar.operand text a).toOption
    | some _ => none

/-- What is known of a command after some pieces, if they fit. -/
def takeAll? (grammar : Grammar α) (a : α) (pieces : List Piece) : Option α :=
  pieces.foldlM grammar.take? a

theorem takeAll?_cons_eq_some_iff {grammar : Grammar α} {a b : α} {piece : Piece}
    {pieces : List Piece} :
    grammar.takeAll? a (piece :: pieces) = some b ↔
      ∃ c, grammar.take? a piece = some c ∧ grammar.takeAll? c pieces = some b := by
  rw [takeAll?, List.foldlM_cons]
  exact Option.bind_eq_some_iff

theorem take?_bare {grammar : Grammar α} {option : String} {act : α → Except UsageFault α}
    (h : grammar.options.lookup option = some (.bare act)) (a : α) :
    grammar.take? a (.bare option) = (act a).toOption := by
  rw [take?, h]

theorem take?_valued {grammar : Grammar α} {option : String}
    {act : String → α → Except UsageFault α}
    (h : grammar.options.lookup option = some (.valued act)) (value : String) (a : α) :
    grammar.take? a (.valued option value) = (act value a).toOption := by
  rw [take?, h]

theorem take?_operand {grammar : Grammar α} {text : String}
    (h : grammar.options.lookup text = none) (htext : ¬ isOption text = true) (a : α) :
    grammar.take? a (.operand text) = (grammar.operand text a).toOption := by
  rw [take?, h]
  exact if_neg htext

theorem Proper.knows_of_take? {grammar : Grammar α} (h : grammar.Proper) {a b : α} {piece : Piece}
    (htake : grammar.take? a piece = some b) : grammar.vocabulary.Knows piece := by
  cases piece with
  | bare option =>
      simp only [take?] at htake
      split at htake
      · next act hlookup => exact mem_bare_iff.mpr ⟨act, h.lookup_eq_some_iff.mp hlookup⟩
      · exact absurd htake (by simp)
  | valued option value =>
      simp only [take?] at htake
      split at htake
      · next act hlookup => exact mem_valued_iff.mpr ⟨act, h.lookup_eq_some_iff.mp hlookup⟩
      · exact absurd htake (by simp)
  | operand text =>
      simp only [take?] at htake
      split at htake
      · split at htake
        · exact absurd htake (by simp)
        · next hoption => exact Bool.eq_false_iff.mpr hoption
      · exact absurd htake (by simp)

theorem exists_pieces_of_read {grammar : Grammar α} {arguments : List String} {a b : α}
    (h : grammar.read arguments a = .ok b) :
    ∃ pieces : List Piece, pieces.flatMap Piece.words = arguments ∧
      grammar.takeAll? a pieces = some b := by
  fun_induction Grammar.read grammar arguments a with
  | case1 a => exact ⟨[], rfl, congrArg some (Except.ok.inj h)⟩
  | case2 argument rest a act hlookup c hact ih =>
      obtain ⟨pieces, hwords, htake⟩ := ih h
      refine ⟨.bare argument :: pieces, congrArg (argument :: ·) hwords,
        takeAll?_cons_eq_some_iff.mpr ⟨c, ?_, htake⟩⟩
      rw [take?_bare hlookup, hact]
      rfl
  | case5 argument a act hlookup value rest c hact ih =>
      obtain ⟨pieces, hwords, htake⟩ := ih h
      refine ⟨.valued argument value :: pieces, congrArg (argument :: value :: ·) hwords,
        takeAll?_cons_eq_some_iff.mpr ⟨c, ?_, htake⟩⟩
      rw [take?_valued hlookup, hact]
      rfl
  | case8 argument rest a hlookup hoption c htake ih =>
      obtain ⟨pieces, hwords, hrest⟩ := ih h
      refine ⟨.operand argument :: pieces, congrArg (argument :: ·) hwords,
        takeAll?_cons_eq_some_iff.mpr ⟨c, ?_, hrest⟩⟩
      rw [take?_operand hlookup hoption, htake]
      rfl
  -- in all other cases reading fails
  | _ => exact absurd h (by simp)

/-- Reading goes on behind a piece that fits. -/
theorem read_words_append {grammar : Grammar α} {a c : α} {piece : Piece}
    (h : grammar.take? a piece = some c) (rest : List String) :
    grammar.read (piece.words ++ rest) a = grammar.read rest c := by
  cases piece with
  | bare option =>
      simp only [take?] at h
      split at h
      · next act hlookup =>
          rw [Piece.words, List.singleton_append, read, hlookup]
          simp only [toOption_eq_some_iff.mp h]
      · exact absurd h (by simp)
  | valued option value =>
      simp only [take?] at h
      split at h
      · next act hlookup =>
          rw [Piece.words, List.cons_append, List.singleton_append, read, hlookup]
          simp only [toOption_eq_some_iff.mp h]
      · exact absurd h (by simp)
  | operand text =>
      simp only [take?] at h
      split at h
      · next hlookup =>
          split at h
          · exact absurd h (by simp)
          · next hoption =>
              rw [Piece.words, List.singleton_append, read, hlookup]
              simp only [toOption_eq_some_iff.mp h, if_neg hoption]
      · exact absurd h (by simp)

/-- Reading goes on behind arguments that are read. -/
theorem read_append {grammar : Grammar α} {arguments : List String} {a b : α}
    (h : grammar.read arguments a = .ok b) (rest : List String) :
    grammar.read (arguments ++ rest) a = grammar.read rest b := by
  obtain ⟨pieces, rfl, htake⟩ := exists_pieces_of_read h
  clear h
  induction pieces generalizing a with
  | nil => exact congrArg (grammar.read rest) (Option.some.inj htake)
  | cons piece pieces ih =>
      obtain ⟨c, hpiece, hrest⟩ := takeAll?_cons_eq_some_iff.mp htake
      rw [List.flatMap_cons, List.append_assoc, read_words_append hpiece, ih hrest]

/-- **Reading arguments is taking the pieces that they are cut into, one after the other.** -/
theorem read_eq_ok_iff {grammar : Grammar α} {arguments : List String} {a b : α} :
    grammar.read arguments a = .ok b ↔
      ∃ pieces : List Piece, pieces.flatMap Piece.words = arguments ∧
        grammar.takeAll? a pieces = some b := by
  refine ⟨exists_pieces_of_read, ?_⟩
  rintro ⟨pieces, rfl, h⟩
  induction pieces generalizing a with
  | nil => exact congrArg Except.ok (Option.some.inj h)
  | cons piece pieces ih =>
      obtain ⟨c, hpiece, hrest⟩ := takeAll?_cons_eq_some_iff.mp h
      rw [List.flatMap_cons, read_words_append hpiece, ih hrest]

end Grammar

end Docweave.CommandLine
