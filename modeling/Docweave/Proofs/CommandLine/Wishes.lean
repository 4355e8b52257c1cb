import Docweave.Proofs.CommandLine.Pieces

/-!
What arguments ask for, and which of them a command accepts.

The three commands with one file keep what they know in different records, but what their arguments
can say is the same: `Wishes` has a field for each of it, and says for every piece whether it fits
and what it changes.  A grammar follows these rules if each of its options, and the operand, does
what the piece asks for (`Grammar.Follows`); that is checked once for each command.  The steps then
add up: arguments are accepted if their pieces fit one after the other, and what is known in the end
is what they say together, the last word on every field (`Told`).

The empty text stands for the file that is still missing, so an empty operand is taken and counts
for nothing.
-/

namespace Docweave.CommandLine

/-! ### What pieces say -/

/-- Everything that arguments can ask for. -/
@[ext]
structure Wishes where
  file : String := ""
  backend : Backend := .indexed
  caching : Bool := false
  pointer? : Option String := none
  compact : Bool := false
  expansion : Expansion := .written
deriving DecidableEq

namespace Wishes

/-- The wishes with what one more piece says.  A piece that says nothing changes nothing. -/
def add (wishes : Wishes) : Piece → Wishes
  | .bare option =>
    if option = "--cache" then { wishes with caching := true }
    else if option = "--compact" then { wishes with compact := true }
    else if option = "--compose" then { wishes with expansion := .composed }
    else if option = "--resolve" then { wishes with expansion := .resolved }
    else wishes
  | .valued option value =>
    if option = "--wrapper" then
      { wishes with backend := (Backend.ofLabel? value).getD wishes.backend }
    else if option = "--pointer" then { wishes with pointer? := some value }
    else wishes
  | .operand text => { wishes with file := text }

/-- Whether one more piece fits: an operand while the file is empty, the label of a store, and a way
to expand that is the only one. -/
def Admits (wishes : Wishes) (piece : Piece) : Prop :=
  (∀ text, piece.operand? = some text → wishes.file = "") ∧
  (∀ label, piece.valueOf? "--wrapper" = some label → (Backend.ofLabel? label).isSome = true) ∧
  ∀ requested, piece.expansion? = some requested →
    wishes.expansion = .written ∨ wishes.expansion = requested

/-- Whether pieces fit one after the other. -/
def AdmitsAll (wishes : Wishes) : List Piece → Prop
  | [] => True
  | piece :: pieces => wishes.Admits piece ∧ (wishes.add piece).AdmitsAll pieces

variable (wishes : Wishes) (pieces : List Piece)

/-- What is said last counts. -/
theorem foldl_add_eq_getLastD {β : Type} {field : Wishes → β} {said : Piece → Option β}
    (h : ∀ wishes piece, field (add wishes piece) = (said piece).getD (field wishes)) :
    field (pieces.foldl add wishes) = (pieces.filterMap said).getLastD (field wishes) := by
  induction pieces generalizing wishes with
  | nil => rfl
  | cons piece pieces ih =>
      rw [List.foldl_cons, ih, h, List.filterMap_cons]
      cases said piece with
      | none => rfl
      | some b => rw [List.getLastD_cons]; rfl

/-- What is said once is said. -/
theorem foldl_add_eq_contains {field : Wishes → Bool} {word : Piece}
    (h : ∀ wishes piece, field (add wishes piece) = (field wishes || word == piece)) :
    field (pieces.foldl add wishes) = (field wishes || pieces.contains word) := by
  induction pieces generalizing wishes with
  | nil => exact (Bool.or_false _).symm
  | cons piece pieces ih => rw [List.foldl_cons, ih, h, List.contains_cons, Bool.or_assoc]

theorem file_foldl_add :
    (pieces.foldl add wishes).file = (pieces.filterMap Piece.operand?).getLastD wishes.file := by
  refine foldl_add_eq_getLastD wishes pieces fun wishes piece => ?_
  cases piece <;> grind [add, Piece.operand?]

theorem backend_foldl_add :
    (pieces.foldl add wishes).backend =
      (pieces.filterMap fun piece =>
        (piece.valueOf? "--wrapper").bind Backend.ofLabel?).getLastD wishes.backend := by
  refine foldl_add_eq_getLastD wishes pieces fun wishes piece => ?_
  cases piece <;> grind [add, Piece.valueOf?]

theorem pointer?_foldl_add :
    (pieces.foldl add wishes).pointer? =
      (pieces.filterMap fun piece =>
        (piece.valueOf? "--pointer").map some).getLastD wishes.pointer? := by
  refine foldl_add_eq_getLastD wishes pieces fun wishes piece => ?_
  cases piece <;> grind [add, Piece.valueOf?]

theorem expansion_foldl_add :
    (pieces.foldl add wishes).expansion =
      (pieces.filterMap Piece.expansion?).getLastD wishes.expansion := by
  refine foldl_add_eq_getLastD wishes pieces fun wishes piece => ?_
  cases piece <;> grind [add, Piece.expansion?]

theorem caching_foldl_add :
    (pieces.foldl add wishes).caching =
      (wishes.caching || pieces.contains (.bare "--cache")) := by
  refine foldl_add_eq_contains wishes pieces fun wishes piece => ?_
  cases piece <;> grind [add]

theorem compact_foldl_add :
    (pieces.foldl add wishes).compact =
      (wishes.compact || pieces.contains (.bare "--compact")) := by
  refine foldl_add_eq_contains wishes pieces fun wishes piece => ?_
  cases piece <;> grind [add]

/-- Whether no two different ways to expand are among some. -/
def OneExpansion (expansions : List Expansion) : Prop :=
  ∀ e ∈ expansions, ∀ e' ∈ expansions, e ≠ .written → e' ≠ .written → e = e'

theorem oneExpansion_cons_cons {before requested : Expansion} {rest : List Expansion}
    (h : requested ≠ .written) :
    OneExpansion (before :: requested :: rest) ↔
      (before = .written ∨ before = requested) ∧ OneExpansion (requested :: rest) := by
  constructor
  · intro hone
    refine ⟨?_, fun e he e' he' =>
      hone e (List.mem_cons_of_mem _ he) e' (List.mem_cons_of_mem _ he')⟩
    by_cases hbefore : before = .written
    · exact .inl hbefore
    · exact .inr (hone before List.mem_cons_self requested
        (List.mem_cons_of_mem _ List.mem_cons_self) hbefore h)
  · rintro ⟨hbefore, hone⟩ e he e' he' hne hne'
    have hrest : ∀ e ∈ before :: requested :: rest, e ≠ .written → e ∈ requested :: rest := by
      intro e he hne
      rcases List.mem_cons.mp he with rfl | he
      · exact hbefore.resolve_left hne ▸ List.mem_cons_self
      · exact he
    exact hone e (hrest e he hne) e' (hrest e' he' hne') hne hne'

theorem ne_written_of_expansion? {piece : Piece} {requested : Expansion}
    (h : piece.expansion? = some requested) : requested ≠ .written := by
  cases piece <;> grind [Piece.expansion?]

/-- **Pieces fit** if all operands but the last are empty, all labels are those of stores, and there
is one way to expand at most. -/
theorem admitsAll_iff :
    wishes.AdmitsAll pieces ↔
      (∀ text ∈ (wishes.file :: pieces.filterMap Piece.operand?).dropLast, text = "") ∧
      (∀ label ∈ pieces.filterMap (Piece.valueOf? "--wrapper"),
        (Backend.ofLabel? label).isSome = true) ∧
      OneExpansion (wishes.expansion :: pieces.filterMap Piece.expansion?) := by
  induction pieces generalizing wishes with
  | nil => simp [AdmitsAll, OneExpansion]
  | cons piece pieces ih =>
      have hfile := file_foldl_add wishes [piece]
      have hexpansion := expansion_foldl_add wishes [piece]
      rw [List.foldl_cons, List.foldl_nil, List.filterMap_cons, List.filterMap_nil] at hfile
      rw [List.foldl_cons, List.foldl_nil, List.filterMap_cons, List.filterMap_nil] at hexpansion
      rw [AdmitsAll, Admits, ih, hfile, hexpansion, and_and_and_comm, List.filterMap_cons,
        List.filterMap_cons, List.filterMap_cons]
      refine and_congr ?_ ((and_and_and_comm).trans (and_congr ?_ ?_))
      · cases piece.operand? with
        | none => simp
        | some text => simp [List.dropLast]
      · cases piece.valueOf? "--wrapper" with
        | none => simp
        | some label => simp
      · cases hrequested : piece.expansion? with
        | none => simp
        | some requested =>
            rw [oneExpansion_cons_cons (ne_written_of_expansion? hrequested)]
            simp

end Wishes

/-! ### Commands that listen -/

section Following

variable {α : Type}

/-- Whether the answer of a command to a piece is the right one. -/
def Wishes.Answers (wishes : α → Wishes) (a : α) (piece : Piece) : Except UsageFault α → Prop
  | .ok b => (wishes a).Admits piece ∧ wishes b = (wishes a).add piece
  | .error _ => ¬ (wishes a).Admits piece

/-- Whether the rule of an option gives the right answers. -/
def OptionRule.Answers (wishes : α → Wishes) (option : String) : OptionRule α → Prop
  | .bare act => ∀ a, Wishes.Answers wishes a (.bare option) (act a)
  | .valued act => ∀ value a, Wishes.Answers wishes a (.valued option value) (act value a)

/-- A grammar does with every piece what the piece asks for. -/
structure Grammar.Follows (grammar : Grammar α) (wishes : α → Wishes) : Prop
    extends grammar.Proper where
  rules : ∀ entry ∈ grammar.options, entry.2.Answers wishes entry.1
  operand : ∀ text a, Wishes.Answers wishes a (.operand text) (grammar.operand text a)

/-- What comes of a piece: it is taken if the grammar knows it and it fits. -/
inductive Grammar.Took (grammar : Grammar α) (wishes : α → Wishes) (a : α) (piece : Piece) :
    Option α → Prop
  | fits {b : α} (hknows : grammar.vocabulary.Knows piece) (hadmits : (wishes a).Admits piece)
      (hb : wishes b = (wishes a).add piece) : Took grammar wishes a piece (some b)
  | misfit (h : ¬ (grammar.vocabulary.Knows piece ∧ (wishes a).Admits piece)) :
      Took grammar wishes a piece none

namespace Grammar.Follows

variable {grammar : Grammar α} {wishes : α → Wishes} {a b : α} {piece : Piece}

theorem took_of_answers {x : Except UsageFault α} (hknows : grammar.vocabulary.Knows piece)
    (h : Wishes.Answers wishes a piece x) : grammar.Took wishes a piece x.toOption := by
  cases x with
  | ok b => exact .fits hknows h.1 h.2
  | error fault => exact .misfit fun hfits => h hfits.2

theorem took (h : grammar.Follows wishes) (a : α) (piece : Piece) :
    grammar.Took wishes a piece (grammar.take? a piece) := by
  by_cases hknows : grammar.vocabulary.Knows piece
  · cases piece with
    | bare option =>
        obtain ⟨act, hmem⟩ := mem_bare_iff.mp hknows
        rw [take?_bare (h.lookup_eq_some_iff.mpr hmem)]
        exact took_of_answers hknows (h.rules _ hmem a)
    | valued option value =>
        obtain ⟨act, hmem⟩ := mem_valued_iff.mp hknows
        rw [take?_valued (h.lookup_eq_some_iff.mpr hmem)]
        exact took_of_answers hknows (h.rules _ hmem value a)
    | operand text =>
        rw [take?_operand (h.lookup_eq_none hknows) (Bool.eq_false_iff.mp hknows)]
        exact took_of_answers hknows (h.operand text a)
  · cases htake : grammar.take? a piece with
    | none => exact .misfit fun hfits => hknows hfits.1
    | some b => exact absurd (h.knows_of_take? htake) hknows

/-- Pieces are taken if the grammar knows them and they fit one after the other, and what is known
of the command then is what they say. -/
theorem takeAll?_iff (h : grammar.Follows wishes) {a : α} {pieces : List Piece} {w : Wishes} :
    (∃ b, grammar.takeAll? a pieces = some b ∧ wishes b = w) ↔
      (∀ piece ∈ pieces, grammar.vocabulary.Knows piece) ∧ (wishes a).AdmitsAll pieces ∧
        w = pieces.foldl Wishes.add (wishes a) := by
  induction pieces generalizing a with
  | nil => simp [takeAll?, Wishes.AdmitsAll, eq_comm]
  | cons piece pieces ih =>
      simp only [takeAll?_cons_eq_some_iff, List.forall_mem_cons, Wishes.AdmitsAll,
        List.foldl_cons]
      have htook := h.took a piece
      cases htake : grammar.take? a piece with
      | none =>
          rw [htake] at htook
          cases htook with
          | misfit hmisfit =>
              refine iff_of_false (by simp) ?_
              rintro ⟨⟨hknows, -⟩, ⟨hadmits, -⟩, -⟩
              exact hmisfit ⟨hknows, hadmits⟩
      | some c =>
          rw [htake] at htook
          cases htook with
          | fits hknows hadmits hc =>
              rw [← hc]
              simpa [hknows, hadmits] using ih (a := c)

end Grammar.Follows

end Following

/-! ### The commands -/

/-- What is known of the command while its arguments are read. -/
def ComposeCommand.wishes (command : ComposeCommand) : Wishes :=
  { file := command.file, backend := command.backend, caching := command.caching,
    pointer? := command.pointer?, compact := command.compact }

def ResolveCommand.wishes (command : ResolveCommand) : Wishes :=
  { file := command.file, backend := command.backend, caching := command.caching,
    compact := command.compact }

def LeavesCommand.wishes (command : LeavesCommand) : Wishes :=
  { file := command.file, expansion := command.expansion }

section Answers

variable {α : Type} {wishes : α → Wishes} {a b : α}

/-- An option that asks for neither a file nor a store nor a way to expand always fits. -/
theorem answers_ok {piece : Piece} (hoperand : piece.operand? = none)
    (hlabel : piece.valueOf? "--wrapper" = none) (hexpansion : piece.expansion? = none)
    (hb : wishes b = (wishes a).add piece) : Wishes.Answers wishes a piece (.ok b) :=
  ⟨by simp [Wishes.Admits, hoperand, hlabel, hexpansion], hb⟩

theorem answers_takeFile {text : String} {enter : String → α}
    (henter : wishes (enter text) = { wishes a with file := text }) :
    Wishes.Answers wishes a (.operand text) ((takeFile (wishes a).file text).map enter) := by
  unfold takeFile
  split
  · next hempty => exact ⟨by simp [Wishes.Admits, Piece.valueOf?, Piece.expansion?, hempty], henter⟩
  · next hfull => exact fun hadmits => hfull (hadmits.1 text rfl)

theorem answers_takeBackend {label : String} {enter : Backend → α}
    (henter : ∀ backend, wishes (enter backend) = { wishes a with backend }) :
    Wishes.Answers wishes a (.valued "--wrapper" label) ((takeBackend label).map enter) := by
  unfold takeBackend
  split
  · next backend hlabel =>
      refine ⟨by simp [Wishes.Admits, Piece.operand?, Piece.valueOf?, Piece.expansion?, hlabel], ?_⟩
      rw [henter, Wishes.add, if_pos rfl, hlabel]
      rfl
  · next hlabel =>
      intro hadmits
      exact absurd (hadmits.2.1 label rfl) (by simp [hlabel])

theorem answers_takeExpansion {option : String} {requested : Expansion} {enter : Expansion → α}
    (hoption : Piece.expansion? (.bare option) = some requested)
    (hadd : (wishes a).add (.bare option) = { wishes a with expansion := requested })
    (henter : wishes (enter requested) = { wishes a with expansion := requested }) :
    Wishes.Answers wishes a (.bare option)
      ((takeExpansion (wishes a).expansion requested).map enter) := by
  unfold takeExpansion
  split
  · next hconflict =>
      intro hadmits
      rcases hadmits.2.2 requested hoption with hwritten | hsame
      · exact hconflict.1 hwritten
      · exact hconflict.2 hsame
  · next hfits =>
      refine ⟨⟨by simp [Piece.operand?], by simp [Piece.valueOf?], fun requested' h => ?_⟩,
        henter.trans hadd.symm⟩
      obtain rfl := Option.some.inj (hoption.symm.trans h)
      by_contra hneither
      exact hfits (not_or.mp hneither)

end Answers

theorem ComposeCommand.follows : grammar.Follows wishes where
  distinct := by decide
  options := by decide
  rules := by
    simp only [grammar, List.forall_mem_cons]
    refine ⟨?wrapper, ?pointer, ?cache, ?compact, by simp⟩
    case wrapper => exact fun label a => answers_takeBackend fun backend => rfl
    case pointer => exact fun raw a => answers_ok rfl rfl rfl rfl
    case cache => exact fun a => answers_ok rfl rfl rfl rfl
    case compact => exact fun a => answers_ok rfl rfl rfl rfl
  operand := fun text a => answers_takeFile (a := a) rfl

theorem ResolveCommand.follows : grammar.Follows wishes where
  distinct := by decide
  options := by decide
  rules := by
    simp only [grammar, List.forall_mem_cons]
    refine ⟨?wrapper, ?cache, ?compact, by simp⟩
    case wrapper => exact fun label a => answers_takeBackend fun backend => rfl
    case cache => exact fun a => answers_ok rfl rfl rfl rfl
    case compact => exact fun a => answers_ok rfl rfl rfl rfl
  operand := fun text a => answers_takeFile (a := a) rfl

theorem LeavesCommand.follows : grammar.Follows wishes where
  distinct := by decide
  options := by decide
  rules := by
    simp only [grammar, List.forall_mem_cons]
    refine ⟨?composed, ?resolved, by simp⟩
    case composed => exact fun a => answers_takeExpansion (a := a) rfl rfl rfl
    case resolved => exact fun a => answers_takeExpansion (a := a) rfl rfl rfl
  operand := fun text a => answers_takeFile (a := a) rfl

/-! ### What is accepted -/

/-- What pieces tell a command that has its defaults. -/
structure Told (defaults : Wishes) (pieces : List Piece) (wishes : Wishes) : Prop where
  /-- The file is the last operand, and those before it are empty. -/
  operands : ∃ before, (∀ text ∈ before, text = "") ∧
    pieces.filterMap Piece.operand? = before ++ [wishes.file]
  file : wishes.file ≠ ""
  /-- Every label is that of a store. -/
  labels : ∀ label ∈ pieces.filterMap (Piece.valueOf? "--wrapper"),
    (Backend.ofLabel? label).isSome = true
  /-- Both ways to expand exclude each other. -/
  expansions : ¬ (.bare "--compose" ∈ pieces ∧ .bare "--resolve" ∈ pieces)
  backend : wishes.backend =
    (pieces.filterMap fun piece =>
      (piece.valueOf? "--wrapper").bind Backend.ofLabel?).getLastD defaults.backend
  pointer? : wishes.pointer? =
    (pieces.filterMap fun piece =>
      (piece.valueOf? "--pointer").map some).getLastD defaults.pointer?
  caching : wishes.caching = (defaults.caching || pieces.contains (.bare "--cache"))
  compact : wishes.compact = (defaults.compact || pieces.contains (.bare "--compact"))
  expansion : wishes.expansion =
    (pieces.filterMap Piece.expansion?).getLastD defaults.expansion

/-- A way to expand is asked for by the option for it. -/
theorem mem_expansions_iff {pieces : List Piece} {option : String} {requested : Expansion}
    (h : ∀ piece, Piece.expansion? piece = some requested ↔ piece = .bare option) :
    requested ∈ pieces.filterMap Piece.expansion? ↔ .bare option ∈ pieces := by
  simp only [List.mem_filterMap, h, exists_eq_right]

theorem oneExpansion_iff {pieces : List Piece} :
    Wishes.OneExpansion (.written :: pieces.filterMap Piece.expansion?) ↔
      ¬ (.bare "--compose" ∈ pieces ∧ .bare "--resolve" ∈ pieces) := by
  have hcompose : .composed ∈ pieces.filterMap Piece.expansion? ↔ .bare "--compose" ∈ pieces := by
    refine mem_expansions_iff fun piece => ?_
    cases piece <;> grind [Piece.expansion?]
  have hresolve : .resolved ∈ pieces.filterMap Piece.expansion? ↔ .bare "--resolve" ∈ pieces := by
    refine mem_expansions_iff fun piece => ?_
    cases piece <;> grind [Piece.expansion?]
  rw [← hcompose, ← hresolve]
  constructor
  · rintro hone ⟨hcomposed, hresolved⟩
    exact absurd (hone _ (List.mem_cons_of_mem _ hcomposed) _ (List.mem_cons_of_mem _ hresolved)
      (by decide) (by decide)) (by decide)
  · intro hboth e he e' he' hne hne'
    have hmem := (List.mem_cons.mp he).resolve_left hne
    have hmem' := (List.mem_cons.mp he').resolve_left hne'
    cases e <;> cases e' <;> first | rfl | exact absurd rfl hne | exact absurd rfl hne' | grind

/-- All operands but the last are empty, and the last is not. -/
theorem lastOperand_iff {operands : List String} {file : String} :
    (∀ text ∈ ("" :: operands).dropLast, text = "") ∧ file = operands.getLastD "" ∧ file ≠ "" ↔
      (∃ before, (∀ text ∈ before, text = "") ∧ operands = before ++ [file]) ∧ file ≠ "" := by
  rcases List.eq_nil_or_concat operands with rfl | ⟨before, last, rfl⟩
  · simp
  · rw [List.concat_eq_append, ← List.cons_append, List.dropLast_concat, List.getLastD_concat,
      List.forall_mem_cons]
    constructor
    · rintro ⟨⟨-, hbefore⟩, rfl, hfile⟩
      exact ⟨⟨before, hbefore, rfl⟩, hfile⟩
    · rintro ⟨⟨before', hbefore, heq⟩, hfile⟩
      obtain ⟨rfl, hlast⟩ := List.append_inj' heq rfl
      exact ⟨⟨rfl, hbefore⟩, (List.singleton_inj.mp hlast).symm, hfile⟩

theorem told_iff {defaults wishes : Wishes} {pieces : List Piece} (hfile : defaults.file = "")
    (hexpansion : defaults.expansion = .written) :
    Told defaults pieces wishes ↔
      defaults.AdmitsAll pieces ∧ wishes = pieces.foldl Wishes.add defaults ∧ wishes.file ≠ "" := by
  rw [Wishes.admitsAll_iff, hfile, hexpansion, oneExpansion_iff]
  constructor
  · intro h
    obtain ⟨hempty, hlast, hne⟩ := lastOperand_iff.mpr ⟨h.operands, h.file⟩
    refine ⟨⟨hempty, h.labels, h.expansions⟩, Wishes.ext ?_ ?_ ?_ ?_ ?_ ?_, hne⟩
    · rw [Wishes.file_foldl_add, hfile, hlast]
    · rw [Wishes.backend_foldl_add, h.backend]
    · rw [Wishes.caching_foldl_add, h.caching]
    · rw [Wishes.pointer?_foldl_add, h.pointer?]
    · rw [Wishes.compact_foldl_add, h.compact]
    · rw [Wishes.expansion_foldl_add, h.expansion]
  · rintro ⟨⟨hempty, hlabels, hexpansions⟩, rfl, hne⟩
    have hlast := Wishes.file_foldl_add defaults pieces
    rw [hfile] at hlast
    obtain ⟨hoperands, hfile⟩ := lastOperand_iff.mp ⟨hempty, hlast, hne⟩
    exact ⟨hoperands, hfile, hlabels, hexpansions, Wishes.backend_foldl_add ..,
      Wishes.pointer?_foldl_add .., Wishes.caching_foldl_add .., Wishes.compact_foldl_add ..,
      Wishes.expansion_foldl_add ..⟩

/-- **A command reads what its pieces tell.** -/
theorem Grammar.Follows.read_iff {α : Type} {grammar : Grammar α} {wishes : α → Wishes}
    (h : grammar.Follows wishes) (hinjective : Function.Injective wishes) {start command : α}
    (hfile : (wishes start).file = "") (hexpansion : (wishes start).expansion = .written)
    {arguments : List String} :
    grammar.read arguments start = .ok command ∧ (wishes command).file ≠ "" ↔
      ∃ pieces, Spells grammar.vocabulary arguments pieces ∧
        Told (wishes start) pieces (wishes command) := by
  have htake (pieces : List Piece) : grammar.takeAll? start pieces = some command ↔
      ∃ b, grammar.takeAll? start pieces = some b ∧ wishes b = wishes command := by
    constructor
    · intro htake
      exact ⟨command, htake, rfl⟩
    · rintro ⟨b, htake, hb⟩
      rw [htake, hinjective hb]
  rw [read_eq_ok_iff]
  constructor
  · rintro ⟨⟨pieces, hwords, htaken⟩, hne⟩
    obtain ⟨hknown, hadmits, heq⟩ := h.takeAll?_iff.mp ((htake pieces).mp htaken)
    exact ⟨pieces, ⟨hwords, hknown⟩, (told_iff hfile hexpansion).mpr ⟨hadmits, heq, hne⟩⟩
  · rintro ⟨pieces, ⟨hwords, hknown⟩, htold⟩
    obtain ⟨hadmits, heq, hne⟩ := (told_iff hfile hexpansion).mp htold
    exact ⟨⟨pieces, hwords, (htake pieces).mpr (h.takeAll?_iff.mpr ⟨hknown, hadmits, heq⟩)⟩, hne⟩

/-- A command that hands on what it has read if there is a file in it accepts the arguments whose
pieces tell it. -/
theorem Grammar.Follows.answer_iff {α : Type} {grammar : Grammar α} {wishes : α → Wishes}
    (h : grammar.Follows wishes) (hinjective : Function.Injective wishes) (start : α)
    {command : α} (hfile : (wishes start).file = "")
    (hexpansion : (wishes start).expansion = .written) {arguments : List String}
    {answer : Except UsageFault α}
    (hok : ∀ found, grammar.read arguments start = .ok found →
      answer = if (wishes found).file = "" then .error .missingFile else .ok found)
    (herror : ∀ fault, grammar.read arguments start = .error fault → answer = .error fault) :
    answer = .ok command ↔
      ∃ pieces, Spells grammar.vocabulary arguments pieces ∧
        Told (wishes start) pieces (wishes command) := by
  rw [← h.read_iff hinjective hfile hexpansion]
  cases hread : grammar.read arguments start with
  | error fault => simp [herror fault hread]
  | ok found =>
      rw [hok found hread]
      split
      · next hempty =>
          refine iff_of_false (by simp) ?_
          rintro ⟨hfound, hne⟩
          exact hne (Except.ok.inj hfound ▸ hempty)
      · next hnamed =>
          constructor
          · intro hfound
            exact ⟨hfound, Except.ok.inj hfound ▸ hnamed⟩
          · exact And.left

/-- The options of `compose`. -/
def ComposeCommand.vocabulary : Vocabulary where
  bare := ["--cache", "--compact"]
  valued := ["--wrapper", "--pointer"]

/-- The options of `resolve`. -/
def ResolveCommand.vocabulary : Vocabulary where
  bare := ["--cache", "--compact"]
  valued := ["--wrapper"]

/-- The options of `leaves`. -/
def LeavesCommand.vocabulary : Vocabulary where
  bare := ["--compose", "--resolve"]
  valued := []

theorem ComposeCommand.ofArguments_eq_ok_iff {arguments : List String} {command : ComposeCommand} :
    ofArguments arguments = .ok command ↔
      ∃ pieces, Spells vocabulary arguments pieces ∧
        Told { backend := .indexed } pieces command.wishes := by
  have hinjective : Function.Injective wishes := by
    rintro ⟨⟩ ⟨⟩ h
    simpa [wishes] using h
  refine follows.answer_iff hinjective {} rfl rfl (fun found h => ?_) fun fault h => ?_
  · rw [ofArguments, h]
    rfl
  · rw [ofArguments, h]

theorem ResolveCommand.ofArguments_eq_ok_iff {arguments : List String} {command : ResolveCommand} :
    ofArguments arguments = .ok command ↔
      ∃ pieces, Spells vocabulary arguments pieces ∧
        Told { backend := .direct } pieces command.wishes := by
  have hinjective : Function.Injective wishes := by
    rintro ⟨⟩ ⟨⟩ h
    simpa [wishes] using h
  refine follows.answer_iff hinjective {} rfl rfl (fun found h => ?_) fun fault h => ?_
  · rw [ofArguments, h]
    rfl
  · rw [ofArguments, h]

theorem LeavesCommand.ofArguments_eq_ok_iff {arguments : List String} {command : LeavesCommand} :
    ofArguments arguments = .ok command ↔
      ∃ pieces, Spells vocabulary arguments pieces ∧ Told {} pieces command.wishes := by
  have hinjective : Function.Injective wishes := by
    rintro ⟨⟩ ⟨⟩ h
    simpa [wishes] using h
  refine follows.answer_iff hinjective {} rfl rfl (fun found h => ?_) fun fault h => ?_
  · rw [ofArguments, h]
    rfl
  · rw [ofArguments, h]

theorem map_eq_ok_iff {α β : Type} {x : Except UsageFault α} {f : α → β} {b : β} :
    x.map f = .ok b ↔ ∃ a, b = f a ∧ x = .ok a := by
  cases x <;> simp [Except.map, eq_comm]

/-- **A command accepts exactly the arguments that are cut into its pieces and name one file.**

Whatever follows the word `compose`, `resolve` or `leaves`, it is accepted if it can be cut into
options of that command, options with the argument behind each as its value, and operands that do
not look like options, such that every store has its label, not both ways to expand are asked for,
and the last operand is the only one that is not empty.  The file is that operand wherever it
stands, and every option has the value that was given last.  There is one way at most to cut
arguments up. -/
theorem arguments_accepted (arguments : List String) :
    (∀ command, Command.ofArguments ("compose" :: arguments) = .ok command ↔
      ∃ asked pieces, command = .compose asked ∧
        Spells ComposeCommand.vocabulary arguments pieces ∧
        Told { backend := .indexed } pieces asked.wishes) ∧
    (∀ command, Command.ofArguments ("resolve" :: arguments) = .ok command ↔
      ∃ asked pieces, command = .resolve asked ∧
        Spells ResolveCommand.vocabulary arguments pieces ∧
        Told { backend := .direct } pieces asked.wishes) ∧
    (∀ command, Command.ofArguments ("leaves" :: arguments) = .ok command ↔
      ∃ asked pieces, command = .leaves asked ∧
        Spells LeavesCommand.vocabulary arguments pieces ∧ Told {} pieces asked.wishes) ∧
    ∀ vocabulary ∈ [ComposeCommand.vocabulary, ResolveCommand.vocabulary, LeavesCommand.vocabulary],
      ∀ pieces pieces', Spells vocabulary arguments pieces → Spells vocabulary arguments pieces' →
        pieces = pieces' := by
  refine ⟨fun command => ?_, fun command => ?_, fun command => ?_, fun vocabulary hmem => ?_⟩
  · simp only [exists_and_left, ← ComposeCommand.ofArguments_eq_ok_iff]
    exact map_eq_ok_iff
  · simp only [exists_and_left, ← ResolveCommand.ofArguments_eq_ok_iff]
    exact map_eq_ok_iff
  · simp only [exists_and_left, ← LeavesCommand.ofArguments_eq_ok_iff]
    exact map_eq_ok_iff
  · have hproper : vocabulary.Proper := by
      simp only [List.mem_cons, List.not_mem_nil, or_false] at hmem
      rcases hmem with rfl | rfl | rfl
      · exact ComposeCommand.follows.vocabulary
      · exact ResolveCommand.follows.vocabulary
      · exact LeavesCommand.follows.vocabulary
    exact fun pieces pieces' => Spells.unique hproper

/-- A value may look like an option, and the last label counts. -/
theorem arguments_accepted_with_odd_values :
    Command.ofArguments ["compose", "--wrapper", "direct", "a.json", "--pointer", "--cache",
        "--wrapper", "Fast"] =
      .ok (.compose { file := "a.json", backend := .indexed, pointer? := some "--cache" }) := by
  refine ((arguments_accepted _).1 _).mpr ⟨_, [.valued "--wrapper" "direct", .operand "a.json",
    .valued "--pointer" "--cache", .valued "--wrapper" "Fast"], rfl, ⟨rfl, by decide⟩, ?_⟩
  exact ⟨⟨[], by simp, rfl⟩, by decide, by decide +kernel, by decide, by decide +kernel, rfl, rfl,
    rfl, rfl⟩

/-- **An empty operand is passed over**: two operands are accepted if the first is empty. -/
theorem empty_operand_passed_over :
    Command.ofArguments ["compose", "", "a.json"] = .ok (.compose { file := "a.json" }) ∧
      ∀ pieces, Spells ComposeCommand.vocabulary ["", "a.json"] pieces →
        pieces.filterMap Piece.operand? = ["", "a.json"] := by
  refine ⟨by decide, fun pieces h => ?_⟩
  have hspells : Spells ComposeCommand.vocabulary ["", "a.json"]
      [.operand "", .operand "a.json"] := ⟨rfl, by decide⟩
  rw [h.unique ComposeCommand.follows.vocabulary hspells]
  rfl

end Docweave.CommandLine
