import Docweave.Store

/-!
What the command line asks for.

An argument that starts with two dashes is an option, unless it is the value of the option before
it; every other argument is an operand.  Arguments are read from left to right, and the first that
does not fit is the fault.  An option that is given again replaces what it said before.
-/

namespace Docweave.CommandLine

/-- What becomes of a file before it is shown. -/
inductive Expansion where
  /-- It is shown as it is written. -/
  | written
  /-- Its directives are composed. -/
  | composed
  /-- Its directive texts are resolved. -/
  | resolved
deriving DecidableEq

/-- Shows a file with its directives composed, or one node of it. -/
structure ComposeCommand where
  file : String := ""
  backend : Backend := .indexed
  caching : Bool := false
  pointer? : Option String := none
  compact : Bool := false
deriving DecidableEq

/-- Shows a file with its directive texts resolved. -/
structure ResolveCommand where
  file : String := ""
  backend : Backend := .direct
  caching : Bool := false
  compact : Bool := false
deriving DecidableEq

/-- Shows one node of a file. -/
structure GetCommand where
  file : String
  pointer : String
  expansion : Expansion
  compact : Bool
deriving DecidableEq

/-- Lists the leaves of a file. -/
structure LeavesCommand where
  file : String := ""
  expansion : Expansion := .written
deriving DecidableEq

/-- What is to be done. -/
inductive Command where
  | compose (command : ComposeCommand)
  | resolve (command : ResolveCommand)
  | get (command : GetCommand)
  | leaves (command : LeavesCommand)
deriving DecidableEq

/-- Why arguments ask for nothing. -/
inductive UsageFault where
  | noCommand
  | unknownCommand (word : String)
  | missingValue (option : String)
  | unknownBackend (label : String)
  | unknownOption (argument : String)
  | unexpectedArgument (argument : String)
  | missingFile
  | missingFileOrPointer
  | twoExpansions
deriving DecidableEq

/-- The wording of a fault in the arguments. -/
def UsageFault.message : UsageFault → String
  | .noCommand => "No command specified"
  | .unknownCommand word => "Unknown command: " ++ word
  | .missingValue option => option ++ " requires a value"
  | .unknownBackend label => Backend.unknown label ++ " (use direct or indexed)"
  | .unknownOption argument => "Unknown option: " ++ argument
  | .unexpectedArgument argument => "Unexpected argument: " ++ argument
  | .missingFile => "Missing required argument: FILE"
  | .missingFileOrPointer => "Missing required arguments: FILE POINTER"
  | .twoExpansions => "--compose and --resolve are mutually exclusive"

/-! ### Reading arguments -/

/-- What an option does to what is known of a command. -/
inductive OptionRule (α : Type) where
  /-- The option stands alone. -/
  | bare (act : α → Except UsageFault α)
  /-- The argument after the option is its value, whatever it looks like. -/
  | valued (act : String → α → Except UsageFault α)

/-- The options of a command, and what an operand does to what is known of it. -/
structure Grammar (α : Type) where
  options : List (String × OptionRule α)
  operand : String → α → Except UsageFault α

/-- Whether an argument looks like an option. -/
def isOption (argument : String) : Bool :=
  ['-', '-'].isPrefixOf argument.toList

/-- Reads arguments from left to right. -/
def Grammar.read {α : Type} (grammar : Grammar α) : List String → α → Except UsageFault α
  | [], a => .ok a
  | argument :: rest, a =>
    match grammar.options.lookup argument with
    | some (.bare act) =>
      match act a with
      | .ok a => grammar.read rest a
      | .error fault => .error fault
    | some (.valued act) =>
      match rest with
      | [] => .error (.missingValue argument)
      | value :: rest =>
        match act value a with
        | .ok a => grammar.read rest a
        | .error fault => .error fault
    | none =>
      if isOption argument then .error (.unknownOption argument)
      else match grammar.operand argument a with
        | .ok a => grammar.read rest a
        | .error fault => .error fault

/-- Takes an operand for the file.  An empty one counts for nothing. -/
def takeFile (file argument : String) : Except UsageFault String :=
  if file = "" then .ok argument else .error (.unexpectedArgument argument)

/-- The store that an option names. -/
def takeBackend (label : String) : Except UsageFault Backend :=
  match Backend.ofLabel? label with
  | some backend => .ok backend
  | none => .error (.unknownBackend label)

/-- Takes a way to expand; the same one may be asked for again. -/
def takeExpansion (before requested : Expansion) : Except UsageFault Expansion :=
  if before ≠ .written ∧ before ≠ requested then .error .twoExpansions else .ok requested

/-! ### The commands -/

namespace ComposeCommand

/-- The options of `compose`. -/
def grammar : Grammar ComposeCommand where
  options := [
    ("--wrapper", .valued fun label command =>
      (takeBackend label).map fun backend => { command with backend }),
    ("--pointer", .valued fun raw command => .ok { command with pointer? := some raw }),
    ("--cache", .bare fun command => .ok { command with caching := true }),
    ("--compact", .bare fun command => .ok { command with compact := true })]
  operand argument command :=
    (takeFile command.file argument).map fun file => { command with file }

/-- Reads what follows `compose`. -/
def ofArguments (arguments : List String) : Except UsageFault ComposeCommand :=
  match grammar.read arguments {} with
  | .ok command => if command.file = "" then .error .missingFile else .ok command
  | .error fault => .error fault

end ComposeCommand

namespace ResolveCommand

/-- The options of `resolve`. -/
def grammar : Grammar ResolveCommand where
  options := [
    ("--wrapper", .valued fun label command =>
      (takeBackend label).map fun backend => { command with backend }),
    ("--cache", .bare fun command => .ok { command with caching := true }),
    ("--compact", .bare fun command => .ok { command with compact := true })]
  operand argument command :=
    (takeFile command.file argument).map fun file => { command with file }

/-- Reads what follows `resolve`. -/
def ofArguments (arguments : List String) : Except UsageFault ResolveCommand :=
  match grammar.read arguments {} with
  | .ok command => if command.file = "" then .error .missingFile else .ok command
  | .error fault => .error fault

end ResolveCommand

namespace GetCommand

/-- What is known of a command while its arguments are read. -/
structure Draft where
  operands : List String := []
  expansion : Expansion := .written
  compact : Bool := false

/-- The options of `get`. -/
def grammar : Grammar Draft where
  options := [
    ("--compose", .bare fun draft =>
      (takeExpansion draft.expansion .composed).map fun expansion => { draft with expansion }),
    ("--resolve", .bare fun draft =>
      (takeExpansion draft.expansion .resolved).map fun expansion => { draft with expansion }),
    ("--compact", .bare fun draft => .ok { draft with compact := true })]
  operand argument draft := .ok { draft with operands := draft.operands ++ [argument] }

/-- The command, once all arguments are read.  Both operands may be empty. -/
def ofDraft (draft : Draft) : Except UsageFault GetCommand :=
  match draft.operands with
  | [] | [_] => .error .missingFileOrPointer
  | [file, pointer] => .ok ⟨file, pointer, draft.expansion, draft.compact⟩
  | _ :: _ :: argument :: _ => .error (.unexpectedArgument argument)

/-- Reads what follows `get`. -/
def ofArguments (arguments : List String) : Except UsageFault GetCommand :=
  match grammar.read arguments {} with
  | .ok draft => ofDraft draft
  | .error fault => .error fault

end GetCommand

namespace LeavesCommand

/-- The options of `leaves`. -/
def grammar : Grammar LeavesCommand where
  options := [
    ("--compose", .bare fun command =>
      (takeExpansion command.expansion .composed).map fun expansion =>
        { command with expansion }),
    ("--resolve", .bare fun command =>
      (takeExpansion command.expansion .resolved).map fun expansion =>
        { command with expansion })]
  operand argument command :=
    (takeFile command.file argument).map fun file => { command with file }

/-- Reads what follows `leaves`. -/
def ofArguments (arguments : List String) : Except UsageFault LeavesCommand :=
  match grammar.read arguments {} with
  | .ok command => if command.file = "" then .error .missingFile else .ok command
  | .error fault => .error fault

end LeavesCommand

/-- Reads the arguments that follow the name of the program. -/
def Command.ofArguments : List String → Except UsageFault Command
  | [] => .error .noCommand
  | word :: rest =>
    if word = "compose" then (ComposeCommand.ofArguments rest).map .compose
    else if word = "resolve" then (ResolveCommand.ofArguments rest).map .resolve
    else if word = "get" then (GetCommand.ofArguments rest).map .get
    else if word = "leaves" then (LeavesCommand.ofArguments rest).map .leaves
    else .error (.unknownCommand word)

end Docweave.CommandLine
