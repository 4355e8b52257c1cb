import Docweave.CommandLine.Command
import Docweave.CommandLine.Help
import Docweave.Composition
import Docweave.Listing

/-!
What a run of the program prints, and how it ends.

Everything that a run finds outside of its arguments is handed in: the files, the moment, and the
generators with what they draw from.  Locations in a file are seen from the directory of that
file.
-/

namespace Docweave.CommandLine

variable {σ : Type}

/-! ### Commands -/

/-- The content of a file, expanded. -/
def Expansion.load (setting : Setting) (generators : Generators σ) (world : σ) (file : String) :
    Expansion → Work Value
  | .written => Reader.load setting.files file
  | .composed =>
    composeFile setting generators world { base? := Location.directory? file } file
  | .resolved => resolveFile setting.files { base? := Location.directory? file } file

namespace ComposeCommand

/-- How the file is composed. -/
def options (command : ComposeCommand) : ComposeOptions :=
  { backend := command.backend, caching := command.caching,
    base? := Location.directory? command.file }

/-- The document or the node that is shown.  A pointer is read before the file is. -/
def result (setting : Setting) (generators : Generators σ) (world : σ)
    (command : ComposeCommand) : Work Value :=
  match command.pointer? with
  | none => composeFile setting generators world command.options command.file
  | some raw => do
    let pointer ← Pointer.ofText raw
    let content ← Reader.load setting.files command.file
    composeNode setting generators world command.options content pointer

end ComposeCommand

/-- The document that is shown. -/
def ResolveCommand.result (setting : Setting) (command : ResolveCommand) : Except Fault Value :=
  resolveFile setting.files
    { backend := command.backend, caching := command.caching,
      base? := Location.directory? command.file } command.file

/-- The node that is shown.  The pointer is read before the file is. -/
def GetCommand.result (setting : Setting) (generators : Generators σ) (world : σ)
    (command : GetCommand) : Work Value := do
  let pointer ← Pointer.ofText command.pointer
  let content ← command.expansion.load setting generators world command.file
  (Store.wrap .direct content).get pointer

/-- The leaves that are listed. -/
def LeavesCommand.result (setting : Setting) (generators : Generators σ) (world : σ)
    (command : LeavesCommand) : Work (List (Path × Value)) := do
  let content ← command.expansion.load setting generators world command.file
  pure (Store.wrap .direct content).leaves

/-- A value as it is printed, with the end of its line. -/
def valueText (compact : Bool) (v : Value) : String :=
  Listing.document compact v ++ "\n"

/-- The leaves as they are printed.  Without leaves nothing is, not even the end of a line. -/
def leavesText (leaves : List (Path × Value)) : String :=
  let listing := Listing.leaves leaves
  if listing = "" then "" else listing ++ "\n"

/-- What a command prints. -/
def Command.output (setting : Setting) (generators : Generators σ) (world : σ) :
    Command → Work String
  | .compose command => valueText command.compact <$> command.result setting generators world
  | .resolve command => (command.result setting).map (valueText command.compact)
  | .get command => valueText command.compact <$> command.result setting generators world
  | .leaves command => leavesText <$> command.result setting generators world

/-! ### Runs -/

/-- How a run ends. -/
inductive Status where
  | success
  /-- The arguments ask for nothing. -/
  | misuse
  /-- What was asked for cannot be done. -/
  | failure
  /-- A file cannot be read, or its content is no document. -/
  | unreadable
deriving DecidableEq

/-- The number for the way a run ends. -/
def Status.code : Status → Nat
  | .success => 0
  | .misuse => 2
  | .failure => 3
  | .unreadable => 4

/-- The way a run ends that meets a fault: what counts is the innermost one. -/
def Status.ofFault (fault : Fault) : Status :=
  match fault.rootCause with
  | .file _ _ | .content _ _ => .unreadable
  | _ => .failure

/-- What a run prints, and how it ends. -/
structure Report where
  status : Status
  output : String
  errors : String
deriving DecidableEq

namespace Report

/-- The report on arguments that ask for nothing. -/
def ofUsageFault (fault : UsageFault) : Report :=
  ⟨.misuse, "", "Error: " ++ fault.message ++ "\nUse --help for usage information\n"⟩

/-- The report on what was done. -/
def ofOutput : Except Fault String → Report
  | .ok output => ⟨.success, output, ""⟩
  | .error fault => ⟨Status.ofFault fault, "", fault.report ++ "\n"⟩

end Report

/-- What a run is asked for. -/
inductive Request where
  | help
  | version
  | command (asked : Command)

namespace Request

/-- Reads the arguments that follow the name of the program.  Without any the help is shown. -/
def ofArguments : List String → Except UsageFault Request
  | [] => .ok .help
  | word :: rest =>
    if word = "--help" || word = "-h" then .ok .help
    else if word = "--version" || word = "-v" then .ok .version
    else (Command.ofArguments (word :: rest)).map .command

/-- What a run prints that is asked for something. -/
def output (setting : Setting) (generators : Generators σ) (world : σ) :
    Request → Work String
  | .help => pure helpText
  | .version => pure versionText
  | .command asked => asked.output setting generators world

end Request

/-- A whole run, if it ends. -/
def run (setting : Setting) (generators : Generators σ) (world : σ) (arguments : List String) :
    Option Report :=
  match Request.ofArguments arguments with
  | .error fault => some (.ofUsageFault fault)
  | .ok request => (request.output setting generators world).run.map .ofOutput

end Docweave.CommandLine
