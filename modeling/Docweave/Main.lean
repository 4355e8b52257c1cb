import Docweave.CommandLine
import Docweave.Generator.Builtin
import Docweave.Supply
import Std.Time.DateTime.Timestamp

/-!
The program.

A run needs files that only the run itself can name.  So it is made with the files that are known;
if it meets one that is not, that file is read and the run is made again.
-/

namespace Docweave.Main

open CommandLine

/-- What is known of the files. -/
abbrev Known := List (String × Except FileFault String)

/-- The files that are known; every other one counts as not read yet. -/
def filesOf (known : Known) : Files where
  read := fun location => (known.lookup location).getD (.error .unread)
  readable := known.map Prod.fst
  mem_readable := fun {raw} _ h => by
    cases hlookup : known.lookup (Location.normalText raw) with
    | none => simp [hlookup] at h
    | some found =>
      obtain ⟨before, after, rfl, -⟩ := List.lookup_eq_some_iff.mp hlookup
      simp

/-- The location of the file that was not read yet, if that is the fault. -/
def unread? (fault : Fault) : Option String :=
  match fault.rootCause with
  | .file location .unread => some location
  | _ => none

/-- The reason that a file cannot be read. -/
def faultOf : IO.Error → FileFault
  | .noFileOrDirectory _ _ _ => .missing
  | .inappropriateType _ code _ => if code = 21 then .directory else .notDirectory
  | error => .other (toString error)

/-- The text of the file at a location. -/
def readText (location : String) : IO (Except FileFault String) := do
  if location.toList.contains '\x00' then return .error .badName
  try
    match String.fromUTF8? (← IO.FS.readBinFile location) with
    | some text => return .ok text
    | none => return .error .notText
  catch error => return .error (faultOf error)

/-- Makes a run again and again until all files that it needs are known.  A run that never ends has
no output to wait for. -/
partial def outputOf (request : Request) (now : Moment) (supply : Supply) (known : Known) :
    IO (Except Fault String) := do
  let output := request.output ⟨filesOf known, now⟩ (Generators.standard Supply.next) supply
  match output with
  | none => return .error .exhausted
  | some (.ok text) => return .ok text
  | some (.error fault) =>
    match unread? fault with
    | none => return .error fault
    | some location => outputOf request now supply ((location, ← readText location) :: known)

/-- The moment that the clock shows. -/
def clock : IO Moment := do
  let time ← Std.Time.Timestamp.now
  let seconds := time.toSecondsSinceUnixEpoch.val
  return ⟨seconds / Moment.secondsPerDay, (seconds % Moment.secondsPerDay).toNat,
    time.val.nano.val.toNat⟩

/-- A supply of numbers that nobody can foretell. -/
def freshSupply : IO Supply := do
  let bytes ← IO.getRandomBytes 8
  return ⟨bytes.foldl (fun state byte => state * 256 + byte.toUInt64) 0⟩

end Docweave.Main

open Docweave CommandLine in
/-- Runs the program: prints its report and ends with its code. -/
def main (arguments : List String) : IO UInt32 := do
  let report ← match Request.ofArguments arguments with
    | .error fault => pure (Report.ofUsageFault fault)
    | .ok request =>
      pure (Report.ofOutput (← Main.outputOf request (← Main.clock) (← Main.freshSupply) []))
  (← IO.getStdout).putStr report.output
  (← IO.getStderr).putStr report.errors
  return UInt32.ofNat report.status.code
