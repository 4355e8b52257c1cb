/-!
The help text and the version.
-/

namespace Docweave.CommandLine

/-- The lines of the help text. -/
def helpLines : List String := [
  "jsoncompose - Pointer-addressed JSON documents with directive composition",
  "",
  "USAGE:",
  "    jsoncompose compose <FILE> [OPTIONS]",
  "    jsoncompose resolve <FILE> [OPTIONS]",
  "    jsoncompose get <FILE> <POINTER> [OPTIONS]",
  "    jsoncompose leaves <FILE> [OPTIONS]",
  "",
  "COMMANDS:",
  "    compose   Expand structured directives (!ref, !xref, !file, !include, !gen, !match)",
  "    resolve   Expand string directives (\"!ref /a/b\", \"!file path\")",
  "    get       Print the value at a JSON pointer",
  "    leaves    List every scalar leaf with its pointer",
  "",
  "GLOBAL OPTIONS:",
  "    -h, --help                 Show this help message",
  "    -v, --version              Show version information",
  "",
  "COMPOSE OPTIONS:",
  "    --wrapper <KIND>          Document backend: indexed (default) or direct",
  "    --cache                   Cache file contents per path",
  "    --pointer <P>             Compose and print only the subtree at P",
  "    --compact                 Print JSON on a single line",
  "",
  "RESOLVE OPTIONS:",
  "    --wrapper <KIND>          Document backend: direct (default) or indexed",
  "    --cache                   Memoize resolved references and files",
  "    --compact                 Print JSON on a single line",
  "",
  "GET / LEAVES OPTIONS:",
  "    --compose                 Compose the file before reading",
  "    --resolve                 Resolve string directives before reading",
  "    --compact                 Print JSON on a single line (get only)",
  "",
  "EXIT CODES:",
  "    0 success, 2 usage error, 3 composition/resolution failure, 4 unreadable input",
  "",
  "EXAMPLES:",
  "    jsoncompose compose fixtures/booking.json --cache",
  "    jsoncompose get fixtures/booking.json /bookingdates/checkin --compose",
  "    RUST_LOG=debug jsoncompose resolve payload.json --compact"]

/-- The help text. -/
def helpText : String :=
  String.join (helpLines.map (· ++ "\n"))

/-- The name of the program and its version. -/
def versionText : String :=
  "jsoncompose 0.1.0\n"

end Docweave.CommandLine
