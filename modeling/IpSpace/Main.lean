import IpSpace.CommandLine.Run

/-!
# The command

Reads the range list from the file named on the command line, or from standard input, and prints the
report. Usage errors and failed runs go to standard error.
-/

namespace IpSpace

/-- The help text. -/
def helpText : String := String.intercalate "\n" [
  "Merge, split and check lists of IP address ranges",
  "",
  "Usage: ipspace [OPTIONS] <MODE> [INPUT]",
  "",
  "Arguments:",
  "  <MODE>   merge, prefix, sequential, gaps or overlaps",
  "  [INPUT]  File with one address, prefix block or range per line; stdin when absent",
  "",
  "Options:",
  "  -w, --within <WITHIN>          Containing range for gaps, e.g. 10.0.0.0/16",
  "      --json                     Print JSON instead of CSV",
  "      --log-config <LOG_CONFIG>  Path to the logging configuration file",
  "  -h, --help                     Print help",
  "  -V, --version                  Print version"]

/-- What to say when the arguments do not lead to a run, and whether that is a failure. -/
def Usage.explain : Usage → String × Bool
  | .displayHelp => (helpText, false)
  | .displayVersion => ("ipspace 0.1.0", false)
  | .missingRequiredArgument => ("error: the mode is missing\n\n" ++ helpText, true)
  | .invalidValue => ("error: invalid or missing value\n\n" ++ helpText, true)
  | .unknownArgument => ("error: unexpected argument\n\n" ++ helpText, true)
  | .argumentConflict => ("error: an option is given twice\n\n" ++ helpText, true)
  | .tooManyValues => ("error: unexpected value for an option\n\n" ++ helpText, true)

/-- The bytes of the range list. -/
def readList (arguments : Arguments) : IO ByteArray := do
  match arguments.list with
  | some path => IO.FS.readBinFile path
  | none => (← IO.getStdin).readBinToEnd

end IpSpace

/-- Runs the command. -/
def main (arguments : List String) : IO UInt32 := do
  match IpSpace.Arguments.parse arguments with
  | .error usage =>
    let (text, failed) := usage.explain
    if failed then
      IO.eprintln text
      return 2
    else
      IO.println text
      return 0
  | .ok parsed =>
    match parsed.run false (← IpSpace.readList parsed) with
    | .ok output =>
      IO.print output
      return 0
    | .error e =>
      IO.eprintln s!"Error: {e.message}"
      return 1
