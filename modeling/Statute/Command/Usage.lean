import Statute.Command.Arguments

/-!
# Help texts

What is shown when a command line cannot be carried out: how commands are written, and what is wrong
with the one that was given.
-/

namespace Statute

namespace Command

/-- How commands are written. -/
def usage : String :=
  "Usage: jurist [OPTIONS] <COMMAND>\n\n" ++
  "Commands:\n" ++
  "  run <PROGRAM>                     Run a program's main statements\n" ++
  "  check [-v] <PROGRAM>              Compile every expression and report all errors\n" ++
  "  eval [-p <PROGRAM>] <EXPRESSION>  Evaluate a single expression\n" ++
  "  config                            Print the effective configuration\n" ++
  "  help [COMMAND]                    Print this message\n\n" ++
  "Options:\n" ++
  "      --config <CONFIG>             Path to config file\n" ++
  "      --max-workers <MAX_WORKERS>   Upper bound on background workers\n" ++
  "      --debug                       Show breakdowns of the host as they are\n" ++
  "  -h, --help                        Print help\n"

namespace UsageFault

/-- What is wrong with a command line. -/
def message : UsageFault → String
  | unknownArgument => "unexpected argument"
  | unknownCommand => "unrecognized subcommand"
  | missingCommand => "a subcommand is required"
  | missingOperand => "a required argument was not provided"
  | missingValue => "a value is required"
  | badValue => "invalid value"
  | surplusValue => "unexpected value"
  | repeated => "an argument cannot be used multiple times"
  | helpWanted => ""
  | nothingGiven => ""

/-- The exit code of a command line that is not carried out: asking for help is no failure. -/
def exitCode : UsageFault → UInt32
  | helpWanted => 0
  | _ => 2

/-- What is shown for a command line that is not carried out. -/
def display (f : UsageFault) : String :=
  match f with
  | helpWanted | nothingGiven => usage
  | _ => "error: " ++ f.message ++ "\n\n" ++ usage

end UsageFault

end Command

end Statute
