import RowAwk.Command.Arguments
import RowAwk.Command.LogFilter

/-!
Outcomes: what a run of the program prints and the code it exits with.

The code is 0 if the program prints what it was asked for, 1 if the command fails and 2 if the
arguments are wrong. Only the text that was asked for goes to the standard output.
-/

namespace RowAwk.Command

structure Outcome where
  exit : Nat
  stdout : String
  stderr : String
deriving DecidableEq, Repr

/-- The name and the version of the program. -/
def versionText : String := "tabkit 0.1.0\n"

/-- How the program is used. -/
def helpText : String :=
  "\n".intercalate [
    "Compile expressions over tab-separated streams into awk programs",
    "",
    "Usage: tabkit [--log-filters <FILTERS>] <COMMAND>",
    "",
    "Commands:",
    "  map    Filter rows and compute new fields from each row",
    "  group  Aggregate groups of adjacent rows sharing a key",
    "  help   Print this message",
    "",
    "Input, one of:",
    "  --header <LINE>    Header line describing the input",
    "  --input <FILE>     File that starts with the header line",
    "",
    "Options of map:",
    "  --filter <EXPR>    Condition on the rows to output, may be repeated",
    "  --map <EXPR>       Statements computing the output fields, may be repeated",
    "",
    "Options of group:",
    "  --key <EXPR>       Statements computing the grouping key",
    "  --grp <EXPR>       Statements over aggregates of a group, may be repeated",
    "  --acc <EXPR>       Statements over aggregates of the whole input, may be repeated",
    "  --output-all-keys  Output every key",
    "  --expose-groups    Print the running aggregates after every row",
    "",
    "Output:",
    "  --pretty <INDENT>  Print the program over several lines",
    "  --print-header     Print the header of the output before the program",
    "  --command-line     Print a shell command running the program",
    "  --awk <AWK>        The awk executable used by the command line",
    "",
    "  -h, --help         Print help",
    "  -V, --version      Print version",
    ""]

/-- An option as it is written. -/
def Opt.text (o : Opt) : String := "--" ++ o.name

namespace Usage

/-- What is wrong with the arguments. -/
def message : Usage → String
  | .help | .noArguments => helpText
  | .version => versionText
  | .missingCommand => "error: a command is required"
  | .unknownCommand word => "error: unrecognized command '" ++ word ++ "'"
  | .unknownArgument argument => "error: unexpected argument '" ++ argument ++ "'"
  | .missingValue o => "error: a value is required for '" ++ o.text ++ "'"
  | .invalidValue o value =>
    "error: invalid value '" ++ value ++ "' for '" ++ o.text ++ "'"
  | .unwantedValue o => "error: '" ++ o.text ++ "' takes no value"
  | .conflict o other =>
    if o = other then "error: '" ++ o.text ++ "' cannot be used more than once"
    else "error: '" ++ o.text ++ "' cannot be used with '" ++ other.text ++ "'"
  | .missingSource => "error: one of '--header' and '--input' is required"

/-- The outcome of arguments that give nothing to run. -/
def outcome : Usage → Outcome
  | .help => ⟨0, helpText, ""⟩
  | .version => ⟨0, versionText, ""⟩
  | fault => ⟨2, "", fault.message ++ "\n"⟩

end Usage

namespace CommandError

/-- The messages of the errors under this one, outermost first. -/
def causes : CommandError → List String
  | .missingInput | .unreadable _ => []
  | .invalidHeader _ cause => [cause.message]
  | .compilation failure =>
    failure.error.message :: match failure.error with
      | .misuse (.unreadable _ cause) => [cause.message]
      | .invalidSchema cause => [cause.message]
      | _ => []

/-- All that is known about an error, a line each. -/
def report (e : CommandError) : String :=
  "\n".intercalate (("error: " ++ e.message) :: (e.causes ++ e.notes).map ("  " ++ ·)) ++ "\n"

end CommandError

namespace Invocation

/-- The log filter in force: that of the arguments, else that of the environment. -/
def logFilter (i : Invocation) (environment : Option String) : String :=
  (i.logFilters.or environment).getD LogFilter.standard

/-- The outcome of running what was asked for. -/
def outcome (files : Files) (environment : Option String) (i : Invocation) : Outcome :=
  if LogFilter.isValid (i.logFilter environment) then
    match run files i.source i.task i.rendering with
    | .ok text => ⟨0, text, ""⟩
    | .error e => ⟨1, "", e.report⟩
  else ⟨1, "", "error: invalid log filter '" ++ i.logFilter environment ++ "'\n"⟩

end Invocation

/-- The outcome of a run with some arguments, where `environment` is the log filter that the
    environment sets. -/
def outcome (files : Files) (environment : Option String) (args : List String) : Outcome :=
  match Invocation.read args with
  | .ok i => i.outcome files environment
  | .error usage => usage.outcome

end RowAwk.Command
