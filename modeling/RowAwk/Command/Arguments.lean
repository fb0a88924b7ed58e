import RowAwk.Command.Basic

/-!
The arguments of the program.

    tabkit [--log-filters FILTERS] map    --header LINE | --input FILE  [options]
    tabkit [--log-filters FILTERS] group  --header LINE | --input FILE  [options]

A value follows its option as the next argument or after an equals sign. An argument that starts
with a dash is an option, so a value that does so needs the equals sign. An option is taken in when
the next one starts or the arguments end: only then is a missing, repeated or invalid value found,
and a word or an option that is out of place is found before.
-/

namespace RowAwk.Command

open Awk (Category)

inductive Opt where
  | header | input | filter | map | key | grp | acc | outputAllKeys | exposeGroups
  | pretty | printHeader | commandLine | awk | logFilters | help | version
deriving DecidableEq, Repr

namespace Opt

/-- The name that follows the two dashes. -/
def name : Opt → String
  | .header => "header"
  | .input => "input"
  | .filter => "filter"
  | .map => "map"
  | .key => "key"
  | .grp => "grp"
  | .acc => "acc"
  | .outputAllKeys => "output-all-keys"
  | .exposeGroups => "expose-groups"
  | .pretty => "pretty"
  | .printHeader => "print-header"
  | .commandLine => "command-line"
  | .awk => "awk"
  | .logFilters => "log-filters"
  | .help => "help"
  | .version => "version"

/-- The letter that names the option after one dash. -/
def letter? : Opt → Option Char
  | .help => some 'h'
  | .version => some 'V'
  | _ => none

def takesValue : Opt → Bool
  | .outputAllKeys | .exposeGroups | .printHeader | .commandLine | .help | .version => false
  | _ => true

/-- Whether the option may be given more than once. -/
def repeats : Opt → Bool
  | .filter | .map | .grp | .acc => true
  | _ => false

/-- The options that come before the command. -/
def general : List Opt := [.logFilters, .help, .version]

/-- The options of the command that works row by row. -/
def forMap : List Opt :=
  [.header, .input, .filter, .map, .pretty, .printHeader, .commandLine, .awk, .help]

/-- The options of the command that works on groups of rows. -/
def forGroup : List Opt :=
  [.header, .input, .key, .grp, .acc, .outputAllKeys, .exposeGroups, .pretty, .printHeader,
    .commandLine, .awk, .help]

end Opt

/-- Why arguments give nothing to run: they ask for something else, or they are wrong. -/
inductive Usage where
  | help
  | version
  | noArguments
  | missingCommand
  | unknownCommand (word : String)
  | unknownArgument (argument : String)
  | missingValue (option : Opt)
  | invalidValue (option : Opt) (value : String)
  | unwantedValue (option : Opt)
  | conflict (option other : Opt)
  | missingSource
deriving DecidableEq, Repr

/-! ### Options -/

/-- The options taken in, in order, with their values. -/
abbrev Given := List (Opt × String)

namespace Given

def has (g : Given) (o : Opt) : Bool := g.any fun (p, _) => p == o

def values (g : Given) (o : Opt) : List String := (g.filter fun (p, _) => p == o).map Prod.snd

def value? (g : Given) (o : Opt) : Option String := (g.values o).head?

/-- What is wrong with the value of an option. The path of a file is never empty. -/
def valueFault? (o : Opt) (value : String) : Option Usage :=
  match o with
  | .pretty =>
    if (Number.word64OfDigits? value.toList).isSome then none else some (.invalidValue o value)
  | .input => if value.isEmpty then some (.missingValue o) else none
  | _ => none

/-- Takes in an option. -/
def add (g : Given) (o : Opt) (value : String) : Except Usage Given :=
  if !o.repeats && g.has o then .error (.conflict o o)
  else match valueFault? o value with
    | some fault => .error fault
    | none => .ok (g ++ [(o, value)])

end Given

/-- The options taken in, and the one that has not been yet, with its value if that has come. -/
structure Scan where
  given : Given
  last : Option (Opt × Option String)

namespace Scan

def start : Scan := ⟨[], none⟩

/-- Takes in the last option. -/
def settle (s : Scan) : Except Usage Given :=
  match s.last with
  | none => .ok s.given
  | some (o, none) => .error (.missingValue o)
  | some (o, some value) => s.given.add o value

/-- Goes on with a word, which has to be the value of the last option. -/
def word? (s : Scan) (word : String) : Option Scan :=
  match s.last with
  | some (o, none) => some ⟨s.given, some (o, some word)⟩
  | _ => none

/-- Goes on with an option that takes no value. -/
def flag (s : Scan) (o : Opt) : Except Usage Scan := do
  let given ← s.settle
  match o with
  | .help => throw .help
  | .version => throw .version
  | o => return ⟨← given.add o "", none⟩

/-- Goes on with an option, and the value attached to it if there is one. -/
def option (s : Scan) (o : Opt) (value : Option String) : Except Usage Scan :=
  if o.takesValue then do
    let given ← s.settle
    match value with
    | some v => return ⟨← given.add o v, none⟩
    | none => return ⟨given, some (o, none)⟩
  else if value.isSome then .error (.unwantedValue o)
  else s.flag o

end Scan

/-- Whether an argument is an option. A dash alone is a word. -/
def isOption (argument : String) : Bool :=
  match argument.toList with
  | '-' :: _ :: _ => true
  | _ => false

/-- The option that an argument names, one of some, and the value attached to it. -/
def readOption? (options : List Opt) (argument : String) : Option (Opt × Option String) :=
  match argument.toList with
  | '-' :: '-' :: cs =>
    let (name, value) := match Text.cutAt? (· == '=') cs with
      | some (name, value) => (name, some (String.ofList value))
      | none => (cs, none)
    (options.find? fun o => o.name.toList == name).map fun o => (o, value)
  | '-' :: c :: _ => (options.find? fun o => o.letter? == some c).map fun o => (o, none)
  | _ => none

/-- Goes on with an option of a command. -/
def Scan.argument (options : List Opt) (s : Scan) (argument : String) : Except Usage Scan :=
  match readOption? options argument with
  | some (o, value) => s.option o value
  | none => .error (.unknownArgument argument)

/-- The options that some arguments give. Nothing may come after two dashes. -/
def readOptions (options : List Opt) (s : Scan) : List String → Except Usage Given
  | [] => s.settle
  | a :: rest =>
    if a = "--" then
      match rest with
      | [] => s.settle
      | b :: _ => .error (.unknownArgument b)
    else if isOption a then do readOptions options (← s.argument options a) rest
    else match s.word? a with
      | some s => readOptions options s rest
      | none => .error (.unknownArgument a)

/-! ### Invocations -/

/-- What the arguments ask for. -/
structure Invocation where
  logFilters : Option String
  source : Source
  task : Task
  rendering : Rendering
deriving DecidableEq, Repr

namespace Given

/-- Where the input is described. Options that exclude each other are found first. -/
def source (g : Given) : Except Usage Source :=
  if g.has .header && g.has .input then .error (.conflict .header .input)
  else if g.has .pretty && g.has .commandLine then .error (.conflict .commandLine .pretty)
  else match g.value? .header, g.value? .input with
    | some line, _ => .ok (.header line)
    | none, some path => .ok (.file path)
    | none, none => .error .missingSource

def rendering (g : Given) : Rendering where
  pretty := (g.value? .pretty).bind fun text => Number.word64OfDigits? text.toList
  printHeader := g.has .printHeader
  commandLine := g.has .commandLine
  awk := (g.value? .awk).getD "awk"

/-- The statements about groups and about the stream, in the order in which they are given. -/
def aggregates (g : Given) : List (Category × String) :=
  g.filterMap fun
    | (.grp, source) => some (.group, source)
    | (.acc, source) => some (.stream, source)
    | _ => none

def mapTask (g : Given) : Task := .map (g.values .filter) (g.values .map)

def groupTask (g : Given) : Task :=
  .group (g.value? .key) g.aggregates ⟨g.has .outputAllKeys, g.has .exposeGroups⟩

end Given

/-- The commands; the last one shows how the others are used. -/
def commandNames : List String := ["map", "group", "help"]

/-- Reads the arguments after a command, given the options before it. -/
def readCommand (before : Scan) (options : List Opt) (task : Given → Task) (args : List String) :
    Except Usage Invocation := do
  let given ← readOptions options .start args
  let source ← given.source
  let general ← before.settle
  return ⟨general.value? .logFilters, source, task given, given.rendering⟩

/-- Reads the arguments after the command for help. -/
def readHelp : List String → Usage
  | [] => .help
  | [word] => if commandNames.contains word then .help else .unknownCommand word
  | word :: other :: _ =>
    if commandNames.contains word then .unknownCommand other else .unknownCommand word

/-- What is wrong if the arguments end without a command. -/
def withoutCommand (s : Scan) : Usage :=
  match s.settle with
  | .error fault => fault
  | .ok [] => .noArguments
  | .ok _ => .missingCommand

/-- Reads arguments from the start, given the options before. -/
def readArguments (s : Scan) : List String → Except Usage Invocation
  | [] => .error (withoutCommand s)
  | a :: rest =>
    if a = "--" then
      match rest with
      | [] => .error (withoutCommand s)
      | b :: _ =>
        .error (if commandNames.contains b then .unknownArgument b else .unknownCommand b)
    else if isOption a then do readArguments (← s.argument Opt.general a) rest
    else match s.word? a with
      | some s => readArguments s rest
      | none =>
        if a = "map" then readCommand s Opt.forMap Given.mapTask rest
        else if a = "group" then readCommand s Opt.forGroup Given.groupTask rest
        else if a = "help" then .error (readHelp rest)
        else .error (.unknownCommand a)

/-- What some arguments ask for. -/
def Invocation.read (args : List String) : Except Usage Invocation := readArguments .start args

end RowAwk.Command
