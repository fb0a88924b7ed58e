import RowAwk.Compile.GroupProgram
import RowAwk.Compile.RowProgram
import RowAwk.Schema.Header

/-!
Commands: from a description of the input and some statements to the text that is printed.

The description is a header line, given as such or as the first line of a file. Files are a
function from paths to their bytes, so running a command is a function too.
-/

namespace RowAwk.Command

open Awk (Category Layout)
open Compile (Compiled Failure)
open Schema (SchemaError)

/-- The bytes of the files that can be read. -/
abbrev Files := String → Option (List UInt8)

/-- Where the header of the input comes from. -/
inductive Source where
  | header (line : String)
  | file (path : String)
deriving DecidableEq, Repr

/-- Why a command fails. -/
inductive CommandError where
  | missingInput
  | unreadable (path : String)
  | invalidHeader (header : String) (cause : SchemaError)
  | compilation (failure : Failure)
deriving DecidableEq, Repr

namespace CommandError

def message : CommandError → String
  | .missingInput => "missing input: specify a header or an input file"
  | .unreadable _ => "failed to read input"
  | .invalidHeader _ _ => "invalid input header"
  | .compilation _ => "failed to compile"

/-- What is said about where the error arose, the latest note first. -/
def notes : CommandError → List String
  | .missingInput => []
  | .unreadable path => ["path: '" ++ path ++ "'"]
  | .invalidHeader header _ => ["header: '" ++ header ++ "'"]
  | .compilation failure => failure.notes

end CommandError

/-! ### Input -/

/-- The first line of a file without its end. Bytes after it may be anything. -/
def firstLine? (bytes : List UInt8) : Option String :=
  (String.fromUTF8? ⟨(bytes.takeWhile (· ≠ 10)).toArray⟩).map fun line =>
    String.ofList (Text.dropEndWhile (fun c => c == '\n' || c == '\r') line.toList)

namespace Source

/-- The header that describes the input. -/
def headerLine (files : Files) : Source → Except CommandError String
  | .header line => .ok line
  | .file path =>
    match (files path).bind firstLine? with
    | some line => .ok line
    | none => .error (.unreadable path)

/-- The description of the input. -/
def schema (files : Files) (source : Source) : Except CommandError Schema := do
  let header ← source.headerLine files
  match Schema.parse header with
  | .ok schema => return schema
  | .error e => throw (.invalidHeader header e)

/-- The description of the input, if it is said where that is. -/
def schemaOf (files : Files) : Option Source → Except CommandError Schema
  | none => .error .missingInput
  | some source => source.schema files

end Source

/-! ### Output -/

/-- How a compiled program is printed. -/
structure Rendering where
  /-- Print over several lines, indenting blocks by so many spaces. -/
  pretty : Option Nat := none
  /-- Print the header of the output first. -/
  printHeader : Bool := false
  /-- Print a shell command that runs the program in place of the program. -/
  commandLine : Bool := false
  /-- What the shell command runs. -/
  awk : String := "awk"
deriving DecidableEq, Repr

namespace Rendering

def layout (r : Rendering) : Layout :=
  match r.pretty with
  | some indent => .pretty indent
  | none => .compact

/-- The program, or the shell command that runs it. -/
def body (r : Rendering) (c : Compiled) : String :=
  if r.commandLine then c.program.written.commandLine r.awk ""
  else c.program.written.text r.layout

/-- What is printed for a compiled program; it ends in one line end. -/
def text (r : Rendering) (c : Compiled) : String :=
  (if r.printHeader then c.schema.text ++ "\n" else "")
    ++ String.ofList (Text.dropEndWhile (· == '\n') (r.body c).toList) ++ "\n"

end Rendering

/-! ### Running -/

/-- What is to be compiled. -/
inductive Task where
  | map (filters maps : List String)
  | group (key : Option String) (aggregates : List (Category × String))
    (options : Compile.GroupProgram.Options)
deriving DecidableEq, Repr

def Task.compile (schema : Schema) : Task → Except Failure Compiled
  | .map filters maps => Compile.RowProgram.compile schema filters maps
  | .group key aggregates options =>
    Compile.GroupProgram.compile schema key aggregates options

/-- The text that a task prints for an input. -/
def run (files : Files) (source : Source) (task : Task) (rendering : Rendering) :
    Except CommandError String := do
  let schema ← source.schema files
  match task.compile schema with
  | .ok compiled => return rendering.text compiled
  | .error failure => throw (.compilation failure)

end RowAwk.Command
