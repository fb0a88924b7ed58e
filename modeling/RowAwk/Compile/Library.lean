import RowAwk.Compile.Lower
import RowAwk.Compile.Signature
import RowAwk.Compile.TimeFormat

/-!
The functions of the expression language, beyond those that awk has.

A call of one of them is expanded into an awk expression. Values that the expression uses more than
once are held in variables; some functions need a routine that the program brings along. A call of
any other function is a call of the awk function with that name.
-/

namespace RowAwk.Compile

open Awk (Expr)

inductive Function where
  | abs | crc32 | domain | isInFile | join | mapFromFile | max | min | netlocator | shell
  | strip | strptime | uniq | unjoin | unjoinCount
deriving DecidableEq, Repr

namespace Function

def signature : Function → Signature
  | .abs => ⟨"abs", ["value"], none⟩
  | .crc32 => ⟨"crc32", ["value"], none⟩
  | .domain => ⟨"domain", ["url"], none⟩
  | .isInFile => ⟨"is_in_file", ["fname", "key"], none⟩
  | .join => ⟨"join", ["delim"], some "strs"⟩
  | .mapFromFile => ⟨"map_from_file", ["fname", "key", "default"], none⟩
  | .max => ⟨"max", [], some "values"⟩
  | .min => ⟨"min", [], some "values"⟩
  | .netlocator => ⟨"netlocator", ["url"], none⟩
  | .shell => ⟨"shell", ["cmd"], none⟩
  | .strip => ⟨"strip", ["value"], none⟩
  | .strptime => ⟨"strptime", ["format", "timestr"], none⟩
  | .uniq => ⟨"uniq", ["delim", "value"], none⟩
  | .unjoin => ⟨"unjoin", ["delim", "value", "index"], none⟩
  | .unjoinCount => ⟨"unjoin_count", ["delim", "value"], none⟩

def name (f : Function) : String := f.signature.name

/-- All functions, in the order of their names. -/
def all : List Function :=
  [.abs, .crc32, .domain, .isInFile, .join, .mapFromFile, .max, .min, .netlocator, .shell,
    .strip, .strptime, .uniq, .unjoin, .unjoinCount]

/-- The function with a given name. -/
def ofName? (name : String) : Option Function := all.find? (·.name == name)

end Function

namespace Library

/-- The argument of the parameter with a given number, which every bound call has. -/
def arg (b : Bound Expr) (i : Nat) : Expr := b.values.getD i (.string "")

/-- Chooses one of some values by a balanced tree of comparisons. Each node takes the left side if
    the comparison holds between the sides. -/
def comparisonTree (f : Function) (o : Awk.Op) (values : List Expr) : Lower Expr :=
  match values with
  | [] => Lower.fail (.arity f.name .nothingGiven)
  | [value] => Lower.helper ("_" ++ f.name) value
  | a :: b :: more => do
    let half := (a :: b :: more).length / 2
    let left ← comparisonTree f o ((a :: b :: more).take half)
    let right ← comparisonTree f o ((a :: b :: more).drop half)
    return .conditional (.op o [left, right]) left right
termination_by values.length
decreasing_by
  · simp only [List.length_take, List.length_cons]; omega
  · simp only [List.length_drop, List.length_cons]; omega

/-- The value, or its negation if it is below zero. -/
def absolute (value : Expr) : Lower Expr := do
  let value ← Lower.helper "_abs" value
  return .conditional (.op .less [value, .int 0]) (.call "-" [value]) value

/-- Calls a routine with every argument held in a variable. -/
def lookUp (routine : Awk.Routine) (args : List Expr) : Lower Expr := do
  Lower.require routine
  let args ← args.mapM (Lower.helper ("_" ++ routine.name))
  return .call routine.name args

/-- The part of an address that the first group of a pattern matches. -/
def host (pattern : String) (url : Expr) : Expr :=
  .call "gensub" [.string pattern, .string "\\1", .string "", url]

/-- Values with a delimiter between them. -/
def join (delim : Expr) (values : List Expr) : Expr :=
  if values.isEmpty then .string "" else .op .concat (values.intersperse delim)

/-- The value without blanks around it. -/
def strip (value : Expr) : Lower Expr := do
  let value ← Lower.helper "_strip" value
  return .call "gensub"
    [.string "^[[:space:]]+|[[:space:]]+$", .string "", .string "G", value]

/-- Splits a value once for each row: the array of its parts, and their number. The array is set
    by computing the number. -/
def split (delim value : Expr) : Lower (Expr × Expr) := do
  let key := Namer.keyOf [value.text, delim.text]
  let countName ← Lower.nameFor "_spcnt" key
  let arrayName ← Lower.nameFor "_split" key
  let count ← Lower.bindHelper countName
    (.assign countName (.call "split" [value, .builtin arrayName, delim]))
  return (.sideEffect arrayName count, count)

/-- The first line that a command prints. The command runs once, when its variable is bound. -/
def shell (command : Expr) : Lower Expr := do
  let name ← Lower.nameFor "_sh" command.text
  let line ← Lower.bindHelper name
    (.op .juxtapose [command, .builtin "|", .builtin "getline", .builtin name])
  return .sideEffect name line

/-- The time that a text gives in a format. -/
def strptime (format time : Expr) : Lower Expr :=
  match format.asString? with
  | none => Lower.fail (.argument "strptime" .formatNotLiteral)
  | some f =>
    match TimeFormat.pieces f f.toList with
    | .error fault => Lower.fail (.argument "strptime" fault)
    | .ok ps =>
      return .call "mktime" [.call "gensub"
        [.string (TimeFormat.pattern ps), .string (TimeFormat.replacement ps), .string "", time]]

/-- The expression that a call of a function stands for. -/
def expand (f : Function) (b : Bound Expr) : Lower Expr :=
  match f with
  | .abs => absolute (arg b 0)
  | .crc32 => lookUp .crc32 [arg b 0]
  | .domain => return host "^https?://([^/?:#]+).*$" (arg b 0)
  | .isInFile => lookUp .isInFile [arg b 0, arg b 1]
  | .join => return join (arg b 0) b.rest
  | .mapFromFile => lookUp .mapFromFile [arg b 0, arg b 1, arg b 2]
  | .max => comparisonTree f .greater b.rest
  | .min => comparisonTree f .less b.rest
  | .netlocator => return host "^https?://([^/?#]+).*$" (arg b 0)
  | .shell => shell (arg b 0)
  | .strip => strip (arg b 0)
  | .strptime => strptime (arg b 0) (arg b 1)
  | .uniq => do
    Lower.require .uniq
    let value ← Lower.helper "_uniq" (arg b 1)
    return .call "uniq" [arg b 0, value]
  | .unjoin => do
    let (array, _) ← split (arg b 0) (arg b 1)
    return .subscript array (.op .add [arg b 2, .int 1])
  | .unjoinCount => do
    let (_, count) ← split (arg b 0) (arg b 1)
    return count

end Library

end RowAwk.Compile
