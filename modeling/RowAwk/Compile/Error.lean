import RowAwk.Schema.Error
import RowAwk.Syntax.Error
import RowAwk.Syntax.Expr
import RowAwk.Text.Nearest

/-!
Why statements do not compile.

An error has a cause, with the error of another layer inside it where there is one, and notes that
say which statement and which source it was in, the latest note first.
-/

namespace RowAwk.Compile

open Syntax (SyntaxError CompareOp)
open Schema (SchemaError)

/-- What is wrong with the number of arguments of a call. -/
inductive ArityFault where
  | tooMany (most given : Nat)
  | missing (parameter : String)
  | nothingGiven
  | notExactly (count given : Nat)
  | notWithin (least given : Nat)
deriving DecidableEq, Repr

def ArityFault.text : ArityFault → String
  | .tooMany most given =>
    "expected at most " ++ toString most ++ " arguments, got " ++ toString given
  | .missing parameter => "missing argument '" ++ parameter ++ "'"
  | .nothingGiven => "expected at least one argument"
  | .notExactly count given =>
    "expected " ++ toString count ++ " arguments, got " ++ toString given
  | .notWithin least given =>
    "expected " ++ toString least ++ " or " ++ toString (least + 1) ++ " arguments, got "
      ++ toString given

/-- What is wrong with an argument of a call. -/
inductive ArgumentFault where
  | unknownKeyword (name : String)
  | givenTwice (name : String)
  | noKeywords
  | positionalOnly
  | delimiter (text : String)
  | limit
  | formatNotLiteral
  | formatIncomplete (format : String)
  | formatUnknown (code : Char)
deriving DecidableEq, Repr

def ArgumentFault.text : ArgumentFault → String
  | .unknownKeyword name => "unknown keyword argument '" ++ name ++ "'"
  | .givenTwice name => "argument '" ++ name ++ "' given more than once"
  | .noKeywords => "keyword arguments are not supported"
  | .positionalOnly => "aggregates take positional arguments only"
  | .delimiter text => "delimiter must be a string literal, got '" ++ text ++ "'"
  | .limit => "limit must be an integer literal"
  | .formatNotLiteral => "'format' must be a string literal"
  | .formatIncomplete format =>
    "incomplete format specifier at the end of '" ++ format ++ "'"
  | .formatUnknown code =>
    "unrecognized format specifier '%" ++ String.ofList [code] ++ "'"

/-- A form of expression that has no meaning where it stands. -/
inductive Misuse where
  | unreadable (source : String) (cause : SyntaxError)
  | invalidNumber (spelling : String)
  | emptyTuple
  | strayList
  | computedIndex (index : String)
  | notAList (op : CompareOp) (operand : String)
  | unnamedValue
  | assignment
deriving DecidableEq, Repr

def Misuse.text : Misuse → String
  | .unreadable source _ => "failed to parse '" ++ source ++ "'"
  | .invalidNumber spelling => "invalid number '" ++ spelling ++ "'"
  | .emptyTuple => "empty tuple"
  | .strayList => "lists are only supported on the right of 'in'"
  | .computedIndex index =>
    "subscript must be a string or number literal, saw '" ++ index ++ "'"
  | .notAList op operand =>
    "'" ++ op.text ++ "' requires a non-empty literal list, saw '" ++ operand ++ "'"
  | .unnamedValue => "please assign expression to a variable"
  | .assignment => "assignment where a value is required"

inductive CompileError where
  | misuse (misuse : Misuse)
  | unknownName (name : String) (nearest : List String)
  | arity (function : String) (fault : ArityFault)
  | argument (function : String) (fault : ArgumentFault)
  | alreadyBound (name : String)
  | emptyProjection
  | invalidSchema (cause : SchemaError)
  | reservedName (name : String)
deriving DecidableEq, Repr

def CompileError.message : CompileError → String
  | .misuse m => "invalid expression: " ++ m.text
  | .unknownName name nearest =>
    "unknown name '" ++ name ++ "': nearest matches are " ++ Text.listed nearest
  | .arity function fault =>
    "wrong number of arguments to '" ++ function ++ "': " ++ fault.text
  | .argument function fault => "invalid argument to '" ++ function ++ "': " ++ fault.text
  | .alreadyBound name => "name '" ++ name ++ "' is already bound"
  | .emptyProjection => "no output fields specified"
  | .invalidSchema _ => "invalid output schema"
  | .reservedName name =>
    "name '" ++ name ++ "' is reserved: field names may not start with '__'"

/-- An error and the notes on where it arose, the latest first. -/
structure Failure where
  error : CompileError
  notes : List String := []
deriving DecidableEq, Repr

/-- A result whose failure gets one more note. -/
def noting {α : Type} (note : String) : Except Failure α → Except Failure α
  | .ok a => .ok a
  | .error f => .error { f with notes := note :: f.notes }

end RowAwk.Compile
