import RowAwk.Awk.Expr

/-!
The types of the values that expressions give, as far as they can be told from their form.

What mixes something unknown in is unknown, except where the operation alone decides.
-/

namespace RowAwk.Awk

open Schema (FieldType)

/-- The type of an operation on values of given types. -/
def Op.type (o : Op) (types : List FieldType) : FieldType :=
  if o.isPredicate then .bool
  else match o with
    | .concat => if types.contains .any then .any else .str
    | .add | .sub | .mul | .pow | .mod =>
      if types.contains .any then .any
      else if types.contains .float then .float
      else .int
    | .div => if types.contains .any then .any else .float
    | _ => .any

/-- The functions of awk whose results have a type of their own. -/
def callType? (function : String) : Option FieldType :=
  if ["int", "length", "mktime", "index", "match", "split", "crc32", "and", "or", "compl",
      "lshift", "rshift"].contains function then some .int
  else if ["sprintf", "substr", "tolower", "toupper", "gensub", "uniq"].contains function then
    some .str
  else if ["log", "exp", "sqrt", "sin", "cos", "atan2", "rand"].contains function then
    some .float
  else if function = "!" then some .bool
  else none

/-- The type of a value that is one of two. -/
def choiceType (yes no : FieldType) : FieldType :=
  ([.any, .str, .float, .int].find? fun t => t == yes || t == no).getD .any

/-- A number of the type of the argument, as far as it is whole. -/
def numberType : FieldType → FieldType
  | .int => .int
  | _ => .float

/-- The type of an aggregate over arguments of given types. -/
def Aggregate.type (a : Aggregate) (types : List FieldType) : FieldType :=
  match a with
  | .ifMin | .ifMax => types.getD 1 .any
  | .first | .last => types.getD 0 .any
  | .min | .max | .sum | .product | .median | .var => numberType (types.getD 0 .any)
  | .cnt => .int
  | .avg => .float
  | .concat | .concatUniq | .concatSorted | .chainConcatUniq | .concatSample => .str

namespace Expr

mutual

/-- The type of the values of an expression. -/
def type : Expr → FieldType
  | .const value => value.type
  | .field _ _ type => type
  | .var _ (.assign _ value) => value.type
  | .var _ binding => binding.type
  | .op o args => o.type (types args)
  | .conditional _ yes no => choiceType yes.type no.type
  | .call function args =>
    match callType? function with
    | some t => t
    | none => if function = "-" then (types args).getD 0 .any else .any
  | .aggregate accumulator args => accumulator.function.type (types args)
  | .builtin _ => .any
  | .sideEffect _ _ => .any
  | .subscript _ _ => .any
  | .assign _ _ => .any

def types : List Expr → List FieldType
  | [] => []
  | e :: es => e.type :: types es

end

end Expr

end RowAwk.Awk
