import RowAwk.Compile.Aggregation
import RowAwk.Compile.Library
import RowAwk.Syntax.Grammar

/-!
Lowering: the awk expression that a row expression stands for.

A name stands for a column if there is one, else for a binding, else for a variable that awk sets.
A tuple joins its items to one text, and `in` compares with each item of a list. Calls of
aggregates are recognised only where a category says which rows they cover; their arguments are
lowered in the scope of the rows.
-/

namespace RowAwk.Compile

open Awk (Aggregate Category Expr)
open Syntax (Literal Stmt)

/-- Variables that awk sets for each row. -/
def awkVariables : List String := ["NR", "NF", "FILENAME", "RSTART", "RLENGTH"]

/-- The statements of a source. -/
def parseSource (source : String) : Except Failure (List Stmt) :=
  match Stmt.parseAll source with
  | .ok stmts => .ok stmts
  | .error e => .error ⟨.misuse (.unreadable source e), []⟩

namespace Lowering

/-- The constant that a literal writes. A number is an integer if it is written as one and fits in
    64 bits. -/
def constant? : Literal → Option Awk.Const
  | .bool b => some (.bool b)
  | .string s => some (.str s)
  | .number spelling =>
    let whole := if (Literal.number spelling).isFractional then none
      else (Number.natOfDigits? 10 spelling.toList).filter (· < Nat.pow 2 63)
    match whole with
    | some n => some (.int n)
    | none => (Number.Binary64.ofText? spelling).map .float

/-- A constant. -/
def literal (value : Literal) : Lower Expr :=
  match constant? value with
  | some c => return .const c
  | none => Lower.fail (.misuse (.invalidNumber value.text))

/-- The names that a misspelt one may have meant. -/
def candidates (s : Scope) : List String :=
  (s.schema.fieldNames ++ s.names).filter (!Syntax.isInternal ·) ++ awkVariables

/-- What a name stands for. -/
def resolve (name : String) : Lower Expr := do
  let scope := (← get).scope
  match scope.field? name, scope.var? name with
  | some field, _ =>
    if Syntax.isInternal name then Lower.fail (.reservedName name) else return field
  | none, some v => return v
  | none, none =>
    if awkVariables.contains name then return .builtin name
    else Lower.fail (.unknownName name (Text.nearest name (candidates scope)))

/-- The literal inside the brackets of a subscript. -/
def index (e : Syntax.Expr) : Lower Expr :=
  match e with
  | .literal _ (.number spelling) => literal (.number spelling)
  | .literal _ (.string s) => literal (.string s)
  | e => Lower.fail (.misuse (.computedIndex e.text))

def unary (op : Syntax.UnaryOp) (operand : Expr) : Expr :=
  match op with
  | .negate => .call "-" [operand]
  | .complement => .call "compl" [operand]
  | .not => .call "!" [operand]

def binary (op : Syntax.BinaryOp) (lhs rhs : Expr) : Expr :=
  match op with
  | .add => .op .add [lhs, rhs]
  | .sub => .op .sub [lhs, rhs]
  | .mul => .op .mul [lhs, rhs]
  | .div => .op .div [lhs, rhs]
  | .mod => .op .mod [lhs, rhs]
  | .pow => .op .pow [lhs, rhs]
  | .floorDiv => .call "int" [.op .div [lhs, rhs]]
  | .bitAnd => .call "and" [lhs, rhs]
  | .bitOr => .call "or" [lhs, rhs]
  | .shiftLeft => .call "lshift" [lhs, rhs]
  | .shiftRight => .call "rshift" [lhs, rhs]

def boolean : Syntax.BoolOp → Awk.Op
  | .and => .and
  | .or => .or

/-- The operator of a comparison between two values. -/
def comparison? : Syntax.CompareOp → Option Awk.Op
  | .equal => some .equal
  | .notEqual => some .notEqual
  | .less => some .less
  | .lessEqual => some .lessEqual
  | .greater => some .greater
  | .greaterEqual => some .greaterEqual
  | .isIn => none
  | .notIn => none

/-- Whether a value is one of some items, or none of them. -/
def membership (op : Syntax.CompareOp) (value : Expr) (items : List Expr) : Expr :=
  let (test, glue) : Awk.Op × Awk.Op := match op with
    | .notIn => (.notEqual, .and)
    | _ => (.equal, .or)
  match items.map fun item => .op test [value, item] with
  | [single] => single
  | tests => .op glue tests

mutual

/-- The awk expression of an expression; aggregates cover the rows of `category`. -/
def lower (category : Option Category) : Syntax.Expr → Lower Expr
  | .literal _ value => literal value
  | .name _ n => resolve n
  | .tuple _ [] => Lower.fail (.misuse .emptyTuple)
  | .tuple _ (e :: es) => return .op .concat (← lowerAll category (e :: es))
  | .list span _ => Lower.noting ("at " ++ span.text) (Lower.fail (.misuse .strayList))
  | .call _ function args keywords => do
    match category, Aggregate.ofName? function.text with
    | some c, some a =>
      if keywords.isEmpty then
        let args ← Lower.inRows (lowerAll none args)
        Aggregation.expand c a args
      else Lower.fail (.argument function.text .positionalOnly)
    | _, _ =>
      let positional ← lowerAll category args
      match Function.ofName? function.text with
      | some f =>
        let named ← lowerKeywords category keywords
        match f.signature.bind positional named with
        | .ok bound => Library.expand f bound
        | .error e => Lower.fail e
      | none =>
        if keywords.isEmpty then return .call function.text positional
        else Lower.fail (.argument function.text .noKeywords)
  | .subscript _ base i => do
    let base ← lower category base
    return .subscript base (← index i)
  | .unary _ op operand => return unary op (← lower category operand)
  | .binary _ op lhs rhs => do
    let lhs ← lower category lhs
    let rhs ← lower category rhs
    return binary op lhs rhs
  | .boolean _ op operands => return .op (boolean op) (← lowerAll category operands)
  | .compare _ op lhs rhs =>
    match comparison? op with
    | some o => do
      let lhs ← lower category lhs
      let rhs ← lower category rhs
      return .op o [lhs, rhs]
    | none =>
      match rhs with
      | .list _ (item :: items) => do
        let lhs ← lower category lhs
        return membership op lhs (← lowerAll category (item :: items))
      | .tuple _ (item :: items) => do
        let lhs ← lower category lhs
        return membership op lhs (← lowerAll category (item :: items))
      | other => Lower.fail (.misuse (.notAList op other.text))
  | .conditional _ test yes no => do
    let test ← lower category test
    let yes ← lower category yes
    let no ← lower category no
    return .conditional test yes no

def lowerAll (category : Option Category) : List Syntax.Expr → Lower (List Expr)
  | [] => return []
  | e :: es => do
    let e ← lower category e
    let es ← lowerAll category es
    return e :: es

def lowerKeywords (category : Option Category) :
    List (Syntax.KeywordArg Syntax.Expr) → Lower (List (String × Expr))
  | [] => return []
  | ⟨name, value⟩ :: rest => do
    let value ← lower category value
    let rest ← lowerKeywords category rest
    return (name.text, value) :: rest

end

/-- The name that a statement binds, and the statement bound to it. A bare name stands for itself
    assigned to itself. -/
def binding (category : Option Category) (s : Stmt) : Lower (String × Expr) :=
  match s with
  | .assign target e => do
    let e ← lower category e
    return (target.text, .assign target.text e)
  | .value e =>
    match e.asName? with
    | some name => do
      let e ← lower category e
      return (name, .assign name e)
    | none => Lower.noting ("statement: " ++ s.text) (Lower.fail (.misuse .unnamedValue))

/-- The value of a statement that binds nothing. -/
def value (s : Stmt) : Lower Expr :=
  match s with
  | .value e => lower none e
  | .assign _ _ => Lower.noting ("statement: " ++ s.text) (Lower.fail (.misuse .assignment))

end Lowering

end RowAwk.Compile
