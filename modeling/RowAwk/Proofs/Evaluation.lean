import Mathlib.Algebra.Ring.Int.Defs
import Mathlib.Logic.Function.Basic
import RowAwk.Awk.Program
import RowAwk.Compile.Lowering

/-!
What awk programs compute.

A `Machine` says what constants, operators, functions and subscripts mean; nothing is assumed of
it. Values are computed in two ways. `eval` does as awk does: a variable has the value that the
store holds for its name. `inlined` looks no variable up: the value of a variable is that of the
statement it is bound to, all the way down.

    store:    x ↦ 3        eval     (x + 1)                 reads 3, gives 4
                           inlined  (x + 1), x = ($1 * 2)   gives $1 * 2 + 1

Two statements of the compiler set a variable by a side effect: splitting a text fills an array and
gives its size, and reading a line from a command fills a variable.
-/

namespace RowAwk.Awk

open Compile (awkVariables)

/-- The meaning of what an awk program is made of.

    * `parts` is the array of the parts of a text between delimiters, and `size` its size;
    * `line` is the first line that a command prints;
    * `truth` says which values a test takes as true. -/
structure Machine (V : Type) where
  const : Const → V
  op : Op → List V → V
  call : String → List V → V
  subscript : V → V → V
  truth : V → Bool
  parts : V → V → V
  size : V → V
  line : V → V

/-- A machine over the integers, for examples: texts count for their lengths. -/
def integers : Machine Int where
  const
    | .int n => n
    | .bool b => if b then 1 else 0
    | .str s => s.length
    | .float _ => 0
  op
    | .equal, [a, b] => if a = b then 1 else 0
    | .notEqual, [a, b] => if a ≠ b then 1 else 0
    | .less, [a, b] => if a < b then 1 else 0
    | .lessEqual, [a, b] => if a ≤ b then 1 else 0
    | .greater, [a, b] => if b < a then 1 else 0
    | .greaterEqual, [a, b] => if b ≤ a then 1 else 0
    | .and, vs => if vs.all (· ≠ 0) then 1 else 0
    | .or, vs => if vs.any (· ≠ 0) then 1 else 0
    | .sub, [a, b] => a - b
    | _, vs => vs.sum
  call
    | "-", [a] => -a
    | _, vs => vs.sum
  subscript a i := a + i
  truth v := v ≠ 0
  parts v d := v - d
  size v := v
  line v := v

/-- The values of all variables. -/
abbrev Store (V : Type) := String → V

/-- The array, text and delimiter of a call that splits a text into an array of the program. The
    variables that awk sets are no arrays. -/
def Expr.splitting? : Expr → Option (String × Expr × Expr)
  | .call function [text, .builtin array, delim] =>
    if function = "split" ∧ array ∉ awkVariables then some (array, text, delim) else none
  | _ => none

namespace Machine

variable {V : Type} (M : Machine V)

/-- The value of a call. A call that fills an array gives its size. -/
def apply (function : String) (splits : Bool) (args : List V) : V :=
  match splits, args with
  | true, [text, _, delim] => M.size (M.parts text delim)
  | _, args => M.call function args

variable (columns : Nat → V)

mutual

/-- The value of an expression in a store. -/
def eval (σ : Store V) : Expr → V
  | .const c => M.const c
  | .field _ position _ => columns position
  | .var name _ => σ name
  | .builtin name => σ name
  | .sideEffect name _ => σ name
  | .call function args =>
    M.apply function (Expr.call function args).splitting?.isSome (evalAll σ args)
  | .subscript base index => M.subscript (eval σ base) (eval σ index)
  | .op o args => M.op o (evalAll σ args)
  | .conditional test yes no => if M.truth (eval σ test) then eval σ yes else eval σ no
  | .assign _ value => eval σ value
  | .aggregate accumulator _ => σ accumulator.name

def evalAll (σ : Store V) : List Expr → List V
  | [] => []
  | e :: es => eval σ e :: evalAll σ es

end

/-- The store after a statement. -/
def execute (σ : Store V) : Expr → Store V
  | .assign target value =>
    let filled := match value.splitting? with
      | some (array, text, delim) =>
        Function.update σ array (M.parts (M.eval columns σ text) (M.eval columns σ delim))
      | none => σ
    Function.update filled target (M.eval columns σ value)
  | .op .juxtapose [command, _, _, .builtin name] =>
    Function.update σ name (M.line (M.eval columns σ command))
  | _ => σ

mutual

/-- Runs an item of the block that each row goes through: the store after it, and the records that
    it prints. The lines and heads that only grouping programs have do nothing here. -/
def runItem (σ : Store V) : Item Line Head → Store V × List (List V)
  | .line (.compute statements) => (statements.foldl (M.execute columns) σ, [])
  | .line (.print values) => (σ, [M.evalAll columns σ values])
  | .line _ => (σ, [])
  | .block items => run σ items
  | .head (.holds test) items => if M.truth (M.eval columns σ test) then run σ items else (σ, [])
  | .head _ _ => (σ, [])

def run (σ : Store V) : Block Line Head → Store V × List (List V)
  | [] => (σ, [])
  | item :: items =>
    let first := runItem σ item
    let rest := run first.1 items
    (rest.1, first.2 ++ rest.2)

end

variable (words : String → V)

mutual

/-- The value of an expression with all variables inlined. Only the variables that awk sets are
    looked up, in `words`. -/
def inlined : Expr → V
  | .const c => M.const c
  | .field _ position _ => columns position
  | .var _ (.assign _ value) => inlined value
  | .var _ (.op _ (command :: _)) => M.line (inlined command)
  | .var name _ => words name
  | .builtin name => words name
  | .sideEffect _ (.var _ (.assign _ (.call _ [text, _, delim]))) =>
    M.parts (inlined text) (inlined delim)
  | .sideEffect _ (.var _ (.op _ (command :: _))) => M.line (inlined command)
  | .sideEffect name _ => words name
  | .call function args =>
    M.apply function (Expr.call function args).splitting?.isSome (inlinedAll args)
  | .subscript base index => M.subscript (inlined base) (inlined index)
  | .op o args => M.op o (inlinedAll args)
  | .conditional test yes no => if M.truth (inlined test) then inlined yes else inlined no
  | .assign _ value => inlined value
  | .aggregate accumulator _ => words accumulator.name

def inlinedAll : List Expr → List V
  | [] => []
  | e :: es => inlined e :: inlinedAll es

end

end Machine

mutual

/-- The statements that an item computes, in the order in which they stand. -/
def Item.computed : Item Line Head → List Expr
  | .line (.compute statements) => statements
  | .line _ => []
  | .block items => Block.computed items
  | .head _ items => Block.computed items

def Block.computed : Block Line Head → List Expr
  | [] => []
  | item :: items => item.computed ++ Block.computed items

end

end RowAwk.Awk
