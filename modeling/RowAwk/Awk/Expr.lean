import RowAwk.Awk.Accumulator
import RowAwk.Awk.Const

/-!
Expressions over the columns of a row, as awk computes them.

A variable carries the statement that binds it, so an expression can be followed through its
variables without looking anything up: inlining every variable is plain recursion. In the text of
an expression a variable is only its name.
-/

namespace RowAwk.Awk

/-- Operators written between all of their arguments. `concat` joins texts and has no sign, and
    `juxtapose` puts words side by side to make a statement. -/
inductive Op where
  | concat | juxtapose | add | sub | mul | div | pow | mod | and | or
  | equal | notEqual | greater | less | greaterEqual | lessEqual
deriving DecidableEq, Repr

namespace Op

/-- The sign of an operator with the blanks around it. -/
def separator : Op → String
  | .concat => "  "
  | .juxtapose => " "
  | .add => " + "
  | .sub => " - "
  | .mul => " * "
  | .div => " / "
  | .pow => " ^ "
  | .mod => " % "
  | .and => " && "
  | .or => " || "
  | .equal => " == "
  | .notEqual => " != "
  | .greater => " > "
  | .less => " < "
  | .greaterEqual => " >= "
  | .lessEqual => " <= "

/-- Whether an operator gives a truth value. -/
def isPredicate : Op → Bool
  | .and | .or | .equal | .notEqual | .greater | .less | .greaterEqual | .lessEqual => true
  | _ => false

end Op

/-- An expression or a statement.

    * `field` is a column, counted from one;
    * `var` is a name bound to a statement, an assignment as a rule;
    * `builtin` is a word of awk, written as it is;
    * `sideEffect` is a name that evaluating another expression sets;
    * `aggregate` is the value of an accumulator, whose arguments belong to each row. -/
inductive Expr where
  | const (value : Const)
  | field (name : String) (position : Nat) (type : Schema.FieldType)
  | var (name : String) (binding : Expr)
  | builtin (name : String)
  | sideEffect (name : String) (cause : Expr)
  | call (function : String) (args : List Expr)
  | subscript (base index : Expr)
  | op (op : Op) (args : List Expr)
  | conditional (test yes no : Expr)
  | assign (target : String) (value : Expr)
  | aggregate (accumulator : Accumulator) (args : List Expr)

namespace Expr

def int (n : Int) : Expr := .const (.int n)

def string (s : String) : Expr := .const (.str s)

def isField : Expr → Bool
  | .field .. => true
  | _ => false

def isVar : Expr → Bool
  | .var .. => true
  | _ => false

/-- The name of a variable. -/
def varName? : Expr → Option String
  | .var name _ => some name
  | _ => none

/-- The value of a constant. -/
def asConst? : Expr → Option Const
  | .const value => some value
  | _ => none

/-- The value of a string constant. -/
def asString? : Expr → Option String
  | .const (.str s) => some s
  | _ => none

/-- The value that a statement gives its name: the right side of an assignment, or the statement
    itself. -/
def boundValue : Expr → Expr
  | .assign _ value => value
  | statement => statement

/-! ### Text -/

mutual

def text : Expr → String
  | .const value => value.text
  | .field _ position _ => "$" ++ toString position
  | .var name _ => name
  | .builtin name => name
  | .sideEffect name _ => name
  | .call function args => function ++ "(" ++ ", ".intercalate (texts args) ++ ")"
  | .subscript base index => base.text ++ "[" ++ index.text ++ "]"
  | .op o args => "(" ++ o.separator.intercalate (texts args) ++ ")"
  | .conditional test yes no => "(" ++ test.text ++ "?" ++ yes.text ++ ":" ++ no.text ++ ")"
  | .assign target value => target ++ " = " ++ value.text
  | .aggregate accumulator _ => accumulator.name

def texts : List Expr → List String
  | [] => []
  | e :: es => e.text :: texts es

end

/-! ### Traversal -/

mutual

/-- An expression and all below it, each before its parts. A variable leads on to the value it is
    bound to; the arguments of an aggregate are not part of the expression. -/
def nodes : Expr → List Expr
  | .const value => [.const value]
  | .field name position type => [.field name position type]
  | .var name (.assign target value) => .var name (.assign target value) :: nodes value
  | .var name binding => .var name binding :: nodes binding
  | .builtin name => [.builtin name]
  | .sideEffect name cause => .sideEffect name cause :: nodes cause
  | .call function args => .call function args :: nodesAll args
  | .subscript base index => .subscript base index :: (nodes base ++ nodes index)
  | .op o args => .op o args :: nodesAll args
  | .conditional test yes no =>
    .conditional test yes no :: (nodes test ++ nodes yes ++ nodes no)
  | .assign target value => .assign target value :: nodes value
  | .aggregate accumulator args => [.aggregate accumulator args]

def nodesAll : List Expr → List Expr
  | [] => []
  | e :: es => nodes e ++ nodesAll es

end

/-- The names of the variables in an expression, also of those reached through others. -/
def varNames (e : Expr) : List String := e.nodes.filterMap varName?

/-- The accumulators in an expression with their arguments. -/
def aggregates (e : Expr) : List (Accumulator × List Expr) :=
  e.nodes.filterMap fun
    | .aggregate accumulator args => some (accumulator, args)
    | _ => none

/-- The column that a statement hands on unchanged: it assigns the column itself, the column with
    an empty text behind it, or a variable whose statement hands it on. -/
def passes? : Expr → Option String
  | .assign _ (.field name _ _) => some name
  | .assign _ (.op .concat [.field name _ _, .const (.str "")]) => some name
  | .assign _ (.var _ binding) => passes? binding
  | _ => none

/-! ### Equality -/

mutual

/-- Whether two expressions are built alike, with numbers compared by value. -/
def same : Expr → Expr → Bool
  | .const a, .const b => a.same b
  | .field n p t, .field n' p' t' => n == n' && p == p' && t == t'
  | .var n b, .var n' b' => n == n' && same b b'
  | .builtin n, .builtin n' => n == n'
  | .sideEffect n c, .sideEffect n' c' => n == n' && same c c'
  | .call f as, .call f' as' => f == f' && sameAll as as'
  | .subscript b i, .subscript b' i' => same b b' && same i i'
  | .op o as, .op o' as' => o == o' && sameAll as as'
  | .conditional t y n, .conditional t' y' n' => same t t' && same y y' && same n n'
  | .assign t v, .assign t' v' => t == t' && same v v'
  | .aggregate a as, .aggregate a' as' => a == a' && sameAll as as'
  | _, _ => false

def sameAll : List Expr → List Expr → Bool
  | [], [] => true
  | e :: es, e' :: es' => same e e' && sameAll es es'
  | _, _ => false

end

end Expr

end RowAwk.Awk
