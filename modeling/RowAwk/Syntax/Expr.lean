import RowAwk.Syntax.Token

/-!
Row expressions and statements as trees.

Every node carries the stretch of source that it covers, without the parentheses around it. `text`
shows a tree with every operation in parentheses, so that it reads back as the same tree.
-/

namespace RowAwk.Syntax

inductive UnaryOp where
  | negate | complement | not
deriving DecidableEq, Repr

def UnaryOp.text : UnaryOp → String
  | .negate => "-"
  | .complement => "~"
  | .not => "not"

inductive BinaryOp where
  | add | sub | mul | div | floorDiv | mod | pow | bitAnd | bitOr | shiftLeft | shiftRight
deriving DecidableEq, Repr

def BinaryOp.text : BinaryOp → String
  | .add => "+"
  | .sub => "-"
  | .mul => "*"
  | .div => "/"
  | .floorDiv => "//"
  | .mod => "%"
  | .pow => "**"
  | .bitAnd => "&"
  | .bitOr => "|"
  | .shiftLeft => "<<"
  | .shiftRight => ">>"

inductive BoolOp where
  | and | or
deriving DecidableEq, Repr

def BoolOp.text : BoolOp → String
  | .and => "and"
  | .or => "or"

inductive CompareOp where
  | equal | notEqual | less | lessEqual | greater | greaterEqual | isIn | notIn
deriving DecidableEq, Repr

def CompareOp.text : CompareOp → String
  | .equal => "=="
  | .notEqual => "!="
  | .less => "<"
  | .lessEqual => "<="
  | .greater => ">"
  | .greaterEqual => ">="
  | .isIn => "in"
  | .notIn => "not in"

/-- A name and where it stands. -/
structure Name where
  text : String
  span : Span
deriving DecidableEq, Repr

/-- An argument passed by the name of its parameter. -/
structure KeywordArg (ε : Type) where
  name : Name
  value : ε

/-- An expression. A chain of `and` or `or` is one node with all its operands, and `()` is the
    tuple without items. -/
inductive Expr where
  | literal (span : Span) (value : Literal)
  | name (span : Span) (name : String)
  | tuple (span : Span) (items : List Expr)
  | list (span : Span) (items : List Expr)
  | call (span : Span) (function : Name) (args : List Expr) (keywords : List (KeywordArg Expr))
  | subscript (span : Span) (base index : Expr)
  | unary (span : Span) (op : UnaryOp) (operand : Expr)
  | binary (span : Span) (op : BinaryOp) (lhs rhs : Expr)
  | boolean (span : Span) (op : BoolOp) (operands : List Expr)
  | compare (span : Span) (op : CompareOp) (lhs rhs : Expr)
  | conditional (span : Span) (test yes no : Expr)

namespace Expr

/-- The stretch of source that an expression covers. -/
def span : Expr → Span
  | .literal span _ | .name span _ | .tuple span _ | .list span _ | .call span _ _ _
  | .subscript span _ _ | .unary span _ _ | .binary span _ _ _ | .boolean span _ _
  | .compare span _ _ _ | .conditional span _ _ _ => span

/-- A name that stands alone, with its place. -/
def callee? : Expr → Option Name
  | .name span n => some ⟨n, span⟩
  | _ => none

/-- The name that a bare reference mentions. -/
def asName? : Expr → Option String
  | .name _ n => some n
  | _ => none

mutual

/-- The expression with every operation in parentheses. -/
def text : Expr → String
  | .literal _ value => value.text
  | .name _ n => n
  | .tuple _ items => "(" ++ ", ".intercalate (texts items) ++ ")"
  | .list _ items => "[" ++ ", ".intercalate (texts items) ++ "]"
  | .call _ function args keywords =>
    function.text ++ "(" ++ ", ".intercalate (texts args ++ keywordTexts keywords) ++ ")"
  | .subscript _ base index => base.text ++ "[" ++ index.text ++ "]"
  | .unary _ .not operand => "(not " ++ operand.text ++ ")"
  | .unary _ op operand => "(" ++ op.text ++ operand.text ++ ")"
  | .binary _ op lhs rhs => "(" ++ lhs.text ++ " " ++ op.text ++ " " ++ rhs.text ++ ")"
  | .boolean _ op operands =>
    "(" ++ (" " ++ op.text ++ " ").intercalate (texts operands) ++ ")"
  | .compare _ op lhs rhs => "(" ++ lhs.text ++ " " ++ op.text ++ " " ++ rhs.text ++ ")"
  | .conditional _ test yes no =>
    "(" ++ yes.text ++ " if " ++ test.text ++ " else " ++ no.text ++ ")"

def texts : List Expr → List String
  | [] => []
  | e :: es => e.text :: texts es

def keywordTexts : List (KeywordArg Expr) → List String
  | [] => []
  | ⟨n, e⟩ :: rest => (n.text ++ "=" ++ e.text) :: keywordTexts rest

end

end Expr

/-- A statement: an expression, or one whose value gets a name. -/
inductive Stmt where
  | assign (target : Name) (value : Expr)
  | value (value : Expr)

namespace Stmt

def text : Stmt → String
  | .assign target e => target.text ++ " = " ++ e.text
  | .value e => e.text

end Stmt

end RowAwk.Syntax
