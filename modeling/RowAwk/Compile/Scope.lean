import RowAwk.Awk.Expr
import RowAwk.Compile.Error
import RowAwk.Schema.Basic

/-!
Scopes: the columns of a stream and the names bound over them.

Bindings are kept in the order in which the outputs are printed. A name is bound at most once, to
a statement that computes it, and later statements may refer to it.
-/

namespace RowAwk.Compile

open Awk (Expr)

structure Scope where
  schema : Schema
  bindings : List (String × Expr)

namespace Scope

/-- The scope of a stream with nothing bound. -/
def of (schema : Schema) : Scope := ⟨schema, []⟩

/-- A reference to a column. -/
def field? (s : Scope) (name : String) : Option Expr := do
  let position ← s.schema.fieldIndex? name
  let field ← s.schema.field? name
  return .field name (position + 1) field.type

/-- The statement that a name is bound to. -/
def binding? (s : Scope) (name : String) : Option Expr :=
  (s.bindings.find? fun (n, _) => n == name).map Prod.snd

def hasVar (s : Scope) (name : String) : Bool := (s.binding? name).isSome

/-- A reference to a bound name. -/
def var? (s : Scope) (name : String) : Option Expr := (s.binding? name).map (.var name)

/-- The value that a name is bound to. -/
def value? (s : Scope) (name : String) : Option Expr := (s.binding? name).map Expr.boundValue

/-- The column that a name hands on unchanged. -/
def passes? (s : Scope) (name : String) : Option String := (s.binding? name).bind Expr.passes?

/-- The bound names in order. -/
def names (s : Scope) : List String := s.bindings.map Prod.fst

/-- The scope with one more name, at the end or at a position among the others. -/
def bind (s : Scope) (name : String) (statement : Expr) (position : Option Nat) :
    Except Failure Scope :=
  if s.hasVar name then .error ⟨.alreadyBound name, []⟩
  else
    let p := position.getD s.bindings.length
    .ok ⟨s.schema, s.bindings.take p ++ (name, statement) :: s.bindings.drop p⟩

end Scope

end RowAwk.Compile
