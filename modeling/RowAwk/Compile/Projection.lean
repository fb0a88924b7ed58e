import RowAwk.Awk.Program
import RowAwk.Awk.Typing
import RowAwk.Compile.Scope

/-!
Printing the bindings of a scope, and the columns that this gives.

A binding that others refer to is computed into its variable, before the filter if the filter needs
it and only for the rows that pass otherwise. All other bindings are printed as the expressions
they are. The sort order of the input carries over as long as its columns are handed on.
-/

namespace RowAwk.Compile

open Awk (Expr Head Item Line)
open Schema (Field Order)

/-- A program and the description of what it prints. -/
structure Compiled where
  program : Awk.Program Line Head
  schema : Schema

/-- The statements that print a scope, and the columns and sort order they give. -/
structure Projection where
  block : Awk.Block Line Head
  fields : List Field
  order : List Order

namespace Projection

/-- The bindings that some expressions refer to and that are not computed yet, in order. Those of
    the compiler's own machinery are computed elsewhere. -/
def needed (s : Scope) (exprs : List Expr) (computed : List String) : List Expr :=
  let referenced := exprs.flatMap Expr.varNames
  (s.bindings.filter fun (name, _) =>
    !Syntax.isInternal name && referenced.contains name && !computed.contains name).map Prod.snd

/-- The bindings that are printed. -/
def outputs (s : Scope) : List (String × Expr) :=
  s.bindings.filter fun (name, _) => !Syntax.isHidden name

/-- What is printed for a binding: its variable if that is computed, else its value. -/
def printed (computed : List String) (name : String) (statement : Expr) : Expr :=
  if computed.contains name then .var name statement else statement.boundValue

/-- The outputs that columns are handed on to. An output with the name of its column keeps its
    place; among others the last one counts. -/
def handedOn (kept : List (String × String)) :
    List (String × Expr) → List (String × String)
  | [] => kept
  | (name, statement) :: rest =>
    match statement.passes? with
    | none => handedOn kept rest
    | some column =>
      if kept.lookup column = some column then handedOn kept rest
      else handedOn ((column, name) :: kept) rest

/-- The part of a sort order whose columns are handed on, under their new names. -/
def carriedOrder (kept : List (String × String)) : List Order → List Order
  | [] => []
  | o :: os =>
    match kept.lookup o.name with
    | none => []
    | some name => ⟨name, o.kind, o.descending⟩ :: carriedOrder kept os

/-- A line for some statements, if there are any. -/
def computeLine (statements : List Expr) : Awk.Block Line Head :=
  if statements.isEmpty then [] else [.line (.compute statements)]

/-- Prints the bindings of a scope for the rows that pass a filter. -/
def of (s : Scope) (filter : Option Expr) (order : List Order) : Except Failure Projection :=
  let all := s.bindings.map Prod.snd
  let early := filter.toList
  let before := needed s early []
  let after := needed s all (early.flatMap Expr.varNames)
  let computed := (early ++ all).flatMap Expr.varNames
  let values := (outputs s).map fun (name, statement) => printed computed name statement
  if values.isEmpty then .error ⟨.emptyProjection, []⟩
  else
    let body := computeLine after ++ [.line (.print values)]
    .ok {
      block := computeLine before ++ (match filter with
        | some test => [.head (.holds test) body]
        | none => body)
      fields := (outputs s).map fun (name, statement) =>
        ⟨name, (printed computed name statement).type⟩
      order := carriedOrder (handedOn [] (outputs s)) order }

/-- The description of what a projection prints. -/
def schema (p : Projection) (size : Option Nat) (metadata : Schema.Metadata) :
    Except Failure Schema :=
  match Schema.ofFields p.fields p.order with
  | .ok s => .ok { s with size, metadata }
  | .error e => .error ⟨.invalidSchema e, []⟩

end Projection

end RowAwk.Compile
