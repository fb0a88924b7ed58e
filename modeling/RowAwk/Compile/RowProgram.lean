import RowAwk.Compile.Lowering
import RowAwk.Compile.Projection

/-!
Programs that filter rows and compute new columns from each.

Every name that the statements bind becomes a column, unless it starts with an underscore. Two bare
names are directives: `__all__` binds every input column, and `__rest__` those not bound yet.
Without any statements every column is printed as it is.
-/

namespace RowAwk.Compile

open Awk (Expr)
open Syntax (Stmt)

namespace RowProgram

def allFields : String := "__all__"

def restFields : String := "__rest__"

/-- Binds a column to its own name. -/
def bindField (name : String) : Lower Unit := do
  match (← get).scope.field? name with
  | some field => Lower.bind name (.assign name field)
  | none => return ()

/-- Binds a column to its own name, unless the name is bound. -/
def bindRest (name : String) : Lower Unit := do
  if (← get).scope.hasVar name then return () else bindField name

/-- The bare name that a statement is. -/
def bareName? : Stmt → Option String
  | .value e => e.asName?
  | .assign _ _ => none

/-- Binds what a statement of a projection binds. -/
def bindStatement (schema : Schema) (source : String) (s : Stmt) : Lower Unit := do
  if bareName? s = some allFields then schema.fieldNames.forM bindField
  else if bareName? s = some restFields then schema.fieldNames.forM bindRest
  else
    let (name, statement) ← Lower.noting ("projection: " ++ source) (Lowering.binding none s)
    Lower.bind name statement

/-- Binds what a source of a projection binds. -/
def bindSource (schema : Schema) (source : String) : Lower Unit := do
  let stmts ← (parseSource source : Except Failure _)
  stmts.forM (bindStatement schema source)

/-- The conditions of a source of filters. -/
def conditions (source : String) : Lower (List Expr) := do
  let stmts ← (parseSource source : Except Failure _)
  stmts.mapM fun s => Lower.noting ("filter: " ++ source) (Lowering.value s)

/-- All conditions as one. -/
def conjunction : List Expr → Option Expr
  | [] => none
  | [test] => some test
  | tests => some (.op .and tests)

/-- Lowers statements and filters; what is left is the filter. -/
def lowerAll (schema : Schema) (filters maps : List String) : Lower (Option Expr) := do
  let maps := if maps.isEmpty then [allFields] else maps
  maps.forM (bindSource schema)
  let tests ← filters.mapM conditions
  return conjunction tests.flatten

/-- The program that prints the rows of a stream that pass all filters, with new columns. -/
def compile (schema : Schema) (filters maps : List String) : Except Failure Compiled := do
  let start : State := ⟨.of schema, .of schema, .empty, []⟩
  let (filter, state) ← (lowerAll schema filters maps).run start
  let projection ← Projection.of state.scope filter schema.order
  let size := if filter.isNone then schema.size else none
  let derived ← projection.schema size schema.metadata
  return {
    program := ⟨state.routines, [.line .separator], projection.block, []⟩
    schema := derived }

end RowProgram

end RowAwk.Compile
