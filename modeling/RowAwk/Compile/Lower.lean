import RowAwk.Awk.Routine
import RowAwk.Compile.Namer
import RowAwk.Compile.Scope

/-!
What is at hand while statements are turned into awk expressions.

Expressions are lowered within a scope. On the way they may need variables of the compiler's own,
which are bound in the same scope, and functions that the program has to bring along. The scope of
the rows is kept beside it: the arguments of aggregates are lowered there.
-/

namespace RowAwk.Compile

open Awk (Expr Routine)

structure State where
  scope : Scope
  rows : Scope
  namer : Namer
  routines : List Routine

/-- A computation that lowers something, or fails. -/
abbrev Lower := StateT State (Except Failure)

namespace Lower

def fail {α : Type} (error : CompileError) : Lower α := throw ⟨error, []⟩

/-- A computation whose failure gets one more note. -/
def noting {α : Type} (note : String) (m : Lower α) : Lower α :=
  fun s => Compile.noting note (m s)

/-- Lowers something in the scope of the rows. -/
def inRows {α : Type} (m : Lower α) : Lower α := do
  let flip (s : State) : State := { s with scope := s.rows, rows := s.scope }
  modify flip
  let a ← m
  modify flip
  return a

/-- Has the program bring a function along. -/
def require (r : Routine) : Lower Unit :=
  modify fun s => { s with routines := r.require s.routines }

/-- The name of a key under a stem. -/
def nameFor (stem key : String) : Lower String :=
  modifyGet fun s =>
    let (name, namer) := s.namer.nameFor stem key
    (name, { s with namer })

/-- Binds a name at the end of the scope. -/
def bind (name : String) (statement : Expr) : Lower Unit := do
  let s ← get
  let scope ← s.scope.bind name statement none
  set { s with scope }

/-- A reference to a name, which is bound unless it is already. -/
def bindHelper (name : String) (statement : Expr) : Lower Expr := do
  match (← get).scope.var? name with
  | some v => return v
  | none =>
    bind name statement
    return .var name statement

/-- A variable that holds a value, so that it is computed once however often it is used. A column
    is as good as a variable. -/
def helper (stem : String) (value : Expr) : Lower Expr := do
  if value.isField then return value
  else
    let name ← nameFor stem value.text
    bindHelper name (.assign name value)

end Lower

end RowAwk.Compile
