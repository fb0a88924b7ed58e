import RowAwk.Compile.Lowering
import RowAwk.Compile.Projection

/-!
Programs that aggregate runs of rows with equal keys.

The rows of a group have to follow each other. The program remembers the key of the group it is in.
On a row with another key it prints the group that has ended, takes over the new key and resets the
accumulators of groups; those of the stream go on.

    row:      helpers; row keys
              first row   ──▶  take over the keys
              key changed ──▶  finish; print; take over the keys; reset
              update
    at end:   finish; print

Statements about groups may use names bound by statements about the stream before them.
-/

namespace RowAwk.Compile

open Awk (Category Expr Fold Head Item Key Line)
open Syntax (Stmt)

namespace GroupProgram

structure Options where
  /-- Print every key, which then needs a name. -/
  outputAllKeys : Bool := false
  /-- Print after each row what has been accumulated up to it. -/
  exposeGroups : Bool := false
deriving DecidableEq, Repr

/-- What has been lowered so far. Keys and arguments of aggregates are computed from the columns of
    each row; statements about groups and about the stream see no columns. -/
structure Draft where
  keyScope : Scope
  rowScope : Scope
  groupScope : Scope
  streamScope : Scope
  outScope : Scope
  namer : Namer
  routines : List Awk.Routine
  keys : List Key
  /-- How many keys are printed. -/
  named : Nat

namespace Draft

/-- A description without columns. -/
def noColumns : Schema := ⟨[], [], none, []⟩

def start (schema : Schema) : Draft where
  keyScope := .of schema
  rowScope := .of schema
  groupScope := .of noColumns
  streamScope := .of noColumns
  outScope := .of noColumns
  namer := .empty
  routines := []
  keys := []
  named := 0

/-! ### Keys -/

/-- The name that a key is printed under, if it is, and the expression it is. -/
def keyParts (outputAll : Bool) (s : Stmt) : Except Failure (Option String × Syntax.Expr) :=
  match s with
  | .assign target e => .ok (some target.text, e)
  | .value e =>
    if outputAll then
      match e.asName? with
      | some name => .ok (some name, e)
      | none => .error ⟨.misuse .unnamedValue, ["key: " ++ s.text]⟩
    else .ok (none, e)

/-- Binds the variable of a key, unless it is bound. -/
def bindKey (d : Draft) (keyName : String) (value : Expr) : Except Failure (Draft × Expr) :=
  match d.outScope.binding? keyName with
  | some binding => .ok (d, binding)
  | none => do
    let binding := .assign keyName value
    let outScope ← d.outScope.bind keyName binding none
    return ({ d with outScope }, binding)

/-- Prints a key under a name, after the keys before it. -/
def nameKey (d : Draft) (keyName name : String) (value : Expr) : Except Failure Draft := do
  let (d, binding) ← d.bindKey keyName value
  let statement := .assign name (.var keyName binding)
  let outScope ← d.outScope.bind name statement (some d.named)
  let groupScope ← d.groupScope.bind name statement none
  return { d with outScope, groupScope, named := d.named + 1 }

/-- Groups by an expression as well, unless that is done. Columns compare as texts. -/
def groupBy (d : Draft) (keyName rowName : String) (value : Expr) : Draft :=
  if d.keys.any fun k => k.name == keyName then d
  else
    let value := if value.isField then .op .concat [value, .string ""] else value
    { d with keys := d.keys ++ [⟨keyName, rowName, value⟩] }

/-- Takes in a statement of the key. -/
def addKey (outputAll : Bool) (d : Draft) (s : Stmt) : Except Failure Draft := do
  let (name, e) ← keyParts outputAll s
  let (value, state) ←
    (Lowering.lower none e).run ⟨d.keyScope, d.rowScope, d.namer, d.routines⟩
  let (keyName, namer) := state.namer.nameFor "__key" value.text
  let (rowName, namer) := namer.nameFor "__row_key" value.text
  let d := { d with keyScope := state.scope, namer, routines := state.routines }
  let d ← match name with
    | some name => d.nameKey keyName name value
    | none => pure d
  return d.groupBy keyName rowName value

/-! ### Aggregates -/

/-- Binds the names in a scope that it lacks. -/
def bindMissing (s : Scope) : List (String × Expr) → Except Failure Scope
  | [] => .ok s
  | (name, statement) :: rest =>
    if s.hasVar name then bindMissing s rest
    else do bindMissing (← s.bind name statement none) rest

def scopeOf (d : Draft) : Category → Scope
  | .group => d.groupScope
  | .stream => d.streamScope

/-- Takes in a statement about the groups or the stream. -/
def addStatement (category : Category) (source : String) (d : Draft) (s : Stmt) :
    Except Failure Draft := do
  let scope := d.scopeOf category
  let ((name, statement), state) ← noting ("aggregation: " ++ source)
    ((Lowering.binding (some category) s).run ⟨scope, d.rowScope, d.namer, d.routines⟩)
  let helpers := state.scope.bindings.drop scope.bindings.length
  let outScope ← bindMissing d.outScope helpers
  let scope ← state.scope.bind name statement none
  let outScope ← outScope.bind name statement none
  let d := { d with
    outScope, rowScope := state.rows, namer := state.namer, routines := state.routines }
  match category with
  | .group => return { d with groupScope := scope }
  | .stream =>
    let groupScope ← d.groupScope.bind name statement none
    return { d with streamScope := scope, groupScope }

/-- Takes in the statements of a source. -/
def addSource (d : Draft) (category : Category) (source : String) : Except Failure Draft := do
  let stmts ← parseSource source
  stmts.foldlM (addStatement category source) d

/-! ### Assembly -/

/-- The accumulators of a category in some expressions, each once, in order. -/
def collect (category : Category) (exprs : List Expr) : List Fold :=
  let all := exprs.flatMap Expr.aggregates
  let wanted := all.filter fun (a, _) => a.category == category
  (wanted.foldl (fun found (a, args) =>
    if found.any fun f => f.accumulator.name == a.name then found
    else found ++ [⟨a, args⟩]) [])

def groupFolds (d : Draft) : List Fold :=
  collect .group (d.groupScope.bindings.map Prod.snd)

def streamFolds (d : Draft) : List Fold :=
  collect .stream (d.streamScope.bindings.map Prod.snd)

/-- The bindings of the keys and of the rows, each name once. -/
def helpers (d : Draft) : List Expr :=
  let keyed := d.keyScope.bindings
  let others := d.rowScope.bindings.filter fun (name, _) => !d.keyScope.hasVar name
  (keyed ++ others).map Prod.snd

def initLines (folds : List Fold) : Awk.Block Line Head := folds.map fun f => .line (.init f)

def updateLines (folds : List Fold) : Awk.Block Line Head := folds.map fun f => .line (.update f)

/-- The lines that finish accumulators, for those that need it. -/
def finishLines (folds : List Fold) : Awk.Block Line Head :=
  (folds.filter fun f => f.accumulator.finish.isSome).map fun f => .line (.finish f)

/-- The program of a draft, given how a group is printed. -/
def program (d : Draft) (options : Options) (print : Awk.Block Line Head) :
    Awk.Program Line Head :=
  let groups := d.groupFolds
  let streams := d.streamFolds
  let flush := finishLines (groups ++ streams) ++ print
  let takeOver : Awk.Block Line Head := d.keys.map fun k => .line (.takeOver k)
  let change := (if options.exposeGroups then [] else flush) ++ takeOver ++ initLines groups
  { routines := d.routines
    start := [.line .separator] ++ initLines groups ++ initLines streams
    row := d.helpers.map (fun s => .line (.prepare s))
      ++ d.keys.map (fun k => .line (.rowKey k))
      ++ [.head .firstRow takeOver, .head .laterRow [.head (.keyChanged d.keys) change]]
      ++ updateLines groups ++ updateLines streams
      ++ (if options.exposeGroups then flush else [])
    finish := if options.exposeGroups then [] else [.head .anyRow flush] }

end Draft

/-- What a key and statements about groups and the stream come to. Without a key all rows are one
    group. -/
def draft (schema : Schema) (key : Option String) (aggregates : List (Category × String))
    (options : Options) : Except Failure Draft := do
  let outputAll := options.outputAllKeys && key.isSome
  let keys ← parseSource (key.getD "1")
  let d ← keys.foldlM (Draft.addKey outputAll) (Draft.start schema)
  aggregates.foldlM (fun d (category, source) => d.addSource category source) d

/-- The program that groups the rows of a stream by a key and prints statements about them. -/
def compile (schema : Schema) (key : Option String) (aggregates : List (Category × String))
    (options : Options) : Except Failure Compiled := do
  let d ← draft schema key aggregates options
  let projection ← Projection.of d.outScope none schema.order
  let derived ← projection.schema none schema.metadata
  return ⟨d.program options projection.block, derived⟩

end GroupProgram

end RowAwk.Compile
