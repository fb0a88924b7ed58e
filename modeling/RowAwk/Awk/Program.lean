import RowAwk.Awk.Block
import RowAwk.Awk.Expr
import RowAwk.Awk.Routine

/-!
Awk programs, as statements and as texts, and the shell command that runs one.

A compiled program is made of statements that say what they do: compute bindings, print values,
set up, update or finish an accumulator. Their texts are only written out at the end.
-/

namespace RowAwk.Awk

/-- An accumulator with the arguments that it folds. -/
structure Fold where
  accumulator : Accumulator
  args : List Expr

namespace Fold

/-- A template of the accumulator filled in. -/
def expand (f : Fold) (template : String) : String :=
  Template.expand template f.accumulator.name (Expr.texts f.args)

def initText (f : Fold) : String := f.expand f.accumulator.init

def updateText (f : Fold) : String := f.expand f.accumulator.update

def finishText? (f : Fold) : Option String := f.accumulator.finish.map f.expand

end Fold

/-- A column or expression that rows are grouped by: the variable for the current group, the one
    for the current row, and what the latter is computed from. -/
structure Key where
  name : String
  rowName : String
  value : Expr

namespace Key

/-- The statement that computes the key of a row. -/
def compute (k : Key) : Expr := .assign k.rowName k.value

/-- The statement that makes the key of the row that of the group. -/
def keep (k : Key) : Expr := .assign k.name (.var k.rowName k.compute)

/-- The test for a row of another group. -/
def changed (k : Key) : String := k.name ++ "!=" ++ k.rowName

end Key

/-- A line of a program.

    * `prepare` computes a variable that the keys of a row or the arguments of aggregates need;
    * `rowKey` computes a key of the row, and `takeOver` makes it that of the group;
    * `compute` computes the variables that the printed values need. -/
inductive Line where
  | separator
  | prepare (statement : Expr)
  | rowKey (key : Key)
  | takeOver (key : Key)
  | compute (statements : List Expr)
  | print (values : List Expr)
  | init (fold : Fold)
  | update (fold : Fold)
  | finish (fold : Fold)

def Line.text : Line → String
  | .separator => "OFS=\"\\t\""
  | .prepare statement => statement.text
  | .rowKey key => key.compute.text
  | .takeOver key => key.keep.text
  | .compute statements => "; ".intercalate (Expr.texts statements)
  | .print values => "print(" ++ ",".intercalate (Expr.texts values) ++ ")"
  | .init fold => fold.initText
  | .update fold => fold.updateText
  | .finish fold => fold.finishText?.getD ""

/-- What a block in braces depends on. -/
inductive Head where
  | holds (test : Expr)
  | firstRow
  | laterRow
  | keyChanged (keys : List Key)
  | anyRow

def Head.text : Head → String
  | .holds test => "if(" ++ test.text ++ ")"
  | .firstRow => "if(NR==1)"
  | .laterRow => "else"
  | .keyChanged keys => "if(" ++ " || ".intercalate (keys.map Key.changed) ++ ")"
  | .anyRow => "if(NR!=0)"

/-- The functions that a program needs, and what it does before, on and after the rows. -/
structure Program (ι η : Type) where
  routines : List Routine
  start : Block ι η
  row : Block ι η
  finish : Block ι η

namespace Program

/-- A program with its lines and heads written out. -/
def written (p : Program Line Head) : Program String String where
  routines := p.routines
  start := Item.toTexts Line.text Head.text p.start
  row := Item.toTexts Line.text Head.text p.row
  finish := Item.toTexts Line.text Head.text p.finish

/-- A block of a program under its keyword, if it has items. -/
def sectionText (layout : Layout) (keyword : String) (block : Block String String) : String :=
  if block.isEmpty then "" else keyword ++ block.bracedText layout ++ layout.newline

/-- The text of a program: the functions it needs, then what comes before, on and after rows. -/
def text (layout : Layout) (p : Program String String) : String :=
  String.join (p.routines.map fun r => r.source ++ "\n")
    ++ sectionText layout "BEGIN" p.start
    ++ p.row.bracedText layout ++ layout.newline
    ++ sectionText layout "END" p.finish

/-- A text inside single quotes of the shell: a quote ends them, stands escaped, and starts them
    again. -/
def quoteForShell (cs : List Char) : List Char :=
  cs.flatMap fun c => if c = '\'' then ['\'', '\\', '\'', '\''] else [c]

/-- The shell command that runs a program on tab separated input. -/
def commandLine (p : Program String String) (awk args : String) : String :=
  "LC_ALL=C " ++ awk ++ " " ++ args ++ " -F $'\\t' '"
    ++ String.ofList (quoteForShell (p.text .compact).toList) ++ "'"

end Program

end RowAwk.Awk
