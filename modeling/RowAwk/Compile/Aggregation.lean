import RowAwk.Compile.Lower

/-!
Calls of aggregates, turned into accumulators.

Two calls share an accumulator if they have the same templates and the same arguments: these are
the key under which it is named. An average and a variance are no accumulators themselves but
arithmetic over sums and a count, which they share with others.

A delimiter is part of the template of the calls that take one, as awk writes it.
-/

namespace RowAwk.Compile

open Awk (Aggregate Category Expr)

/-- The templates of an accumulator. -/
structure Templates where
  init : String
  update : String
  finish : Option String := none
deriving DecidableEq, Repr

namespace Templates

/-- The hole for the accumulator, as the templates below write it. -/
def self : String := "\x7bvar\x7d"

/-- The hole for the first argument. -/
def arg0 : String := "\x7barg0\x7d"

/-- The hole for the second argument. -/
def arg1 : String := "\x7barg1\x7d"

/-- Keeps the second argument of the row where the first one is best, starting from `seed`. -/
def ifBest (seed sign : String) : Templates where
  init := s!"{self}_cmp = {seed}; {self} = \"\";"
  update := s!"__tmp__={arg0}; if(__tmp__{sign}{self}_cmp)\x7b{self}_cmp=__tmp__; "
    ++ s!"{self}={arg1}\x7d;"

/-- Keeps the best value, starting from that of the first row. -/
def best (sign : String) : Templates where
  init := s!"{self}_init = 0"
  update := s!"__tmp__={arg0};if ({self}_init==0) \x7b{self}_init=1; {self}=__tmp__;\x7d"
    ++ s!"if(__tmp__{sign}{self})\x7b{self}=__tmp__\x7d;"

def sum : Templates where
  init := s!"{self} = 0;"
  update := s!"{self} += {arg0};"

def product : Templates where
  init := s!"{self} = 1;"
  update := s!"{self} *= {arg0};"

def count : Templates where
  init := s!"{self} = 0;"
  update := s!"{self} += 1;"

def median : Templates where
  init := s!"delete {self}_arr; {self}_cnt = 0;"
  update := s!"{self}_arr[++{self}_cnt] = {arg0};"
  finish := s!"__tmp__ = asort({self}_arr) / 2; {self} = int(__tmp__) == __tmp__ ? "
    ++ s!"({self}_arr[int(__tmp__)] + {self}_arr[int(__tmp__) + 1]) / 2 : "
    ++ s!"{self}_arr[int(__tmp__) + 1]"

def firstValue : Templates where
  init := s!"{self} = \"\"; {self}_unset = 1;"
  update := s!"if({self}_unset) \x7b{self} = {arg0}; {self}_unset = 0;\x7d"

def lastValue : Templates where
  init := s!"{self} = \"\";"
  update := s!"{self} = {arg0};"

def concat (delim : String) : Templates where
  init := s!"{self} = \"\";"
  update := s!"{self} = ({self}==\"\")?({arg0}):({self} {delim} {arg0});"

/-- Joins the sorted keys of the heap. -/
def joinHeap (delim : String) : String :=
  s!"{self} = \"\"; {self}_nitems = asorti({self}_heap, {self}_sorted);"
    ++ s!"for ({self}_i=1; {self}_i<={self}_nitems; {self}_i++) "
    ++ s!"{self} = ({self}==\"\")?({self}_sorted[{self}_i])"
    ++ s!":({self} {delim} {self}_sorted[{self}_i]);"
    ++ s!"delete {self}_sorted;"

def concatUniq (delim : String) : Templates where
  init := s!"{self} = \"\"; delete {self}_heap;"
  update := s!"{self}_heap[{arg0}]=\"\""
  finish := joinHeap delim

def concatSorted (delim : String) : Templates where
  init := s!"{self} = \"\"; delete {self}_heap; delete {self}_heap_count;"
  update := s!"{self}_heap[{arg0}]=\"\"; "
    ++ s!"if ({arg0} in {self}_heap_count) \x7b{self}_heap_count[{arg0}]++;\x7d "
    ++ s!"else \x7b{self}_heap_count[{arg0}] = 1;\x7d"
  finish := s!"{self} = \"\"; {self}_nitems = asorti({self}_heap, {self}_sorted); "
    ++ s!"for({self}_i=1; {self}_i<={self}_nitems; {self}_i++) \x7b"
    ++ s!"for ({self}_j=0; {self}_j<{self}_heap_count[{self}_sorted[{self}_i]]; {self}_j++) \x7b"
    ++ s!"if ({self} == \"\") \x7b{self} = {self}_sorted[{self}_i];\x7d "
    ++ s!"else \x7b{self} = {self} {delim} {self}_sorted[{self}_i];\x7d\x7d\x7d "
    ++ s!"delete {self}_sorted"

def chainConcatUniq (delim : String) : Templates where
  init := s!"{self} = \"\"; delete {self}_heap;"
  update := s!"split({arg0}, {self}_unjoin, {delim});"
    ++ s!"for ({self}_item in {self}_unjoin) {self}_heap[{self}_unjoin[{self}_item]]=\"\""
  finish := joinHeap delim

def concatSample (limit : Int) (delim : String) : Templates where
  init := s!"{self} = \"\"; {self}_cnt=0; delete {self}_heap;"
  update := s!"if (!({arg0} in {self}_heap) && {self}_cnt<{limit}) "
    ++ s!"\x7b{self}_heap[{arg0}]=\"\"; {self}_cnt += 1;\x7d"
  finish := joinHeap delim

end Templates

namespace Aggregation

/-- The accumulator of a function with templates and arguments. -/
def accumulate (category : Category) (function : Aggregate) (t : Templates) (args : List Expr) :
    Lower Expr := do
  let key := Namer.keyOf ([t.init, t.update, t.finish.getD ""] ++ Expr.texts args)
  let name ← Lower.nameFor category.stem key
  return .aggregate ⟨name, function, category, t.init, t.update, t.finish⟩ args

/-- Fails unless there are so many arguments. -/
def expectArgs (a : Aggregate) (args : List Expr) (count : Nat) : Lower Unit :=
  if args.length = count then pure ()
  else Lower.fail (.arity a.name (.notExactly count args.length))

/-- The arguments of an aggregate without its delimiter, and the delimiter as awk writes it: a
    comma unless one is given after the required arguments. -/
def delimited (a : Aggregate) (args : List Expr) (required : Nat) :
    Lower (List Expr × String) :=
  if args.length = required then return (args, Awk.stringText ",")
  else if args.length = required + 1 then
    match args.getLast? with
    | none => return (args, Awk.stringText ",")
    | some last =>
      match last.asString? with
      | some delim => return (args.dropLast, Awk.stringText delim)
      | none => Lower.fail (.argument a.name (.delimiter last.text))
  else Lower.fail (.arity a.name (.notWithin required args.length))

/-- The expression that a call of an aggregate stands for. -/
def expand (category : Category) (a : Aggregate) (args : List Expr) : Lower Expr :=
  match a with
  | .ifMin => do
    expectArgs a args 2
    accumulate category a (.ifBest "10^1000000" "<") args
  | .ifMax => do
    expectArgs a args 2
    accumulate category a (.ifBest "-10^1000000" ">") args
  | .min => do
    expectArgs a args 1
    accumulate category a (.best "<") args
  | .max => do
    expectArgs a args 1
    accumulate category a (.best ">") args
  | .sum => do
    expectArgs a args 1
    accumulate category .sum .sum args
  | .product => do
    expectArgs a args 1
    accumulate category a .product args
  | .cnt => do
    expectArgs a args 0
    accumulate category .cnt .count []
  | .avg => do
    expectArgs a args 1
    let sum ← accumulate category .sum .sum args
    let count ← accumulate category .cnt .count []
    return .op .div [sum, count]
  | .var => do
    expectArgs a args 1
    let squares ← accumulate category .sum .sum (args.map fun x => .op .pow [x, .int 2])
    let sum ← accumulate category .sum .sum args
    let count ← accumulate category .cnt .count []
    return .op .sub [.op .div [squares, count], .op .pow [.op .div [sum, count], .int 2]]
  | .median => do
    expectArgs a args 1
    accumulate category a .median args
  | .first => do
    expectArgs a args 1
    accumulate category a .firstValue args
  | .last => do
    expectArgs a args 1
    accumulate category a .lastValue args
  | .concat => do
    let (args, delim) ← delimited a args 1
    accumulate category a (.concat delim) args
  | .concatUniq => do
    let (args, delim) ← delimited a args 1
    accumulate category a (.concatUniq delim) args
  | .concatSorted => do
    let (args, delim) ← delimited a args 1
    accumulate category a (.concatSorted delim) args
  | .chainConcatUniq => do
    let (args, delim) ← delimited a args 1
    accumulate category a (.chainConcatUniq delim) args
  | .concatSample => do
    let (args, delim) ← delimited a args 2
    match args.getLast?.bind Expr.asConst? with
    | some (.int limit) => accumulate category a (.concatSample limit delim) args.dropLast
    | _ => Lower.fail (.argument a.name .limit)

end Aggregation

end RowAwk.Compile
