import RowAwk.Awk.Template

/-!
Aggregates and the variables that accumulate them.

An accumulator is a variable with three templates: what sets it up, what folds a row into it, and
what computes its final value if that is more than reading it. The last one leaves the accumulated
state as it is, so it can run after any row.
-/

namespace RowAwk.Awk

/-- The functions that fold a value of each row into one. -/
inductive Aggregate where
  | ifMin | ifMax | min | max | sum | product
  | concat | concatUniq | concatSorted | chainConcatUniq | concatSample
  | cnt | avg | median | var | first | last
deriving DecidableEq, Repr

namespace Aggregate

def name : Aggregate → String
  | .ifMin => "ifmin"
  | .ifMax => "ifmax"
  | .min => "min"
  | .max => "max"
  | .sum => "sum"
  | .product => "product"
  | .concat => "concat"
  | .concatUniq => "concat_uniq"
  | .concatSorted => "concat_sorted"
  | .chainConcatUniq => "chain_concat_uniq"
  | .concatSample => "concat_sample"
  | .cnt => "cnt"
  | .avg => "avg"
  | .median => "median"
  | .var => "var"
  | .first => "first"
  | .last => "last"

def all : List Aggregate :=
  [.ifMin, .ifMax, .min, .max, .sum, .product, .concat, .concatUniq, .concatSorted,
    .chainConcatUniq, .concatSample, .cnt, .avg, .median, .var, .first, .last]

/-- The aggregate with a given name. The variance has a long name too. -/
def ofName? (name : String) : Option Aggregate :=
  if name = "variance" then some .var else all.find? (·.name == name)

end Aggregate

/-- Which rows an accumulator covers: those of the current group, or all of them. -/
inductive Category where
  | group | stream
deriving DecidableEq, Repr

/-- How the names of accumulators start. -/
def Category.stem : Category → String
  | .group => "__grp_"
  | .stream => "__acc_"

structure Accumulator where
  name : String
  function : Aggregate
  category : Category
  init : String
  update : String
  finish : Option String
deriving DecidableEq, Repr

end RowAwk.Awk
