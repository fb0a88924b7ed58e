import Mathlib.Data.List.Forall2
import RowAwk.Proofs.Evaluation

/-!
Whole programs at work.

A `Machine` says what expressions mean. An `Engine` also runs what only grouping programs have: it
compares keys, and sets up, updates and finishes accumulators. What it does there is left open, but
for the names that it may set: each accumulator keeps to names of its own.

    BEGIN            start                       no row yet
    each row         awk's variables ◀── row;    row
    END              finish                      no row left

All variables live in one store, which lasts from row to row. Each `print` adds a moment to what has
been printed: the record, and the store as it is then. A program gives the records, in order.
-/

namespace RowAwk.Awk

open Compile (awkVariables)

/-- A row as awk reads it: its columns, and the variables that awk sets for it. -/
structure Row (V : Type) where
  columns : Nat → V
  words : Store V

/-- A machine for whole programs. -/
structure Engine (V : Type) extends Machine V where
  differs : V → V → Bool
  init : Fold → Store V → Store V
  update : Fold → (Nat → V) → Store V → Store V
  finish : Fold → Store V → Store V

/-- The names that the statements of an accumulator may set: those that start with its own, and one
    for values in between. -/
def Fold.owns (f : Fold) (name : String) : Bool :=
  name == "__tmp__" || f.accumulator.name.toList.isPrefixOf name.toList

/-- The accumulator that a line is about. -/
def Line.fold? : Line → Option Fold
  | .init f | .update f | .finish f => some f
  | _ => none

/-- What a line prints, and the variables of the program when it does. -/
structure Moment (V : Type) where
  store : Store V
  record : List V

/-- A program at work: its variables, how many rows it has seen, whether the last test was passed,
    and what it has printed. -/
structure Job (V : Type) where
  store : Store V
  rows : Nat
  taken : Bool
  printed : List (Moment V)

/-- The records that have been printed. -/
def Job.records {V : Type} (j : Job V) : List (List V) := j.printed.map Moment.record

namespace Engine

variable {V : Type} (E : Engine V)

/-- The names of an accumulator are set, and all others left alone. -/
def keeping (f : Fold) (new old : Store V) : Store V := fun x => if f.owns x then new x else old x

variable (columns : Nat → V)

/-- The store after a line. -/
def effect (σ : Store V) : Line → Store V
  | .separator => σ
  | .prepare statement => E.execute columns σ statement
  | .rowKey k => E.execute columns σ k.compute
  | .takeOver k => E.execute columns σ k.keep
  | .compute statements => statements.foldl (E.execute columns) σ
  | .print _ => σ
  | .init f => keeping f (E.init f σ) σ
  | .update f => keeping f (E.update f columns σ) σ
  | .finish f => keeping f (E.finish f σ) σ

/-- What a line prints. -/
def output (σ : Store V) : Line → List (Moment V)
  | .print values => [⟨σ, E.evalAll columns σ values⟩]
  | _ => []

/-- Whether the block under a head runs. -/
def passes (j : Job V) : Head → Bool
  | .holds test => E.truth (E.eval columns j.store test)
  | .firstRow => j.rows = 1
  | .laterRow => !j.taken
  | .keyChanged keys => keys.any fun k => E.differs (j.store k.name) (j.store k.rowName)
  | .anyRow => j.rows ≠ 0

mutual

def runItem (j : Job V) : Item Line Head → Job V
  | .line l =>
    { j with
      store := E.effect columns j.store l, printed := j.printed ++ E.output columns j.store l }
  | .block items => runBlock j items
  | .head h items =>
    if E.passes columns j h then { runBlock j items with taken := true }
    else { j with taken := false }

def runBlock (j : Job V) : Block Line Head → Job V
  | [] => j
  | item :: items => runBlock (runItem j item) items

end

/-- A row is read: the variables that awk sets are those of the row. -/
def arrive (row : Row V) (j : Job V) : Job V :=
  { j with
    rows := j.rows + 1, store := fun x => if x ∈ awkVariables then row.words x else j.store x }

/-- Runs a program on one more row. -/
def runRow (program : Program Line Head) (j : Job V) (row : Row V) : Job V :=
  E.runBlock row.columns (arrive row j) program.row

/-- Runs a program on some rows. The columns before the first and after the last row are those of
    `outside`. -/
def moments (program : Program Line Head) (outside : Nat → V) (σ : Store V)
    (rows : List (Row V)) : List (Moment V) :=
  let started := E.runBlock outside ⟨σ, 0, false, []⟩ program.start
  (E.runBlock outside (rows.foldl (E.runRow program) started) program.finish).printed

/-- The records that a program prints for some rows. -/
def run (program : Program Line Head) (outside : Nat → V) (σ : Store V) (rows : List (Row V)) :
    List (List V) :=
  (E.moments program outside σ rows).map Moment.record

/-! ### Running several lines -/

section

variable {E columns} {j : Job V}

theorem runBlock_append (a b : Block Line Head) :
    E.runBlock columns j (a ++ b) = E.runBlock columns (E.runBlock columns j a) b := by
  induction a generalizing j with
  | nil => rw [List.nil_append, runBlock]
  | cons item items ih => rw [List.cons_append, runBlock, runBlock, ih]

variable (E columns) in
/-- The store after some lines. -/
def effects {α : Type} (line : α → Line) (as : List α) (σ : Store V) : Store V :=
  as.foldl (fun σ a => E.effect columns σ (line a)) σ

/-- Lines that print nothing only change the store. -/
theorem runBlock_lines {α : Type} (line : α → Line) (hl : ∀ a v, line a ≠ .print v)
    (as : List α) :
    E.runBlock columns j (as.map fun a => .line (line a))
      = { j with store := E.effects columns line as j.store } := by
  unfold effects
  induction as generalizing j with
  | nil => rw [List.map_nil, runBlock, List.foldl_nil]
  | cons a as ih =>
    have hout : E.output columns j.store (line a) = [] := by
      cases h : line a with
      | print v => exact absurd h (hl a v)
      | _ => rfl
    rw [List.map_cons, runBlock, runItem, hout, List.append_nil, ih, List.foldl_cons]

theorem runBlock_separator : E.runBlock columns j [.line .separator] = j := by
  simp [runBlock, runItem, effect, output]

theorem effects_eq {α : Type} {line : α → Line} {as : List α} {x : String}
    (h : ∀ a ∈ as, ∀ σ, E.effect columns σ (line a) x = σ x) (σ : Store V) :
    E.effects columns line as σ x = σ x := by
  unfold effects
  induction as generalizing σ with
  | nil => rfl
  | cons a as ih =>
    rw [List.forall_mem_cons] at h
    rw [List.foldl_cons, ih h.2, h.1]

/-- The line of an accumulator leaves alone what it does not own. -/
theorem effect_of_not_owns {l : Line} {f : Fold} (hl : l.fold? = some f) {x : String}
    (h : f.owns x = false) (σ : Store V) : E.effect columns σ l x = σ x := by
  have hkeep (new : Store V) : keeping f new σ x = σ x := by rw [keeping, h]; rfl
  cases l with
  | init | update | finish =>
    cases hl
    exact hkeep _
  | _ => cases hl

mutual

theorem rows_runItem : ∀ (item : Item Line Head) (j : Job V), (E.runItem columns j item).rows = j.rows
  | .line _, _ => by rw [runItem]
  | .block items, j => by rw [runItem, rows_runBlock items j]
  | .head _ items, j => by
    rw [runItem]
    split
    · exact rows_runBlock items j
    · rfl

/-- Rows are counted where they are read. -/
theorem rows_runBlock : ∀ (items : Block Line Head) (j : Job V),
    (E.runBlock columns j items).rows = j.rows
  | [], _ => by rw [runBlock]
  | item :: items, j => by rw [runBlock, rows_runBlock items, rows_runItem item]

end

/-- If each row gives at most one record, all records come from some of the rows, in order. -/
theorem exists_sublist_records {program : Program Line Head} {R : List V → Row V → Prop}
    {rows : List (Row V)} (hrow : ∀ row ∈ rows, ∀ j, (E.runRow program j row).records = j.records ∨
      ∃ record, R record row ∧ (E.runRow program j row).records = j.records ++ [record])
    (j : Job V) : ∃ shown records, shown.Sublist rows ∧ List.Forall₂ R records shown ∧
      (rows.foldl (E.runRow program) j).records = j.records ++ records := by
  induction rows generalizing j with
  | nil => exact ⟨[], [], .slnil, .nil, by simp⟩
  | cons row rows ih =>
    rw [List.forall_mem_cons] at hrow
    obtain ⟨shown, records, hsub, hrecords, hprinted⟩ := ih hrow.2 (E.runRow program j row)
    rw [List.foldl_cons, hprinted]
    rcases hrow.1 j with h | ⟨record, hr, h⟩
    · exact ⟨shown, records, hsub.cons row, hrecords, by rw [h]⟩
    · exact ⟨row :: shown, record :: records, hsub.cons_cons row, .cons hr hrecords, by simp [h]⟩

end

end Engine

/-! ### Blocks of row programs -/

mutual

/-- Whether an item only computes, prints and tests, as those of row programs do. -/
def Item.isRowwise : Item Line Head → Bool
  | .line (.compute _) => true
  | .line (.print _) => true
  | .line _ => false
  | .block items => Block.isRowwise items
  | .head (.holds _) items => Block.isRowwise items
  | .head _ _ => false

def Block.isRowwise : Block Line Head → Bool
  | [] => true
  | item :: items => item.isRowwise && Block.isRowwise items

end

theorem Block.isRowwise_append (a b : Block Line Head) :
    Block.isRowwise (a ++ b) = (Block.isRowwise a && Block.isRowwise b) := by
  induction a with
  | nil => simp [isRowwise]
  | cons item items ih => rw [List.cons_append, isRowwise, isRowwise, ih, Bool.and_assoc]

namespace Engine

variable {V : Type} {E : Engine V} {columns : Nat → V}

mutual

/-- On such blocks an engine does what its machine does. -/
theorem runItem_rowwise : ∀ item : Item Line Head, item.isRowwise = true → ∀ j : Job V,
    (E.runItem columns j item).store = (E.toMachine.runItem columns j.store item).1 ∧
      (E.runItem columns j item).records
        = j.records ++ (E.toMachine.runItem columns j.store item).2
  | .line (.compute _), _, _ | .line (.print _), _, _ => by
    simp [runItem, Machine.runItem, effect, output, Job.records]
  | .block items, h, j => by
    rw [runItem, Machine.runItem]
    exact runBlock_rowwise items h j
  | .head (.holds test) items, h, j => by
    rw [runItem, Machine.runItem, passes]
    split
    · exact runBlock_rowwise items h j
    · simp [Job.records]

theorem runBlock_rowwise : ∀ items : Block Line Head, Block.isRowwise items = true → ∀ j : Job V,
    (E.runBlock columns j items).store = (E.toMachine.run columns j.store items).1 ∧
      (E.runBlock columns j items).records
        = j.records ++ (E.toMachine.run columns j.store items).2
  | [], _, _ => by simp [runBlock, Machine.run]
  | item :: items, h, j => by
    rw [Block.isRowwise, Bool.and_eq_true] at h
    obtain ⟨hstore, hprinted⟩ := runItem_rowwise item h.1 j
    obtain ⟨hstore', hprinted'⟩ :=
      runBlock_rowwise items h.2 (E.runItem columns j item)
    rw [hstore] at hstore' hprinted'
    rw [runBlock, Machine.run, hstore', hprinted', hprinted, List.append_assoc]
    exact ⟨rfl, rfl⟩

end

end Engine

/-! ### An engine for examples -/

/-- The variable that an accumulator counts in: one that needs finishing does so beside its own. -/
def Fold.slot (f : Fold) : String :=
  if f.accumulator.finish.isSome then f.accumulator.name ++ "_arr" else f.accumulator.name

/-- The engine over the integers: each accumulator is a sum. -/
def integerEngine : Engine Int where
  toMachine := integers
  differs a b := a ≠ b
  init f σ := Function.update σ f.slot 0
  update f columns σ := Function.update σ f.slot (σ f.slot + (integers.evalAll columns σ f.args).sum)
  finish f σ := Function.update σ f.accumulator.name (σ f.slot)

/-- A row of two numbers. -/
def rowOf (a b : Int) : Row Int := ⟨fun p => if p = 1 then a else b, fun _ => 0⟩

end RowAwk.Awk
