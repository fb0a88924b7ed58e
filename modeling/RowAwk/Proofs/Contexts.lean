import Mathlib.Data.List.InsertIdx
import RowAwk.Proofs.Scopes

/-!
Names in order, and the table of the statements that they are bound to.

A context keeps its bindings in two parts: a table that a name is looked up in, and the list of the
names in the order of the outputs. Requests come in any order, with or without a position, and some
of them fail:

    bind a          a           table: a
    bind b at 0     b  a               a  b
    bind a          b  a               a  b        refused
    bind c at 7     b  a  c            a  b  c

Nothing but the requests keeps the parts together. Whatever has been requested, going through the
names and looking each of them up meets every binding, once and in order, and what is met is the
scope that the same requests make of a single list.
-/

open List

namespace RowAwk.Compile

open Awk (Expr)

structure Context where
  schema : Schema
  table : Std.HashMap String Expr
  order : List String

/-- A name to bind, with its statement and the position that it is wanted at. -/
structure Request where
  name : String
  statement : Expr
  position : Option Nat

/-- What a request leaves: a new state, or the old one if it fails. -/
def settle {σ : Type} (s : σ) : Except Failure σ → σ
  | .ok s' => s'
  | .error _ => s

/-- A scope after one request, and after some. -/
def Scope.attempt (sc : Scope) (r : Request) : Scope :=
  settle sc (sc.bind r.name r.statement r.position)

def Scope.afterAll (schema : Schema) (requests : List Request) : Scope :=
  requests.foldl attempt (.of schema)

namespace Context

variable {c c' : Context} {r : Request} {n : String}

def of (schema : Schema) : Context := ⟨schema, ∅, []⟩

def binding? (c : Context) (name : String) : Option Expr := c.table[name]?

def hasVar (c : Context) (name : String) : Bool := c.table.contains name

/-- The bindings in order. A name that is not in the table is left out. -/
def iter (c : Context) : List (String × Expr) :=
  c.order.filterMap fun n => (c.binding? n).map (n, ·)

/-- Binds a name in the table, and puts it into the order: at the end, or at a position. -/
def bind (c : Context) (name : String) (statement : Expr) (position : Option Nat) :
    Except Failure Context :=
  if c.hasVar name then .error ⟨.alreadyBound name, []⟩
  else
    .ok ⟨c.schema, c.table.insert name statement,
      match position with
      | some p => c.order.insertIdx (min p c.order.length) name
      | none => c.order ++ [name]⟩

def attempt (c : Context) (r : Request) : Context :=
  settle c (c.bind r.name r.statement r.position)

def afterAll (schema : Schema) (requests : List Request) : Context :=
  requests.foldl attempt (.of schema)

/-! ### Two parts in step -/

/-- No name stands twice in the order, and those that stand there are the ones of the table. -/
structure InStep (c : Context) : Prop where
  once : c.order.Nodup
  bound : ∀ n, n ∈ c.order ↔ c.hasVar n = true

/-- Where a request puts its name: at its position if there is one, and never behind the end. -/
def place (c : Context) (r : Request) : Nat := min (r.position.getD c.order.length) c.order.length

/-- A request takes its place in the order, and all else stays: the columns, the other names in
    their order, and what they are bound to. -/
structure Inserts (c : Context) (r : Request) (c' : Context) : Prop where
  schema : c'.schema = c.schema
  entry : c'.order[c.place r]? = some r.name
  others : c'.order.eraseIdx (c.place r) = c.order
  table : ∀ n, c'.binding? n = if n = r.name then some r.statement else c.binding? n

theorem place_le (c : Context) (r : Request) : c.place r ≤ c.order.length := Nat.min_le_right ..

theorem hasVar_iff : c.hasVar n = true ↔ ∃ b, c.binding? n = some b := by
  rw [hasVar, Std.HashMap.contains_eq_isSome_getElem?, Option.isSome_iff_exists]
  rfl

theorem bind_of_hasVar (h : c.hasVar r.name = true) :
    c.bind r.name r.statement r.position = .error ⟨.alreadyBound r.name, []⟩ := if_pos h

theorem bind_eq (h : ¬ c.hasVar r.name = true) :
    c.bind r.name r.statement r.position = .ok
      ⟨c.schema, c.table.insert r.name r.statement, c.order.insertIdx (c.place r) r.name⟩ := by
  unfold bind place
  rw [if_neg h]
  cases r.position with
  | none => rw [Option.getD_none, Nat.min_self, insertIdx_length_self]
  | some p => rfl

theorem exists_inserts (h : ¬ c.hasVar r.name = true) :
    ∃ c', c.bind r.name r.statement r.position = .ok c' ∧ c.Inserts r c' := by
  refine ⟨_, bind_eq h, rfl, ?_, eraseIdx_insertIdx_self _, fun n => ?_⟩
  · rw [getElem?_insertIdx_self, if_pos (c.place_le r)]
  · rw [binding?, Std.HashMap.getElem?_insert, binding?]
    simp only [beq_iff_eq, eq_comm (b := n)]

namespace InStep

theorem of (schema : Schema) : (Context.of schema).InStep :=
  ⟨nodup_nil, fun n => by simp [Context.of, hasVar]⟩

theorem attempt (h : c.InStep) (r : Request) : (c.attempt r).InStep := by
  by_cases hr : c.hasVar r.name = true
  · rw [Context.attempt, bind_of_hasVar hr]
    exact h
  rw [Context.attempt, bind_eq hr]
  have hperm := perm_insertIdx r.name c.order (c.place_le r)
  refine ⟨hperm.nodup_iff.2 (nodup_cons.2 ⟨fun hm => hr ((h.bound _).1 hm), h.once⟩), fun n => ?_⟩
  rw [settle, hperm.mem_iff, mem_cons, h.bound, hasVar, hasVar, Std.HashMap.contains_insert,
    Bool.or_eq_true, beq_iff_eq, eq_comm]

theorem afterAll (schema : Schema) (requests : List Request) :
    (Context.afterAll schema requests).InStep :=
  List.foldlRecOn requests Context.attempt (of schema) fun _ h r _ => h.attempt r

/-- No name of the order is left out, so that `b` never has to stand in for a statement. -/
theorem iter_eq (h : c.InStep) (b : Expr) :
    c.iter = c.order.map fun n => (n, (c.binding? n).getD b) := by
  rw [iter, ← filterMap_eq_map]
  refine filterMap_congr fun n hn => ?_
  obtain ⟨d, hd⟩ := hasVar_iff.1 ((h.bound n).1 hn)
  rw [Function.comp_apply, hd]
  rfl

theorem names_iter (h : c.InStep) : c.iter.map Prod.fst = c.order := by
  rw [h.iter_eq (.field "" 0 .str), map_map]
  exact map_id _

theorem mem_iter (h : c.InStep) {b : Expr} : (n, b) ∈ c.iter ↔ c.binding? n = some b := by
  simp only [iter, mem_filterMap, Option.map_eq_some_iff]
  constructor
  · rintro ⟨_, -, d, hd, hp⟩
    cases hp
    exact hd
  · exact fun hb => ⟨n, (h.bound n).2 (hasVar_iff.2 ⟨b, hb⟩), b, hb, rfl⟩

end InStep

/-! ### Contexts as scopes -/

/-- The scope that a context stands for. -/
def scope (c : Context) : Scope := ⟨c.schema, c.iter⟩

theorem InStep.binding?_scope (h : c.InStep) (n : String) : c.scope.binding? n = c.binding? n := by
  have hnames : c.scope.names = c.order := h.names_iter
  ext b
  rw [Scope.binding?_eq_some_iff (hnames ▸ h.once), ← h.mem_iter]
  rfl

theorem InStep.hasVar_scope (h : c.InStep) (n : String) : c.scope.hasVar n = c.hasVar n := by
  rw [Scope.hasVar, h.binding?_scope, hasVar, Std.HashMap.contains_eq_isSome_getElem?]
  rfl

theorem take_append_cons_drop {α : Type} (x : α) (l : List α) (p : Nat) :
    l.take p ++ x :: l.drop p = l.insertIdx (min p l.length) x := by
  induction l generalizing p with
  | nil => simp
  | cons y l ih =>
    cases p with
    | zero => simp
    | succ p => simp [ih]

/-- Going through a context meets a new binding at its place, and the others as before. -/
theorem InStep.iter_bind (h : c.InStep) (hr : ¬ c.hasVar r.name = true)
    (hb : c.bind r.name r.statement r.position = .ok c') :
    c'.iter = c.iter.insertIdx (c.place r) (r.name, r.statement) := by
  obtain ⟨_, hb', hi⟩ := exists_inserts hr
  cases hb.symm.trans hb'
  have h' := h.attempt r
  rw [Context.attempt, hb] at h'
  have horder : c'.order = c.order.insertIdx (c.place r) r.name := by
    rw [bind_eq hr] at hb
    cases hb
    rfl
  have hold : ∀ n ∈ c.order, c'.binding? n = c.binding? n := by
    intro n hn
    have hne : n ≠ r.name := fun he => hr ((h.bound _).1 (he ▸ hn))
    rw [hi.table, if_neg hne]
  rw [settle] at h'
  rw [h'.iter_eq r.statement, h.iter_eq r.statement, horder, map_insertIdx, hi.table, if_pos rfl]
  exact congrArg (insertIdx · _ _) (map_congr_left fun n hn => by rw [hold n hn])

/-- A context answers a request as its scope does. -/
theorem InStep.map_bind (h : c.InStep) (r : Request) :
    (c.bind r.name r.statement r.position).map scope
      = c.scope.bind r.name r.statement r.position := by
  by_cases hr : c.hasVar r.name = true
  · rw [bind_of_hasVar hr, Scope.bind, if_pos (h.hasVar_scope r.name ▸ hr)]
    rfl
  obtain ⟨c', hb, hi⟩ := exists_inserts hr
  have hlength : c.order.length = c.iter.length := by rw [← h.names_iter, length_map]
  rw [hb, Scope.bind, if_neg (h.hasVar_scope r.name ▸ hr)]
  refine congrArg Except.ok ?_
  rw [scope, hi.schema, h.iter_bind hr hb, place, hlength]
  exact congrArg (Scope.mk _) (take_append_cons_drop _ c.iter _).symm

theorem InStep.scope_attempt (h : c.InStep) (r : Request) :
    (c.attempt r).scope = c.scope.attempt r := by
  rw [Context.attempt, Scope.attempt, ← h.map_bind]
  cases c.bind r.name r.statement r.position <;> rfl

theorem afterAll_concat (schema : Schema) (requests : List Request) (r : Request) :
    afterAll schema (requests ++ [r]) = (afterAll schema requests).attempt r := by
  rw [afterAll, foldl_concat, ← afterAll]

/-- Requests make of a context what they make of a scope. -/
theorem scope_afterAll (schema : Schema) (requests : List Request) :
    (afterAll schema requests).scope = Scope.afterAll schema requests := by
  induction requests using List.reverseRecOn with
  | nil => rfl
  | append_singleton requests r ih =>
    rw [afterAll_concat, (InStep.afterAll schema requests).scope_attempt, ih, Scope.afterAll,
      Scope.afterAll, foldl_concat]

/-- After any requests the order and the table of a context are in step, and going through it meets
    the bindings of the scope that the same requests make. One more request for a fresh name
    succeeds and takes its place; one for a bound name is refused and leaves everything as it
    was. -/
theorem names_in_step_with_statements (schema : Schema) (requests : List Request) :
    let c := afterAll schema requests
    (c.InStep ∧ c.iter.map Prod.fst = c.order ∧ ∀ n b, (n, b) ∈ c.iter ↔ c.binding? n = some b) ∧
      (c.scope = Scope.afterAll schema requests ∧ ∀ n, c.scope.binding? n = c.binding? n) ∧
      ∀ r : Request,
        (c.bind r.name r.statement r.position).map scope
          = c.scope.bind r.name r.statement r.position ∧
        (r.name ∉ c.order → ∃ c', c.bind r.name r.statement r.position = .ok c' ∧
          afterAll schema (requests ++ [r]) = c' ∧ c.Inserts r c') ∧
        (r.name ∈ c.order →
          c.bind r.name r.statement r.position = .error ⟨.alreadyBound r.name, []⟩ ∧
          afterAll schema (requests ++ [r]) = c) := by
  have h := InStep.afterAll schema requests
  refine ⟨⟨h, h.names_iter, fun n b => h.mem_iter⟩,
    ⟨scope_afterAll schema requests, h.binding?_scope⟩,
    fun r => ⟨h.map_bind r, fun hr => ?_, fun hr => ?_⟩⟩
  · obtain ⟨c', hb, hinserts⟩ := exists_inserts fun hv => hr ((h.bound _).2 hv)
    exact ⟨c', hb, by rw [afterAll_concat, attempt, hb]; rfl, hinserts⟩
  · have hb := bind_of_hasVar ((h.bound _).1 hr)
    exact ⟨hb, by rw [afterAll_concat, attempt, hb]; rfl⟩

end Context

end RowAwk.Compile
