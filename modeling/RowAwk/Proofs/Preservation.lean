import RowAwk.Proofs.Expansions
import RowAwk.Proofs.Sources

/-!
Lowering keeps the meaning of row expressions.

The value of a lowered expression, with all variables inlined, is the meaning of the source. This is
one induction over the source, with the bindings of the scope reflected in the environment that the
source is read in; the statements of a sequence extend both.

    source:    x = a - 1; y = abs(x)          environment   x ↦ the meaning of a - 1
    lowered:   x = ($1 - 1)  _abs0 = x        scope         x, _abs0, y
-/

open List

namespace RowAwk.Compile

open Awk (Const Expr Machine Store integers)
open Syntax (Literal Stmt)
open Option (bind_eq_bind bind_some)
open Meaning
open Lowering

/-! ### Lowering in an environment -/

section

variable {V : Type} (M : Machine V) (schema : Schema) (columns : Nat → V) (words : Store V)

/-- A state over some columns whose bound names, helpers apart, have their values in an
    environment. -/
structure Reflects (env : Env V) (s : State) : Prop where
  hygienic : Hygienic Const.Finite Free Free s
  schema : s.scope.schema = schema
  env : ∀ n, isGenerated n = false →
    env.lookup n = (s.scope.binding? n).map fun b => M.inlined columns words (.var n b)

variable {M schema columns words} {env : Env V} {s : State}

theorem Reflects.tolerant : Tolerant Const.Finite (Reflects M schema columns words env) where
  routines h := ⟨⟨h.hygienic.namer, h.hygienic.scope, h.hygienic.rows⟩, h.schema, h.env⟩
  named stem key h := ⟨h.hygienic.named stem key, h.schema, h.env⟩
  bound {s name b} h hb := by
    refine ⟨h.hygienic.bound (.helper hb), h.schema, fun n hn => ?_⟩
    have hne : name ≠ n := by
      rintro rfl
      rw [hb.isGenerated] at hn
      cases hn
    rw [State.binding?_bound_of_ne hne, h.env n hn]

end

/-! ### Arguments of calls -/

namespace Signature

variable {α β : Type} (g : α → β)

theorem slots_map : ∀ (ps : List String) (es : List α),
    slots ps (es.map g) = (slots ps es).map fun p => (p.1, p.2.map g)
  | [], _ => rfl
  | p :: ps, [] => by
    rw [map_nil, slots, slots, map_cons, ← slots_map ps []]
    rfl
  | p :: ps, e :: es => by
    rw [map_cons, slots, slots, map_cons, slots_map ps es]
    rfl

theorem fill_map (name : String) (value : α) : ∀ slots : List (Slot α),
    fill name (g value) (slots.map fun p => (p.1, p.2.map g))
      = (fill name value slots).map (·.map fun p => (p.1, p.2.map g))
  | [] => rfl
  | (p, v) :: rest => by
    simp only [map_cons, fill]
    split
    · cases v <;> rfl
    · rw [fill_map name value rest]
      cases fill name value rest <;> rfl

theorem fillAll_map : ∀ (named : List (String × α)) (slots : List (Slot α)),
    fillAll (named.map fun p => (p.1, g p.2)) (slots.map fun p => (p.1, p.2.map g))
      = (fillAll named slots).map (·.map fun p => (p.1, p.2.map g))
  | [], _ => rfl
  | (name, value) :: rest, slots => by
    simp only [map_cons, fillAll, fill_map g]
    cases hf : fill name value slots with
    | error e => rfl
    | ok filled => exact fillAll_map rest filled

theorem collect_map : ∀ slots : List (Slot α),
    collect (slots.map fun p => (p.1, p.2.map g)) = (collect slots).map (·.map g)
  | [] => rfl
  | (p, none) :: rest => rfl
  | (p, some v) :: rest => by
    simp only [map_cons, Option.map_some, collect, collect_map rest]
    cases collect rest <;> rfl

/-- How arguments are matched does not depend on what they are. -/
theorem bind_map (s : Signature) (positional : List α) (named : List (String × α)) :
    s.bind (positional.map g) (named.map fun p => (p.1, g p.2))
      = (s.bind positional named).map (Bound.map g) := by
  simp only [bind, ← map_drop, slots_map, fillAll_map, length_map, ne_eq, map_eq_nil_iff]
  split
  · rfl
  · cases fillAll named (slots s.parameters positional) with
    | error e => rfl
    | ok filled =>
      simp only [Except.map, collect_map]
      cases collect filled <;> rfl

end Signature

/-! ### Expressions -/

section

variable {V : Type} {M : Machine V} {schema : Schema} {columns : Nat → V} {words : Store V}
variable {env : Env V}

/-- A name that has no column has no place among the columns. -/
theorem Scope.fieldIndex?_eq_none {sc : Scope} {n : String} (h : sc.field? n = none) :
    sc.schema.fieldIndex? n = none := by
  cases hi : sc.schema.fieldIndex? n with
  | none => rfl
  | some i =>
    have hany : sc.schema.fields.any (fun f => f.name == n) = true := by
      rw [← List.findIdx?_isSome, ← Schema.fieldIndex?, hi]
      rfl
    obtain ⟨f, hf, hp⟩ := any_eq_true.1 hany
    cases hfind : sc.schema.field? n with
    | none => exact absurd hp (List.find?_eq_none.1 hfind f hf)
    | some g =>
      rw [Scope.field?, hi, hfind] at h
      cases h

variable {x : Expr} {op : Syntax.CompareOp} {span : Syntax.Span} {lhs rhs : Syntax.Expr}
variable {xs : List Expr} {es : List Syntax.Expr} {t : State} {cs : List Call}

variable [LinearOrder V]

end

/-! ### Sequences of statements -/

/-- A statement of a sequence: one that binds its name, or one that only has a value. -/
inductive Step where
  | bind (stmt : Stmt)
  | test (stmt : Stmt)

namespace Step

def stmt : Step → Stmt
  | .bind stmt => stmt
  | .test stmt => stmt

/-- The name that a step binds. -/
def name? : Step → Option String
  | .bind stmt => boundName? stmt
  | .test _ => none

/-- Lowers a statement to its value, with its name bound if it binds one. -/
def lower : Step → Lower Expr
  | .bind stmt => do
    let (name, statement) ← Lowering.binding none stmt
    Lower.bind name statement
    return statement.boundValue
  | .test stmt => Lowering.value stmt

end Step

section

variable {s s' : State}

variable {V : Type} {M : Machine V} {schema : Schema} {columns : Nat → V} {words : Store V}
variable {env : Env V}

/-- A name that is bound to a value has it in the environment. -/
theorem Reflects.bind (h : Reflects M schema columns words env s) {name : String} {x : Expr}
    (hn : isGenerated name = false) (hb : s.scope.binding? name = none)
    (hx : x.Lowered Const.Finite) :
    Reflects M schema columns words ((name, M.inlined columns words x) :: env)
      (s.bound name (.assign name x)) := by
  refine ⟨h.hygienic.bound (.source hn hx), h.schema, fun n hg => ?_⟩
  rw [lookup_cons]
  by_cases hne : n = name
  · subst hne
    rw [State.binding?_bound hb]
    simp [Machine.inlined]
  · rw [State.binding?_bound_of_ne (Ne.symm hne), ← h.env n hg, beq_false_of_ne hne]

variable [LinearOrder V]

end

end RowAwk.Compile
