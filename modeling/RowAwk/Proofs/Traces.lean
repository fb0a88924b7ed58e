import RowAwk.Proofs.Lower

/-!
Lowering as a relation.

Lowering walks through an expression from left to right, and every call on the way is expanded in
the state that the walk has reached. `calls` lists these expansions for a lowering that succeeds,
each with what it gave and the state after it.

    x = abs(a) + min(b, abs(a))       ──▶       abs, abs, min

`Lowers` has one rule for each kind of expression that can be lowered. It is about lists: the parts
of an expression are lowered one after the other, in the state that the part before has left, and
the whole is made of what they give. What is proved along the rules holds of every lowering that
succeeds.
-/

namespace RowAwk.Compile

open Awk (Aggregate Category Expr)
open Syntax (Literal Stmt)
open Lower

/-- A call that has been expanded: its arguments, what it gave, and the state after it. -/
inductive Call where
  | library (function : Function) (args : Bound Expr) (result : Expr) (state : State)
  | aggregate (category : Category) (function : Aggregate) (args : List Expr) (result : Expr)
      (state : State)

/-- What follows a computation, if that succeeds. -/
def Lower.andThen {α γ : Type} (m : Lower α) (s : State) (k : α → State → List γ) : List γ :=
  match m.run s with
  | .ok (a, t) => k a t
  | .error _ => []

namespace Lowering

mutual

/-- The calls that lowering an expression expands, in order. -/
def calls (category : Option Category) : Syntax.Expr → State → List Call
  | .literal _ _, _ => []
  | .name _ _, _ => []
  | .tuple _ items, s => callsAll category items s
  | .list _ items, s => callsAll category items s
  | .call _ function args keywords, s =>
    match category, Aggregate.ofName? function.text with
    | some c, some a =>
      callsAll none args s.flip ++ (Lower.inRows (lowerAll none args)).andThen s fun args t =>
        (Aggregation.expand c a args).andThen t fun x u => [.aggregate c a args x u]
    | _, _ =>
      callsAll category args s ++ (lowerAll category args).andThen s fun positional t =>
        callsKeywords category keywords t ++
          (lowerKeywords category keywords).andThen t fun named u =>
            match Function.ofName? function.text with
            | some f =>
              match f.signature.bind positional named with
              | .ok bound => (Library.expand f bound).andThen u fun x v => [.library f bound x v]
              | .error _ => []
            | none => []
  | .subscript _ base _, s => calls category base s
  | .unary _ _ operand, s => calls category operand s
  | .binary _ _ lhs rhs, s =>
    calls category lhs s ++ (lower category lhs).andThen s fun _ t => calls category rhs t
  | .boolean _ _ operands, s => callsAll category operands s
  | .compare _ _ lhs rhs, s =>
    calls category lhs s ++ (lower category lhs).andThen s fun _ t => calls category rhs t
  | .conditional _ test yes no, s =>
    calls category test s ++ (lower category test).andThen s fun _ t =>
      calls category yes t ++ (lower category yes).andThen t fun _ u => calls category no u

def callsAll (category : Option Category) : List Syntax.Expr → State → List Call
  | [], _ => []
  | e :: es, s =>
    calls category e s ++ (lower category e).andThen s fun _ t => callsAll category es t

def callsKeywords (category : Option Category) :
    List (Syntax.KeywordArg Syntax.Expr) → State → List Call
  | [], _ => []
  | ⟨_, e⟩ :: rest, s =>
    calls category e s ++ (lower category e).andThen s fun _ t => callsKeywords category rest t

end

/-! ### The rules -/

/-- Expressions are lowered to others, from one state to another, and some calls are expanded on
    the way. -/
inductive Lowers : Option Category → List Syntax.Expr → State → List Expr → State → List Call → Prop
  | nil {c s} : Lowers c [] s [] s []
  | cons {c e es s x t xs u cs ds} : Lowers c [e] s [x] t cs → Lowers c es t xs u ds →
      Lowers c (e :: es) s (x :: xs) u (cs ++ ds)
  | literal {c span v k s} : constant? v = some k →
      Lowers c [.literal span v] s [.const k] s []
  | name {c span n s x t} : (resolve n).run s = .ok (x, t) → Lowers c [.name span n] s [x] t []
  | tuple {c span es s xs t cs} : es ≠ [] → Lowers c es s xs t cs →
      Lowers c [.tuple span es] s [.op .concat xs] t cs
  | aggregate {c span function a args s xs t x u cs} : Aggregate.ofName? function.text = some a →
      Lowers none args s.flip xs t.flip cs → (Aggregation.expand c a xs).run t = .ok (x, u) →
      Lowers (some c) [.call span function args []] s [x] u (cs ++ [.aggregate c a xs x u])
  | plain {c span function args s xs t cs} : Function.ofName? function.text = none →
      Lowers c args s xs t cs →
      Lowers c [.call span function args []] s [.call function.text xs] t cs
  | library {c span function f args keywords s xs t ys u b x v cs ds} :
      Function.ofName? function.text = some f → Lowers c args s xs t cs →
      Lowers c (keywords.map Syntax.KeywordArg.value) t ys u ds →
      f.signature.bind xs ((keywords.map fun k => k.name.text).zip ys) = .ok b →
      (Library.expand f b).run u = .ok (x, v) →
      Lowers c [.call span function args keywords] s [x] v (cs ++ (ds ++ [.library f b x v]))
  | subscript {c span base p v k s x t cs} : Lowers c [base] s [x] t cs → constant? v = some k →
      Lowers c [.subscript span base (.literal p v)] s [.subscript x (.const k)] t cs
  | unary {c span op e s x t cs} : Lowers c [e] s [x] t cs →
      Lowers c [.unary span op e] s [unary op x] t cs
  | binary {c span op lhs rhs s x y t cs} : Lowers c [lhs, rhs] s [x, y] t cs →
      Lowers c [.binary span op lhs rhs] s [binary op x y] t cs
  | boolean {c span op es s xs t cs} : Lowers c es s xs t cs →
      Lowers c [.boolean span op es] s [.op (boolean op) xs] t cs
  | comparison {c span op o lhs rhs s x y t cs} : comparison? op = some o →
      Lowers c [lhs, rhs] s [x, y] t cs → Lowers c [.compare span op lhs rhs] s [.op o [x, y]] t cs
  | membership {c span op lhs rhs p items s x xs t cs} : comparison? op = none →
      rhs ∈ [Syntax.Expr.list p items, .tuple p items] → items ≠ [] →
      Lowers c (lhs :: items) s (x :: xs) t cs →
      Lowers c [.compare span op lhs rhs] s [membership op x xs] t cs
  | conditional {c span test yes no s x y z t cs} : Lowers c [test, yes, no] s [x, y, z] t cs →
      Lowers c [.conditional span test yes no] s [.conditional x y z] t cs

/-! ### Whatever is lowered follows them -/

variable {s t : State}

theorem andThen_eq {α γ : Type} {m : Lower α} {a : α} (h : m.run s = .ok (a, t))
    (k : α → State → List γ) : m.andThen s k = k a t := by
  rw [Lower.andThen, h]

theorem literal_eq_ok {v : Literal} {x : Expr} (h : (literal v).run s = .ok (x, t)) :
    t = s ∧ ∃ k, constant? v = some k ∧ x = .const k := by
  rw [literal] at h
  split at h
  · rename_i k hk
    obtain ⟨rfl, rfl⟩ := Lower.pure_eq_ok.1 h
    exact ⟨rfl, k, hk, rfl⟩
  · exact absurd h fail_ne_ok

theorem index_eq_ok {e : Syntax.Expr} {x : Expr} (h : (index e).run s = .ok (x, t)) :
    t = s ∧ ∃ span v k, e = .literal span v ∧ constant? v = some k ∧ x = .const k := by
  rw [index.eq_def] at h
  split at h
  · obtain ⟨rfl, k, hk, rfl⟩ := literal_eq_ok h
    exact ⟨rfl, _, _, k, rfl, hk, rfl⟩
  · obtain ⟨rfl, k, hk, rfl⟩ := literal_eq_ok h
    exact ⟨rfl, _, _, k, rfl, hk, rfl⟩
  · exact absurd h fail_ne_ok

mutual

theorem lowers_lower : ∀ {category : Option Category} {e : Syntax.Expr} {s : State} {x : Expr}
    {t : State}, (lower category e).run s = .ok (x, t) →
      Lowers category [e] s [x] t (calls category e s)
  | _, .literal _ v, s, x, t, h => by
    rw [lower] at h
    obtain ⟨rfl, k, hk, rfl⟩ := literal_eq_ok h
    rw [calls]
    exact .literal hk
  | _, .name _ n, s, x, t, h => by
    rw [lower] at h
    rw [calls]
    exact .name h
  | _, .tuple _ [], s, x, t, h => by
    rw [lower] at h
    exact absurd h fail_ne_ok
  | _, .tuple _ (e :: es), s, x, t, h => by
    rw [lower] at h
    obtain ⟨xs, hxs, rfl⟩ := bind_pure_eq_ok.1 h
    rw [calls]
    exact .tuple (List.cons_ne_nil e es) (lowers_lowerAll hxs)
  | _, .list _ _, s, x, t, h => by
    rw [lower] at h
    exact absurd (Lower.noting_eq_ok.1 h) fail_ne_ok
  | _, .call _ function args keywords, s, x, v, h => by
    unfold lower at h
    split at h
    · rename_i c a ha
      split at h
      · rename_i hk
        obtain rfl := List.isEmpty_iff.1 hk
        obtain ⟨xs, t, hxs, h⟩ := bind_eq_ok.1 h
        simp only [calls, ha, andThen_eq hxs, andThen_eq h]
        exact .aggregate ha (lowers_lowerAll (inRows_eq_ok.1 hxs)) h
      · exact absurd h fail_ne_ok
    · rename_i hno
      obtain ⟨xs, t, hxs, hrest⟩ := bind_eq_ok.1 h
      clear h
      rw [calls]
      swap
      · exact hno
      rw [andThen_eq hxs]
      cases hf : Function.ofName? function.text with
      | some f =>
        simp only [hf] at hrest ⊢
        obtain ⟨named, u, hnamed, hrest⟩ := bind_eq_ok.1 hrest
        obtain ⟨ys, rfl, hys⟩ := lowers_lowerKeywords hnamed
        rw [andThen_eq hnamed]
        cases hb : f.signature.bind xs ((keywords.map fun k => k.name.text).zip ys) with
        | ok b =>
          simp only [hb] at hrest
          simp only [andThen_eq hrest]
          exact .library hf (lowers_lowerAll hxs) hys hb hrest
        | error e =>
          rw [hb] at hrest
          exact absurd hrest fail_ne_ok
      | none =>
        simp only [hf] at hrest ⊢
        split at hrest
        · rename_i hk
          obtain rfl := List.isEmpty_iff.1 hk
          obtain ⟨rfl, rfl⟩ := Lower.pure_eq_ok.1 hrest
          have hnone {c : Option Category} : (lowerKeywords c []).run t = .ok ([], t) := by
            rw [lowerKeywords]
            rfl
          rw [callsKeywords, andThen_eq hnone, List.append_nil, List.append_nil]
          exact .plain hf (lowers_lowerAll hxs)
        · exact absurd hrest fail_ne_ok
  | _, .subscript _ base i, s, x, t, h => by
    rw [lower] at h
    obtain ⟨x, t, hx, h⟩ := bind_eq_ok.1 h
    obtain ⟨y, hy, rfl⟩ := bind_pure_eq_ok.1 h
    obtain ⟨rfl, _, _, k, rfl, hk, rfl⟩ := index_eq_ok hy
    rw [calls]
    exact .subscript (lowers_lower hx) hk
  | _, .unary _ op operand, s, x, t, h => by
    rw [lower] at h
    obtain ⟨x, hx, rfl⟩ := bind_pure_eq_ok.1 h
    rw [calls]
    exact .unary (lowers_lower hx)
  | _, .binary _ op lhs rhs, s, x, t, h => by
    rw [lower] at h
    obtain ⟨x, t, hx, h⟩ := bind_eq_ok.1 h
    obtain ⟨y, hy, rfl⟩ := bind_pure_eq_ok.1 h
    rw [calls, andThen_eq hx]
    exact .binary (.cons (lowers_lower hx) (lowers_lower hy))
  | _, .boolean _ op operands, s, x, t, h => by
    rw [lower] at h
    obtain ⟨xs, hxs, rfl⟩ := bind_pure_eq_ok.1 h
    rw [calls]
    exact .boolean (lowers_lowerAll hxs)
  | _, .compare _ op lhs rhs, s, x, t, h => by
    unfold lower at h
    split at h
    · rename_i o ho
      obtain ⟨x, t, hx, h⟩ := bind_eq_ok.1 h
      obtain ⟨y, hy, rfl⟩ := bind_pure_eq_ok.1 h
      rw [calls, andThen_eq hx]
      exact .comparison ho (.cons (lowers_lower hx) (lowers_lower hy))
    · rename_i ho
      cases rhs with
      | list p items | tuple p items =>
        cases items with
        | nil => exact absurd h fail_ne_ok
        | cons item items =>
          obtain ⟨x, t, hx, h⟩ := bind_eq_ok.1 h
          obtain ⟨xs, hxs, rfl⟩ := bind_pure_eq_ok.1 h
          rw [calls, andThen_eq hx, calls]
          exact .membership (p := p) ho (by simp) (List.cons_ne_nil item items)
            (.cons (lowers_lower hx) (lowers_lowerAll hxs))
      | _ => exact absurd h fail_ne_ok
  | _, .conditional _ test yes no, s, x, t, h => by
    rw [lower] at h
    obtain ⟨x, t, hx, h⟩ := bind_eq_ok.1 h
    obtain ⟨y, u, hy, h⟩ := bind_eq_ok.1 h
    obtain ⟨z, hz, rfl⟩ := bind_pure_eq_ok.1 h
    rw [calls, andThen_eq hx, andThen_eq hy]
    exact .conditional (.cons (lowers_lower hx) (.cons (lowers_lower hy) (lowers_lower hz)))

theorem lowers_lowerAll : ∀ {category : Option Category} {es : List Syntax.Expr} {s : State}
    {xs : List Expr} {t : State}, (lowerAll category es).run s = .ok (xs, t) →
      Lowers category es s xs t (callsAll category es s)
  | _, [], s, xs, t, h => by
    rw [lowerAll] at h
    obtain ⟨rfl, rfl⟩ := Lower.pure_eq_ok.1 h
    rw [callsAll]
    exact .nil
  | _, e :: es, s, xs, t, h => by
    rw [lowerAll] at h
    obtain ⟨x, t, hx, h⟩ := bind_eq_ok.1 h
    obtain ⟨xs, hxs, rfl⟩ := bind_pure_eq_ok.1 h
    rw [callsAll, andThen_eq hx]
    exact .cons (lowers_lower hx) (lowers_lowerAll hxs)

theorem lowers_lowerKeywords : ∀ {category : Option Category}
    {ks : List (Syntax.KeywordArg Syntax.Expr)} {s : State} {named : List (String × Expr)}
    {t : State}, (lowerKeywords category ks).run s = .ok (named, t) →
      ∃ ys, named = (ks.map fun k => k.name.text).zip ys ∧
        Lowers category (ks.map Syntax.KeywordArg.value) s ys t (callsKeywords category ks s)
  | _, [], s, named, t, h => by
    rw [lowerKeywords] at h
    obtain ⟨rfl, rfl⟩ := Lower.pure_eq_ok.1 h
    rw [callsKeywords]
    exact ⟨[], rfl, .nil⟩
  | _, ⟨name, e⟩ :: ks, s, named, t, h => by
    rw [lowerKeywords] at h
    obtain ⟨y, t, hy, h⟩ := bind_eq_ok.1 h
    obtain ⟨named, hnamed, rfl⟩ := bind_pure_eq_ok.1 h
    obtain ⟨ys, rfl, hys⟩ := lowers_lowerKeywords hnamed
    rw [callsKeywords, andThen_eq hy]
    exact ⟨y :: ys, rfl, .cons (lowers_lower hy) hys⟩

end

end Lowering

/-! ### Statements -/

/-- The name that a statement binds. -/
def boundName? : Stmt → Option String
  | .assign target _ => some target.text
  | .value e => e.asName?

/-- The expression of a statement. -/
def stmtExpr : Stmt → Syntax.Expr
  | .assign _ e => e
  | .value e => e

theorem wellFormed_stmtExpr {P : Literal → Prop} {stmt : Stmt} (h : stmt.WellFormed P) :
    (stmtExpr stmt).WellFormed P := by
  cases stmt with
  | assign target e => exact h.2
  | value e => exact h

namespace Lowering

variable {stmt : Stmt}

/-- A binding has the name of its statement and the value of its expression. -/
theorem binding_eq_ok {category : Option Category} {s s' : State} {p : String × Expr}
    (h : (binding category stmt).run s = .ok (p, s')) :
    ∃ name x, boundName? stmt = some name ∧ p = (name, .assign name x) ∧
      (lower category (stmtExpr stmt)).run s = .ok (x, s') := by
  cases stmt with
  | assign target e =>
    obtain ⟨x, hx, rfl⟩ := bind_pure_eq_ok.1 h
    exact ⟨target.text, x, rfl, rfl, hx⟩
  | value e =>
    cases hname : e.asName? with
    | none =>
      simp only [binding, hname] at h
      exact absurd (Lower.noting_eq_ok.1 h) fail_ne_ok
    | some name =>
      simp only [binding, hname] at h
      obtain ⟨x, hx, rfl⟩ := bind_pure_eq_ok.1 h
      exact ⟨name, x, hname, rfl, hx⟩

/-- The value of a statement is that of its expression. -/
theorem value_eq_ok {s s' : State} {x : Expr} (h : (value stmt).run s = .ok (x, s')) :
    (lower none (stmtExpr stmt)).run s = .ok (x, s') := by
  cases stmt with
  | assign target e => exact absurd (Lower.noting_eq_ok.1 h) fail_ne_ok
  | value e => exact h

end Lowering

end RowAwk.Compile
