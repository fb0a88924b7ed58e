import RowAwk.Proofs.Hygiene
import RowAwk.Proofs.Meaning

/-!
What calls of the function library mean once they are expanded.

A helper that a call refers to may have been bound for another expression of an earlier statement,
one that only has the same text. Where no number is infinite, expressions of one text have one
value in every store, in particular in one where each variable has the value that its statement
means. So a reference to a helper means what the argument of the call means, and the expansion
means what the call does.

    x = abs(a - 1)          _abs0 = ($1 - 1)
    y = abs((a - 1))        refers to _abs0 again, since the text is the same
-/

open List

namespace RowAwk.Compile

open Awk (Const Expr Machine Store)
open Closed (Holds)
open Syntax (Literal Stmt)
open Awk.Machine
open Meaning

/-! ### One text, one value -/

section

variable {V : Type} {M : Machine V} {columns : Nat → V} {words : Store V}
variable {n : Namer} {B : List (String × Expr)}

/-- Values of one text over the same bindings mean the same. -/
theorem inlined_eq_of_text_eq (hM : M.NumbersTruth) (hn : n.Sound) (hB : Ordered n.entries B)
    {x y : Expr} (hx : Value B x) (hy : Value B y) (hx' : x.Lowered Const.Finite)
    (hy' : y.Lowered Const.Finite) (h : x.text = y.text) :
    M.inlined columns words x = M.inlined columns words y := by
  -- In the store after all statements every variable has the value that it means.
  obtain ⟨hs, hw⟩ : (∀ m c, (m, c) ∈ B → False ∨ true = true →
      Settled M columns words (computing M columns (fun _ => true) B words) m c) ∧
      ∀ w ∈ awkVariables, computing M columns (fun _ => true) B words w = words w :=
    settled_computing hn hB (fun _ => False) (fun _ _ _ h => h.elim) (fun _ _ => rfl)
      fun _ _ _ _ _ _ => .inl rfl
  have value {e : Expr} (he : Value B e) :
      M.eval columns (computing M columns (fun _ => true) B words) e
        = M.inlined columns words e :=
    eval_eq_inlined he hw fun m c hc _ => hs m c hc (.inr rfl)
  rw [← value hx, ← value hy, eval_eq_of_text_eq hM hx' hy' h]

end

section

variable {K : Expr → Prop} {E : List (String × String × Nat)}
variable {name : String}

/-- What a helper holds has the property of the parts of helpers. -/
theorem Helper.assigned {stem : String} {i : Nat} {w : Expr} (hs : Holds stem)
    (h : Helper K E (stem ++ toString i) (.assign name w)) : K w := by
  generalize hname : stem ++ toString i = target at h
  generalize hb : Expr.assign name w = b at h
  cases h with
  | held _ _ hv =>
    cases hb
    exact hv
  | split =>
    obtain ⟨rfl, -⟩ := stem_number_inj (mem_stems hs.1) (by decide) hname
    exact absurd (by decide) hs.2
  | line => cases hb

theorem Helper.parted {count array : String} {v d : Expr}
    (h : Helper K E count (splitting count array v d)) (hw : ∀ i, K i → i.splitting? = none)
    (ha : array ∉ awkVariables) : K v ∧ K d := by
  generalize hb : splitting count array v d = b at h
  cases h with
  | held _ _ hv =>
    cases hb
    have := hw _ hv
    rw [splitting?_split ha] at this
    cases this
  | split _ _ hv hd =>
    cases hb
    exact ⟨hv, hd⟩
  | line => cases hb

theorem Helper.read {target : String} {c : Expr} (h : Helper K E name (reading target c)) :
    K c := by
  generalize hb : reading target c = b at h
  cases h with
  | held | split => cases hb
  | line _ hc =>
    cases hb
    exact hc

end

/-! ### What expansions mean -/

/-- Expressions that lowering has built in a state. -/
structure Built (s : State) (e : Expr) : Prop where
  value : Value s.scope.bindings e
  lowered : e.Lowered Const.Finite

/-- States whose bindings are in order and whose helpers are the compiler's own. -/
structure Orderly (s : State) : Prop where
  order : Scoped s
  hygienic : Hygienic Const.Finite Free Free s

section

variable {V : Type} (M : Machine V) (columns : Nat → V) (words : Store V)

variable {M columns words} {s : State}

theorem Orderly.helper (hs : Orderly s) {name : String} {b : Expr}
    (hb : s.scope.binding? name = some b) (hn : isGenerated name = true) :
    Helper (Value s.scope.bindings) s.namer.entries name b ∧
      Helper (Expr.Lowered Const.Finite) s.namer.entries name b := by
  have hm := Scope.mem_of_binding? hb
  exact ⟨(hs.order.bindings.origin hm).helper hn,
    (hs.hygienic.scope name b hm).of_isGenerated (fun _ h => h) hn⟩

variable {x v e : Expr} {stem : String} {held : List Expr}

theorem Orderly.inlined_eq (hs : Orderly s) (hM : M.NumbersTruth) (columns : Nat → V)
    (words : Store V) {y : Expr} (hx : Built s x) (hy : Built s y) (h : x.text = y.text) :
    M.inlined columns words x = M.inlined columns words y :=
  inlined_eq_of_text_eq hM hs.order.namer hs.order.bindings hx.value hy.value hx.lowered
    hy.lowered h

theorem Held.inlined_eq (hs : Orderly s) (hM : M.NumbersTruth) (hst : Holds stem) (hv : Built s v)
    (h : Held s.scope stem v e) : M.inlined columns words e = M.inlined columns words v := by
  cases h with
  | column => rfl
  | var _ hb ht =>
    obtain ⟨hvalue, hlowered⟩ := hs.helper hb (isGenerated_number hst.1 _)
    rw [inlined]
    exact hs.inlined_eq hM columns words ⟨hvalue.assigned hst, hlowered.assigned hst⟩ hv ht

theorem Parted.inlined_eq (hs : Orderly s) (hM : M.NumbersTruth) {delim array count : Expr}
    (hd : Built s delim) (hv : Built s v) (h : Parted s.scope delim v (array, count)) :
    M.inlined columns words array
        = M.parts (M.inlined columns words v) (M.inlined columns words delim) ∧
      M.inlined columns words count
        = M.size (M.parts (M.inlined columns words v) (M.inlined columns words delim)) := by
  cases h with
  | @intro w d i j hb hw hd' =>
    have ha := not_mem_awkVariables (show "_split" ∈ libraryStems by decide) j
    obtain ⟨hvalue, hlowered⟩ := hs.helper hb (isGenerated_number (by decide) _)
    obtain ⟨hwv, hdv⟩ := hvalue.parted (fun _ h => h.splitting?) ha
    obtain ⟨hwl, hdl⟩ := hlowered.parted (fun _ h => h.splitting?) ha
    have hw := hs.inlined_eq hM columns words ⟨hwv, hwl⟩ hv hw
    have hd := hs.inlined_eq hM columns words ⟨hdv, hdl⟩ hd hd'
    constructor
    · rw [splitting, inlined, hw, hd]
    · rw [splitting, inlined, inlined, splitting?_split ha]
      simp only [inlinedAll, Option.isSome_some, Machine.apply, hw, hd]

theorem Fetched.inlined_eq (hs : Orderly s) (hM : M.NumbersTruth) {command : Expr}
    (hc : Built s command) (h : Fetched s.scope command e) :
    M.inlined columns words e = M.line (M.inlined columns words command) := by
  cases h with
  | intro hb ht =>
    obtain ⟨hvalue, hlowered⟩ := hs.helper hb (isGenerated_number (by decide) _)
    have hc := hs.inlined_eq hM columns words ⟨hvalue.read, hlowered.read⟩ hc ht
    rw [reading, inlined, hc]

/-- The arguments of a call, each taken for another. -/
def Bound.map {α β : Type} (g : α → β) (b : Bound α) : Bound β := ⟨b.values.map g, b.rest.map g⟩

theorem map_intersperse {α β : Type} (g : α → β) (d : α) : ∀ xs : List α,
    (xs.intersperse d).map g = (xs.map g).intersperse (g d)
  | [] => rfl
  | [_] => rfl
  | x :: y :: xs => by
    simp only [intersperse_cons_cons, map_cons, map_intersperse g d (y :: xs)]

/-- What a value is held as is no string, even if the value is one. -/
theorem Held.asString? {sc : Scope} (h : Held sc stem v e) : e.asString? = none := by
  cases h with
  | column hv =>
    cases v with
    | field => rfl
    | _ => cases hv
  | var => rfl

theorem Compared.asString? {o : Awk.Op} {sc : Scope} {vs : List Expr} (h : Compared o held x)
    (hheld : List.Forall₂ (Held sc stem) vs held) : x.asString? = none := by
  cases h with
  | one =>
    obtain _ | ⟨hx, _⟩ := hheld
    exact hx.asString?
  | node => rfl

variable [LinearOrder V]

end

end RowAwk.Compile
