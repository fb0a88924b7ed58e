import RowAwk.Proofs.Helpers
import RowAwk.Proofs.Materialization
import RowAwk.Proofs.Scopes
import RowAwk.Proofs.Shapes

/-!
What the text of an expression tells about the expression.

A text shows the name of a variable and the position of a column, and a truth value as a number.
What it leaves out can be looked up where the expression was lowered:

    text      node                      from
    x         var "x" (x = $1)          the scope binds `x` to that statement
    $2        field "b" 2 number        the second column of the stream
    1         const 1, const true       nothing tells them apart

So two expressions with one text are one expression, up to truth values and up to the kind of word
that a name is.
-/

open List

namespace RowAwk

namespace Awk

namespace Expr

mutual

/-- The expression with truth values as numbers, in which every name is a word of awk. -/
def plain : Expr → Expr
  | .const c => .const c.plain
  | .field name position type => .field name position type
  | .var name _ | .builtin name | .sideEffect name _ => .builtin name
  | .call function args => .call function (plainAll args)
  | .subscript base index => .subscript (plain base) (plain index)
  | .op o args => .op o (plainAll args)
  | .conditional test yes no => .conditional (plain test) (plain yes) (plain no)
  | .assign target value => .assign target (plain value)
  | .aggregate accumulator _ => .builtin accumulator.name

def plainAll : List Expr → List Expr
  | [] => []
  | e :: es => plain e :: plainAll es

end

mutual

/-- The constants, columns and names in the text of an expression. What a variable is bound to is
    not written there. -/
def atoms : Expr → List Expr
  | .call _ args | .op _ args => atomsAll args
  | .subscript base index => atoms base ++ atoms index
  | .conditional test yes no => atoms test ++ atoms yes ++ atoms no
  | .assign _ value => atoms value
  | e => [e]

def atomsAll : List Expr → List Expr
  | [] => []
  | e :: es => atoms e ++ atomsAll es

end

/-- Whether a constant, column or name is no infinite number. -/
def isFiniteAtom : Expr → Bool
  | .const (.float x) => x.isFinite
  | _ => true

/-- Whether all numbers in the text of an expression are finite. -/
def isFinite (e : Expr) : Bool := e.atoms.all isFiniteAtom

theorem forall_mem_atomsAll {Q : Expr → Prop} : ∀ {es : List Expr},
    (∀ a ∈ atomsAll es, Q a) ↔ ∀ e ∈ es, ∀ a ∈ e.atoms, Q a
  | [] => by simp [atomsAll]
  | e :: es => by
    rw [atomsAll, forall_mem_append, forall_mem_cons, forall_mem_atomsAll]

end Expr

/-! ### From shapes to expressions -/

namespace Shape

/-- The column at a position of a stream. -/
def column (schema : Schema) (position : Nat) : Expr :=
  match schema.fields[position - 1]? with
  | some f => .field f.name position f.type
  | none => .builtin ""

/-- A number or a name. -/
noncomputable def ofWord : List Char → Expr
  | [] => .builtin ""
  | c :: cs =>
    if c.isDigit then .const (.ofNumeral (c :: cs)) else .builtin (String.ofList (c :: cs))

section

variable (schema : Schema)

mutual

/-- The plain expression over the columns of a stream that has a shape. -/
noncomputable def plain : Shape → Expr
  | .word cs => ofWord cs
  | .string cs => .const (.str (String.ofList cs))
  | .field digits => column schema (Nat.ofDigitChars 10 digits 0)
  | .call function args => .call function (plainAll args)
  | .subscript base index => .subscript (plain base) (plain index)
  | .op o args => .op o (plainAll args)
  | .conditional test yes no => .conditional (plain test) (plain yes) (plain no)

noncomputable def plainAll : List Shape → List Expr
  | [] => []
  | s :: ss => plain s :: plainAll ss

end

end

theorem ofWord_name {n : String} (h : Syntax.isName n = true) : ofWord n.toList = .builtin n := by
  rw [Syntax.isName] at h
  cases hn : n.toList with
  | nil => simp [hn] at h
  | cons c cs =>
    simp only [hn, Bool.and_eq_true] at h
    rw [ofWord, if_neg (Syntax.Lexeme.isDigit_isNameStart h.1), ← hn, String.ofList_toList]

theorem ofWord_numeral {c : Const} (hc : c.Written) (hn : c.isNumeral = true) :
    ofWord c.text.toList = .const c.plain := by
  obtain ⟨-, d, ds, ht, hd⟩ := hc.numeral hn
  rw [ht, ofWord, if_pos hd, ← ht, Const.ofNumeral_text hc hn]

theorem column_of_field? {sc : Compile.Scope} {n : String} {p : Nat} {t : Schema.FieldType}
    (h : sc.field? n = some (.field n p t)) : column sc.schema p = .field n p t := by
  obtain ⟨i, hi, h⟩ := Option.bind_eq_some_iff.1 h
  obtain ⟨f, hf, h⟩ := Option.bind_eq_some_iff.1 h
  cases h
  have hget : sc.schema.fields[i]? = some f := by
    rw [← hf, Schema.field?, List.find?_eq_bind_findIdx?_getElem?, ← Schema.fieldIndex?, hi]
    rfl
  have hname : f.name = n := by simpa using List.find?_some hf
  rw [column, Nat.add_sub_cancel, hget, ← hname]

end Shape

end Awk

namespace Compile

open Awk (Category Const Expr Shape)
open Syntax (Literal)

/-- The scope has what a name or a column refers to. -/
def Scope.Has (sc : Scope) : Expr → Prop
  | .field n p t => sc.field? n = some (.field n p t)
  | .var n b => (n, b) ∈ sc.bindings
  | _ => True

theorem Scope.Has.mono {s s' : State} (hg : s.Grows s') : ∀ {e : Expr}, s.scope.Has e →
    s'.scope.Has e
  | .field .., h => by
    rw [Has, field?, hg.schema]
    exact h
  | .var .., h => hg.scope.subset h
  | .const _, _ | .builtin _, _ | .sideEffect .., _ | .call .., _ | .subscript .., _ | .op .., _
  | .conditional .., _ | .assign .., _ | .aggregate .., _ => trivial

theorem plainAll_shapes {schema : Schema} : ∀ {args : List Expr},
    (∀ a ∈ args, a.plain = a.shape.plain schema) →
      Expr.plainAll args = Shape.plainAll schema (Expr.shapes args)
  | [], _ => by rw [Expr.plainAll, Expr.shapes, Shape.plainAll]
  | a :: args, h => by
    rw [Expr.plainAll, Expr.shapes, Shape.plainAll, h a mem_cons_self,
      plainAll_shapes fun x hx => h x (mem_cons_of_mem a hx)]

/-- The shape of an expression decides the expression, up to what is alike in plain ones. -/
theorem plain_eq_plain_shape {sc : Scope} {e : Expr} (h : e.Lowered Const.Written)
    (ha : ∀ a ∈ e.atoms, a.isFiniteAtom = true ∧ sc.Has a) : e.plain = e.shape.plain sc.schema := by
  induction h with
  | @const c hc =>
    cases c with
    | str v =>
      rw [Expr.plain, Expr.shape, Shape.plain, String.ofList_toList]
      rfl
    | float x =>
      have hx := (ha _ mem_cons_self).1
      exact (Shape.ofWord_numeral hc hx).symm
    | int n | bool b => exact (Shape.ofWord_numeral hc rfl).symm
  | field =>
    rw [Expr.plain, Expr.shape, Shape.plain, Number.ofDigitChars_toString,
      Shape.column_of_field? (ha _ mem_cons_self).2]
  | var hn | sideEffect hn | aggregate hn => exact (Shape.ofWord_name hn).symm
  | builtin hn => exact (Shape.ofWord_name (Expr.isName_of_mem_awkVariables hn)).symm
  | call _ _ ih | op _ _ ih =>
    rw [Expr.atoms, Expr.forall_mem_atomsAll] at ha
    rw [Expr.plain, Expr.shape, Shape.plain, plainAll_shapes fun a hm => ih a hm (ha a hm)]
  | @sign f a _ _ ih =>
    rw [Expr.atoms, Expr.forall_mem_atomsAll, forall_mem_singleton] at ha
    rw [Expr.plain, Expr.shape, Shape.plain, plainAll_shapes (by simpa using ih ha)]
  | subscript _ _ ihb ihi =>
    rw [Expr.atoms, forall_mem_append] at ha
    rw [Expr.plain, Expr.shape, Shape.plain, ihb ha.1, ihi ha.2]
  | conditional _ _ _ iht ihy ihn =>
    rw [Expr.atoms, forall_mem_append, forall_mem_append] at ha
    rw [Expr.plain, Expr.shape, Shape.plain, iht ha.1.1, ihy ha.1.2, ihn ha.2]

/-! ### References of lowered expressions -/

/-- All names and columns in the text of an expression refer to something in the scope. -/
def Anchored (s : State) (e : Expr) : Prop := ∀ a ∈ e.atoms, s.scope.Has a

theorem furnishes_anchored : Furnishes (fun s => s.scope.names.Nodup) Anchored where
  grows hg he a ha := (he a ha).mono hg
  named _ _ h := h
  bound hi hn _ := by
    rw [State.bound, Scope.names, map_append]
    exact nodup_append_comm.1 (nodup_cons.2 ⟨Scope.not_mem_of_binding? hn, hi⟩)
  held _ _ hb := forall_mem_singleton.2 hb
  element _ _ _ _ hx := forall_mem_cons.2 ⟨trivial, hx⟩
  line _ _ _ := forall_mem_singleton.2 trivial

theorem closed_anchored : Closed Literal.Spelt (fun s => s.scope.names.Nodup) Anchored where
  grows hg he a ha := (he a ha).mono hg
  routines _ h := h
  string := Literal.spelt_string
  digit := Literal.spelt_digit
  const _ _ := forall_mem_singleton.2 trivial
  field hf := by
    obtain ⟨i, type, -, rfl⟩ := Scope.field?_cases hf
    exact forall_mem_singleton.2 hf
  var _ _ hm := forall_mem_singleton.2 hm
  word _ := forall_mem_singleton.2 trivial
  call _ _ ha := Expr.forall_mem_atomsAll.2 ha
  sign _ ha := Expr.forall_mem_atomsAll.2 (forall_mem_singleton.2 ha)
  subscript hb hi := forall_mem_append.2 ⟨hb, hi⟩
  op _ ha := Expr.forall_mem_atomsAll.2 ha
  conditional ht hy hn := forall_mem_append.2 ⟨forall_mem_append.2 ⟨ht, hy⟩, hn⟩
  helper hs hs' hv := furnishes_anchored.helper ⟨hs, hs'⟩ hv
  split hd hv := furnishes_anchored.split hd hv
  shell hc := furnishes_anchored.shell hc

theorem closedRows_anchored (c : Category) :
    ClosedRows Literal.Spelt (fun s => s.scope.names.Nodup) (fun s => s.rows.names.Nodup) Anchored
      (fun _ e => e.Lowered Const.Written) c where
  rows := closed_lowered ⟨fun h => h, fun _ _ h => h, fun h _ => h⟩ admits_spelt
  flip _ := .rfl
  accumulate _ _ := (lands_nameFor fun h => h).bind fun _ _ _ _ _ =>
    lands_pure fun _ => forall_mem_singleton.2 trivial

/-- Every variable in the text of an expression carries what the scope binds its name to. -/
def Scope.Backs (sc : Scope) (e : Expr) : Prop :=
  ∀ n b, .var n b ∈ e.atoms → sc.binding? n = some b

theorem Anchored.backs {s : State} {e : Expr} (h : Anchored s e) (hs : s.scope.names.Nodup) :
    s.scope.Backs e :=
  fun _ _ hm => (Scope.binding?_eq_some_iff hs).2 (h _ hm)

/-- What lowering builds consists of known words and constants, over what the scope has. -/
theorem lowered_over_scope {source : String} {e : Syntax.Expr}
    (hp : Syntax.Expr.parse source = .ok e) {category : Option Category} {s s' : State} {x : Expr}
    (hs : s.scope.names.Nodup) (h : (Lowering.lower category e).run s = .ok (x, s')) :
    x.Lowered Const.Written ∧ s.Grows s' ∧ s'.scope.names.Nodup ∧ Anchored s' x := by
  have htrue : Tolerant Const.Written fun _ => True :=
    ⟨fun _ => trivial, fun _ _ _ => trivial, fun _ _ => trivial⟩
  have hw := Syntax.wellFormed_parse hp
  obtain ⟨-, -, hx⟩ := (closed_lowered htrue admits_spelt).lower
    (fun c _ => closedRows_lowered htrue htrue admits_spelt (fun _ => Iff.rfl) c) e hw s trivial
    x s' h
  obtain ⟨hs', hg, hr⟩ := closed_anchored.lower (fun c _ => closedRows_anchored c) e hw s hs x s' h
  exact ⟨hx, hg, hs', hr⟩

/-- Two lowered expressions over the columns of one stream that have one text are one expression,
    up to truth values and to what kind of word a name is. What a variable is bound to is what the
    scope binds its name to, and in a scope that goes on to grow both expressions have the same
    statements behind their variables. -/
theorem texts_tell_expressions {source source' : String} {e e' : Syntax.Expr}
    (hp : Syntax.Expr.parse source = .ok e) (hp' : Syntax.Expr.parse source' = .ok e')
    {category category' : Option Category} {s s' t t' : State} {x y : Expr}
    (hs : s.scope.names.Nodup) (ht : t.scope.names.Nodup) (hst : t.scope.schema = s.scope.schema)
    (hx : (Lowering.lower category e).run s = .ok (x, s'))
    (hy : (Lowering.lower category' e').run t = .ok (y, t'))
    (hfx : x.isFinite = true) (hfy : y.isFinite = true) (h : x.text = y.text) :
    x.plain = y.plain ∧ s'.scope.Backs x ∧ t'.scope.Backs y ∧
      (s'.Grows t → t'.scope.Backs x) := by
  obtain ⟨hlx, hgx, hs', hrx⟩ := lowered_over_scope hp hs hx
  obtain ⟨hly, hgy, ht', hry⟩ := lowered_over_scope hp' ht hy
  have hschema : t'.scope.schema = s'.scope.schema := by rw [hgx.schema, hgy.schema, hst]
  have hplain : x.plain = y.plain := calc
    x.plain = x.shape.plain s'.scope.schema :=
      plain_eq_plain_shape hlx fun a ha => ⟨List.all_eq_true.1 hfx a ha, hrx a ha⟩
    _ = y.shape.plain t'.scope.schema := by
      rw [hschema, hlx.shape_eq (fun _ hc => hc) hly h]
    _ = y.plain :=
      (plain_eq_plain_shape hly fun a ha => ⟨List.all_eq_true.1 hfy a ha, hry a ha⟩).symm
  refine ⟨hplain, hrx.backs hs', hry.backs ht', fun hg => ?_⟩
  have hrx' : Anchored t' x := fun a ha => (hrx a ha).mono (hg.trans hgy)
  exact hrx'.backs ht'

open RowProgram (twoColumns) in
/-- The second expression finds the helper of the first one. -/
theorem texts_tell_expressions_twoColumns :
    ∃ e e' x y s t, Syntax.Expr.parse "max(a + 1, b) == True" = .ok e ∧
      Syntax.Expr.parse "max(a + True, b) == 1" = .ok e' ∧
      (Lowering.lower none e).run (.start twoColumns) = .ok (x, s) ∧
      (Lowering.lower none e').run s = .ok (y, t) ∧ x.text = y.text ∧
      x.plain = y.plain ∧ t.scope.Backs x ∧ t.scope.Backs y := by
  obtain ⟨e, hp, e', hp', ⟨x, s⟩, hx, ⟨y, t⟩, hy, hfx, hfy, ht, hs⟩ :
      ∃ e, Syntax.Expr.parse "max(a + 1, b) == True" = .ok e ∧
        ∃ e', Syntax.Expr.parse "max(a + True, b) == 1" = .ok e' ∧
          ∃ p, (Lowering.lower none e).run (.start twoColumns) = .ok p ∧
            ∃ q, (Lowering.lower none e').run p.2 = .ok q ∧ p.1.isFinite = true ∧
              q.1.isFinite = true ∧ p.1.text = q.1.text ∧ p.2.scope.names.Nodup := by
    decide +kernel
  have hstart : (State.start twoColumns).scope.names.Nodup := nodup_nil
  have hschema := (lowered_over_scope hp hstart hx).2.1.schema
  obtain ⟨hplain, -, hty, htx⟩ :=
    texts_tell_expressions hp hp' hstart hs hschema hx hy hfx hfy ht
  exact ⟨e, e', x, y, s, t, hp, hp', hx, hy, ht, hplain, htx (.refl s), hty⟩

end Compile

end RowAwk
