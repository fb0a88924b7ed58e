import RowAwk.Proofs.Inference
import RowAwk.Proofs.Preservation
import RowAwk.Proofs.SortOrder

/-!
Statements do not change each other's types.

A statement may refer to a helper that was bound for another one, whose expression only has the same
text. As long as texts tell types, this gives the type that the statement would have found itself:
that of its source, given the types of the names that it mentions.

    p = abs(a - 1)                _abs0 : int
    x = abs(a - 1) + y            refers to _abs0, and has the type of its own source
-/

open List

namespace RowAwk.Compile

open Awk (Const Expr Op)
open Closed (Holds)
open Schema (Field FieldType)
open Syntax (Literal Stmt)
open Inference
open Syntax.Expr

/-! ### Types of scopes -/

/-- The types of the names of a scope, helpers apart. -/
def Scope.types (sc : Scope) : TypeEnv :=
  (sc.bindings.filter fun p => !isGenerated p.1).map fun p => (p.1, (Expr.var p.1 p.2).type)

theorem Scope.lookup_types {sc : Scope} {n : String} (hn : isGenerated n = false) :
    sc.types.lookup n = (sc.binding? n).map fun b => (Expr.var n b).type := by
  obtain ⟨schema, bindings⟩ := sc
  rw [types, binding?]
  dsimp only
  induction bindings with
  | nil => rfl
  | cons p bindings ih =>
    by_cases hp : p.1 = n
    · subst hp
      simp [hn]
    · have hne : (n == p.1) = false := beq_eq_false_iff_ne.2 (Ne.symm hp)
      cases hg : isGenerated p.1 with
      | true => simp [hg, hp, ih]
      | false => simp [hg, hp, lookup_cons, hne, ih]

section

variable {s : State} {name : String} {b : Expr}

theorem State.types_bound_helper (hn : isGenerated name = true) :
    (s.bound name b).scope.types = s.scope.types := by
  simp [Scope.types, State.bound, hn]

theorem State.types_bound (hn : isGenerated name = false) :
    (s.bound name b).scope.types = s.scope.types ++ [(name, (Expr.var name b).type)] := by
  simp [Scope.types, State.bound, hn]

end

/-- A state over some columns whose bound names have given types, and in which texts tell the types
    of what is assigned. -/
structure Infers (C : Const → Prop) (schema : Schema) (env : TypeEnv) (s : State) : Prop where
  hygienic : Hygienic Const.Written Distinct Distinct s
  schema : s.scope.schema = schema
  types : s.scope.types = env
  held : ∀ n v, s.scope.binding? n = some (.assign n v) → Reads C s.scope v

section

variable {C : Const → Prop} {schema : Schema} {env : TypeEnv} {s s' : State} {v e b : Expr}
variable {name stem : String}

theorem Reads.grows (h : Reads C s.scope e) (hg : s.Grows s') : Reads C s'.scope e :=
  h.mono hg.schema hg.scope

theorem Told.grows (h : Told C s.scope e) (hg : s.Grows s') : Told C s'.scope e :=
  ⟨h.lowered, h.reads.grows hg⟩

/-- Two invariants along one computation. -/
theorem Lands.along {α : Type} {I J : State → Prop} {m : Lower α} {Q R : State → α → Prop}
    (h : Lands I s m Q) (hJ : I s → J s) (hr : Lands J s m R) :
    Lands I s m fun s a => Q s a ∧ R s a := by
  intro hi a s' hrun
  obtain ⟨hi', hg, hq⟩ := h hi a s' hrun
  exact ⟨hi', hg, hq, (hr (hJ hi) a s' hrun).2.2⟩

namespace Infers

theorem named (h : Infers C schema env s) (stem key : String) :
    Infers C schema env (s.named stem key) :=
  ⟨h.hygienic.named stem key, h.schema, h.types, h.held⟩

theorem require (r : Awk.Routine) :
    Lands (Infers C schema env) s (Lower.require r) fun _ _ => True := by
  intro hi u s' hr
  obtain rfl := Lower.require_eq_ok.1 hr
  exact ⟨⟨Hygienic.tolerant.routines hi.hygienic, hi.schema, hi.types, hi.held⟩,
    s.grows_required r, trivial⟩

/-- What is assigned after one more binding. -/
theorem held_bound (h : Infers C schema env s) (hr : ∀ v, b = .assign name v → Reads C s.scope v)
    {n : String} (hb : (s.bound name b).scope.binding? n = some (.assign n v)) :
    Reads C (s.bound name b).scope v := by
  have hg := s.grows_bound name b
  rcases Scope.binding?_append.1 hb with hb | ⟨-, rfl, rfl⟩
  · exact (h.held n v hb).grows hg
  · exact (hr v rfl).grows hg

/-- Helpers are bound for what is told of its scope. -/
theorem hosts : Hosts (Infers C schema env) fun s e => Told C s.scope e where
  grows hg h := h.grows hg
  named key _ h := h.named _ key
  bound {s name b} hi _ hb := by
    have hlowered := hb.imp fun _ h => h.lowered
    refine ⟨hi.hygienic.bound (.helper hlowered), hi.schema, ?_, fun n v => hi.held_bound ?_⟩
    · rw [State.types_bound_helper hb.isGenerated, hi.types]
    · intro w hw
      cases hb with
      | held _ _ hv =>
        cases hw
        exact hv.reads
      | split =>
        cases hw
        exact .call fun hf => absurd hf (by decide)
      | line => cases hw

/-- A name that a source binds. -/
theorem bind (h : Infers C schema env s) (hn : Distinct name) (hv : Told C s.scope v) :
    Infers C schema (env ++ [(name, v.type)]) (s.bound name (.assign name v)) := by
  refine ⟨h.hygienic.bound (.source hn hv.lowered), h.schema, ?_, fun n w => h.held_bound ?_⟩
  · rw [State.types_bound hn.notGenerated, h.types, Expr.type]
  · intro w hw
    cases hw
    exact hv.reads

end Infers

/-! ### The function library -/

/-- What is held has the type of the value that it is held for, whichever statement it was bound
    by. -/
theorem lands_hold (hC : Telling C) (hs : Holds stem) (hv : Told C s.scope v) :
    Lands (Infers C schema env) s (Lower.helper stem v) fun s x =>
      Reads C s.scope x ∧ x.type = v.type := by
  refine ((Infers.hosts.hold hs hv).along Infers.hygienic
    (Hygienic.hold (fun _ h => h.notGenerated) hs hv.lowered)).imp fun x s' hg hi h => ?_
  cases h.2 with
  | column => exact ⟨hv.reads.grows hg, rfl⟩
  | @var w i _ hb ht =>
    have hhelper := (hi.hygienic.scope _ _ (Scope.mem_of_binding? hb)).of_isGenerated
      (fun _ h => h.notGenerated) (isGenerated_number hs.1 i)
    refine ⟨.var (isName_number (mem_stems hs.1) i) hb, ?_⟩
    rw [Expr.type]
    exact type_eq_of_text_eq hi.hygienic.scope hC ⟨hhelper.assigned hs, hi.held _ _ hb⟩
      (hv.grows hg) ht

theorem lands_split {delim : Expr} (hd : Told C s.scope delim) (hv : Told C s.scope v) :
    Lands (Infers C schema env) s (Library.split delim v) fun s p =>
      Reads C s.scope p.2 ∧ p.2.type = .int := by
  refine ((Infers.hosts.part hd hv).along Infers.hygienic (Hygienic.split (fun _ h => h)
    (fun _ h => h.notGenerated) hd.lowered hv.lowered)).imp fun p s' _ _ h => ?_
  cases h.2 with
  | @intro w d i j hb => exact ⟨.var (isName_number (by decide) i) hb, rfl⟩

theorem lands_shell {command : Expr} (hc : Told C s.scope command) :
    Lands (Infers C schema env) s (Library.shell command) fun s x =>
      Reads C s.scope x ∧ x.type = .any := by
  refine ((Infers.hosts.fetch hc).along Infers.hygienic
    (Hygienic.fetch (fun _ h => h.notGenerated) hc.lowered)).imp fun x s' _ _ h => ?_
  cases h.2 with
  | @intro c i => exact ⟨.sideEffect (.inr ⟨i, .inr rfl⟩) _, by rw [Expr.type]⟩

/-- The best of some values has the type that comparing halves gives. -/
theorem lands_comparisonTree (hC : Telling C) {f : Function} {o : Op}
    (hf : Holds ("_" ++ f.name)) (values : List Expr) (s : State)
    (hv : ∀ v ∈ values, Told C s.scope v) :
    Lands (Infers C schema env) s (Library.comparisonTree f o values) fun s x =>
      Reads C s.scope x ∧ x.type = best (values.map Expr.type) := by
  induction values using Library.comparisonTree.induct generalizing s with
  | case1 =>
    rw [Library.comparisonTree]
    exact lands_fail
  | case2 value =>
    rw [Library.comparisonTree, map_singleton, best]
    exact lands_hold hC hf (hv value mem_cons_self)
  | case3 a b more half ihl ihr =>
    rw [Library.comparisonTree]
    refine (ihl s fun v hm => hv v (mem_of_mem_take hm)).bind fun left s₁ hg₁ _ hl => ?_
    refine (ihr s₁ fun v hm => (hv v (mem_of_mem_drop hm)).grows hg₁).bind
      fun right s₂ hg₂ _ hr => lands_pure fun _ => ⟨.conditional (hl.1.grows hg₂) hr.1, ?_⟩
    rw [Expr.type, hl.2, hr.2, map_cons, map_cons, best]
    simp only [map_take, map_drop, map_cons, length_cons, length_map, half]

theorem lands_lookUp (hC : Telling C) {r : Awk.Routine} (hr : Holds ("_" ++ r.name))
    (hminus : r.name ≠ "-") {args : List Expr} (ha : ∀ a ∈ args, Told C s.scope a) :
    Lands (Infers C schema env) s (Library.lookUp r args) fun s x =>
      Reads C s.scope x ∧ x.type = (Awk.callType? r.name).getD .any := by
  refine (Infers.require r).bind fun _ s₁ hg _ _ => ?_
  have held : Lands (Infers C schema env) s₁ (args.mapM (Lower.helper ("_" ++ r.name)))
      fun s held => held.length = args.length ∧ ∀ a ∈ held, Reads C s.scope a :=
    lands_mapM (P := fun s a => Told C s.scope a) (fun _ _ _ hg h => h.grows hg)
      (fun _ _ _ hg h => h.grows hg)
      (fun _ _ _ ha => (lands_hold hC hr ha).imp fun _ _ _ _ h => h.1)
      fun a hm => (ha a hm).grows hg
  refine held.bind fun held s₂ _ _ hheld => lands_pure fun _ => ?_
  refine ⟨.call fun h => absurd h hminus, ?_⟩
  rw [Expr.type_call, Awk.callType, if_neg hminus]

theorem Told.arg {b : Bound Expr} (hv : ∀ v ∈ b.values, Told C s.scope v) (i : Nat) :
    Told C s.scope (Library.arg b i) := by
  rw [Library.arg, getD_eq_getElem?_getD]
  cases hi : b.values[i]? with
  | none => exact ⟨.const (.str ""), .const (.inl ⟨"", rfl⟩)⟩
  | some v => exact hv v (mem_of_getElem? hi)

theorem getD_types (b : Bound Expr) (i : Nat) :
    (b.map Expr.type).values.getD i .str = (Library.arg b i).type :=
  getD_map (d := Expr.string "") b.values Expr.type

/-- What a call of the library becomes has the type that the library gives it. -/
theorem lands_library (hC : Telling C) (f : Function) {b : Bound Expr}
    (hv : ∀ v ∈ b.values, Told C s.scope v) (hr : ∀ v ∈ b.rest, Told C s.scope v) :
    Lands (Infers C schema env) s (Library.expand f b) fun s x =>
      Reads C s.scope x ∧ x.type = library f (b.map Expr.type) := by
  have harg := Told.arg hv
  -- a call of any function but the sign has a type of its own
  have call {s : State} {f : String} (hf : f ≠ "-") (args : List Expr) :
      Reads C s.scope (.call f args) := .call fun h => absurd h hf
  cases f with
  | abs =>
    refine (lands_hold hC (by decide) (harg 0)).bind fun h s' _ _ hh => lands_pure fun _ => ?_
    refine ⟨.conditional (.call fun _ a ha => ?_) hh.1, ?_⟩
    · rw [mem_singleton.1 ha]
      exact hh.1
    · simp only [library, getD_types, ← hh.2]
      rw [Expr.type, Expr.type_call]
      rfl
  | crc32 | isInFile | mapFromFile => exact lands_lookUp hC (by decide) (by decide) (by simp [harg])
  | domain | netlocator => exact lands_pure fun _ => ⟨call (by decide) _, rfl⟩
  | join =>
    refine lands_pure fun _ => ?_
    simp only [Library.join, library, getD_types]
    simp only [Bound.map, isEmpty_map]
    split
    · exact ⟨.const (.inl ⟨"", rfl⟩), rfl⟩
    · refine ⟨.op fun _ a ha => ?_, by rw [Expr.type, Expr.types_eq_map, map_intersperse]⟩
      rcases Closed.mem_of_mem_intersperse ha with rfl | ha
      · exact (harg 0).reads
      · exact (hr a ha).reads
  | max | min => exact lands_comparisonTree hC (by decide) b.rest s hr
  | shell => exact lands_shell (harg 0)
  | strip =>
    exact (lands_hold hC (by decide) (harg 0)).bind fun h s' _ _ hh => lands_pure fun _ =>
      ⟨call (by decide) _, rfl⟩
  | strptime =>
    rw [Library.expand, Library.strptime]
    split
    · exact lands_fail
    · split
      · exact lands_fail
      · exact lands_pure fun _ => ⟨call (by decide) _, rfl⟩
  | uniq =>
    refine (Infers.require _).bind fun _ s₁ hg₁ _ _ => ?_
    exact (lands_hold hC (by decide) ((harg 1).grows hg₁)).bind fun h s₂ _ _ hh =>
      lands_pure fun _ => ⟨call (by decide) _, rfl⟩
  | unjoin =>
    exact (lands_split (harg 0) (harg 1)).bind fun p s₁ _ _ hp =>
      lands_pure fun _ => ⟨.subscript _ _, by rw [Expr.type]; rfl⟩
  | unjoinCount =>
    exact (lands_split (harg 0) (harg 1)).bind fun p s₁ _ _ hp =>
      lands_pure fun _ => hp

end

/-! ### Expressions -/

section

variable {C : Const → Prop} {schema : Schema} {env : TypeEnv} {s : State}

/-- Literals that write texts, or numbers and truth values of the kind `C`. -/
def Tells (C : Const → Prop) (v : Literal) : Prop :=
  v.Spelt → ∀ c, Lowering.constant? v = some c → (∃ s, c = .str s) ∨ C c

/-- A name has the type of the column, else of what is bound to it. -/
theorem Infers.resolve {n : String} (hn : Syntax.isName n = true) :
    Lands (Infers C schema env) s (Lowering.resolve n) fun s x =>
      Reads C s.scope x ∧
        (isGenerated n = false → x.type = ofName schema env n) := by
  intro hi x s' hr
  have hfield := hi.schema
  have field?_eq_none (hf : s.scope.field? n = none) : schema.field? n = none := by
    rw [← hfield, Schema.field?, List.find?_eq_bind_findIdx?_getElem?, ← Schema.fieldIndex?,
      Scope.fieldIndex?_eq_none hf]
    rfl
  obtain ⟨rfl, ⟨hf, -⟩ | ⟨hf, b, hb, rfl⟩ | ⟨hf, hb, hw, rfl⟩⟩ := Lower.resolve_cases hr
  · obtain ⟨hreads, f, hf, ht⟩ := Reads.field (C := C) hf
    refine ⟨hi, .refl _, hreads, fun _ => ?_⟩
    rw [ofName, ← hfield, hf, ht]
  · refine ⟨hi, .refl _, .var hn hb, fun hg => ?_⟩
    rw [ofName, field?_eq_none hf, ← hi.types, Scope.lookup_types hg, hb]
    rfl
  · refine ⟨hi, .refl _, .builtin hw, fun hg => ?_⟩
    rw [ofName, field?_eq_none hf, ← hi.types, Scope.lookup_types hg, hb]
    rfl

variable {sc : Scope}

theorem Reads.unary (op : Syntax.UnaryOp) {x : Expr} (hx : Reads C sc x) :
    Reads C sc (Lowering.unary op x) := by
  cases op with
  | negate => exact .call fun _ a ha => by rwa [mem_singleton.1 ha]
  | complement | not => exact .call fun h => absurd h (by decide)

theorem type_unary (op : Syntax.UnaryOp) (x : Expr) :
    (Lowering.unary op x).type = unary op x.type := by
  cases op <;> rfl

theorem Reads.binary (op : Syntax.BinaryOp) {x y : Expr} (hx : Reads C sc x) (hy : Reads C sc y) :
    Reads C sc (Lowering.binary op x y) := by
  have operator (o : Op) : Reads C sc (.op o [x, y]) := .op fun _ => by simp [hx, hy]
  have function {f : String} (hf : f ≠ "-") (args : List Expr) : Reads C sc (.call f args) :=
    .call fun h => absurd h hf
  cases op with
  | floorDiv | bitAnd | bitOr | shiftLeft | shiftRight => exact function (by decide) _
  | _ => exact operator _

theorem type_binary (op : Syntax.BinaryOp) (x y : Expr) :
    (Lowering.binary op x y).type = binary op x.type y.type := by
  cases op <;> rfl

theorem Reads.test {o : Op} (ho : o.isPredicate = true) (args : List Expr) :
    Reads C sc (.op o args) := by
  refine .op fun h => ?_
  rw [ho] at h
  cases h

/-- Tests are truth values, whatever they compare. -/
theorem type_test {o : Op} (ho : o.isPredicate = true) (args : List Expr) :
    (Expr.op o args).type = .bool := by
  rw [Expr.type]
  exact if_pos ho

/-- A test for membership is one test or more of them joined. -/
theorem membership_eq (op : Syntax.CompareOp) (x : Expr) (items : List Expr) :
    ∃ o args, o.isPredicate = true ∧ Lowering.membership op x items = .op o args := by
  rcases items with _ | ⟨item, _ | ⟨next, items⟩⟩ <;> cases op <;> exact ⟨_, _, rfl, rfl⟩

namespace Lowering.Lowers

variable {es : List Syntax.Expr} {t : State} {xs : List Expr} {cs : List Call}

theorem lowered (h : Lowers none es s xs t cs) (he : Syntax.Expr.AllWellFormed Literal.Spelt es)
    (hi : Infers C schema env s) : ∀ x ∈ xs, x.Lowered Const.Written := by
  have hclosed := closed_lowered (Hygienic.tolerant (U := Distinct) (V := Distinct)) admits_spelt
  exact (h.closed (J := fun _ => True) (L := fun _ _ => True) hclosed (fun _ hc => by cases hc)
    hclosed.observed (fun _ hc => by cases hc) he hi.hygienic).2.2.2.1

/-- The types of what expressions are lowered to can be read off their texts, and are those of the
    sources. -/
theorem types (hC : Telling C) {category : Option Awk.Category}
    (h : Lowers category es s xs t cs) (hc : category = none)
    (he : Syntax.Expr.AllWellFormed Literal.Spelt es)
    (hv : ∀ v ∈ leavesAll (fun _ => []) (fun v => [v]) es, Tells C v)
    (hi : Infers C schema env s) :
    Infers C schema env t ∧ s.Grows t ∧ (∀ x ∈ xs, Reads C t.scope x) ∧
      ((∀ n ∈ leavesAll (fun n => [n]) (fun _ => []) es, isGenerated n = false) →
        xs.map Expr.type = ofAll schema env es) := by
  induction h
  -- lists of one, two or three expressions, taken apart
  all_goals
    simp only [Syntax.Expr.AllWellFormed, Syntax.Expr.WellFormed, leavesAll, leaves,
      ← leavesAll_keywords, append_nil, and_true, forall_mem_append, forall_mem_cons, not_mem_nil,
      IsEmpty.forall_iff, implies_true, map_cons, map_nil, List.cons.injEq, ofAll, ofExpr] at *
  case nil => exact ⟨hi, .refl _⟩
  case cons ihxs ihx =>
    obtain ⟨hi, hg, hx, htype⟩ := ihx hc he.1 hv.1 hi
    obtain ⟨hi, hg', hxs, htypes⟩ := ihxs hc he.2 hv.2 hi
    exact ⟨hi, hg.trans hg', ⟨hx.grows hg', hxs⟩, fun hn => ⟨htype hn.1, htypes hn.2⟩⟩
  case literal hk =>
    refine ⟨hi, .refl _, .const (hv he _ hk), fun _ => ?_⟩
    rw [hk, Expr.type]
    rfl
  case name hx => exact Infers.resolve he hi _ _ hx
  case tuple ih =>
    obtain ⟨hi, hg, hxs, htypes⟩ := ih hc he hv hi
    refine ⟨hi, hg, .op fun _ => hxs, fun hn => ?_⟩
    rw [Expr.type, Expr.types_eq_map, htypes hn]
  case aggregate => cases hc
  case plain hf _ ih =>
    obtain ⟨hi, hg, hxs, htypes⟩ := ih hc he.2.1 hv hi
    refine ⟨hi, hg, .call fun _ => hxs, fun hn => ?_⟩
    rw [Expr.type_call, Expr.types_eq_map, htypes hn, hf]
  case library f _ _ _ _ _ ys u b x v _ _ hf hxs hys hb hx ihxs ihys =>
    subst hc
    have hks := allWellFormed_keywords he.2.2
    obtain ⟨hi₁, hg₁, hreads, htypes⟩ := ihxs rfl he.2.1 hv.1 hi
    obtain ⟨hi₂, hg₂, hreads', htypes'⟩ := ihys rfl hks hv.2 hi₁
    have hlowered := hxs.lowered he.2.1 hi
    have hlowered' := hys.lowered hks hi₁
    obtain ⟨hvalues, hrest⟩ := Signature.forall_bind (P := Told C u.scope)
      (fun x hx => ⟨hlowered x hx, (hreads x hx).grows hg₂⟩)
      (fun p hp => ⟨hlowered' p.2 (of_mem_zip hp).2, hreads' p.2 (of_mem_zip hp).2⟩) hb
    obtain ⟨hi₃, hg₃, hx, htype⟩ := lands_library hC f hvalues hrest hi₂ x v hx
    refine ⟨hi₃, (hg₁.trans hg₂).trans hg₃, hx, fun hn => ?_⟩
    have hzip (names : List String) : names.zip (ys.map Expr.type)
        = (names.zip ys).map fun p => (p.1, p.2.type) := zip_map_right ..
    simp only [hf, ofKeywords_eq, ← htypes hn.1, ← htypes' hn.2, hzip,
      Signature.bind_map, hb, htype, Except.map]
  case subscript ih =>
    obtain ⟨hi, hg, -, -⟩ := ih hc he.1 hv.1 hi
    exact ⟨hi, hg, .subscript _ _, fun _ => by rw [Expr.type]⟩
  case unary op _ _ _ _ _ _ ih =>
    obtain ⟨hi, hg, hx, htype⟩ := ih hc he hv hi
    exact ⟨hi, hg, hx.unary op, fun hn => by rw [type_unary, htype hn]⟩
  case binary op _ _ _ _ _ _ _ _ ih =>
    obtain ⟨hi, hg, ⟨hx, hy⟩, htypes⟩ := ih hc he hv hi
    refine ⟨hi, hg, hx.binary op hy, fun hn => ?_⟩
    rw [type_binary, (htypes hn).1, (htypes hn).2]
  case boolean op _ _ xs _ _ _ ih =>
    obtain ⟨hi, hg, -, -⟩ := ih hc he.2 hv hi
    have ho : (Lowering.boolean op).isPredicate = true := by cases op <;> rfl
    exact ⟨hi, hg, .test ho xs, fun _ => type_test ho xs⟩
  case comparison op o _ _ _ _ _ _ _ ho _ ih =>
    obtain ⟨hi, hg, -, -⟩ := ih hc he hv hi
    have ho : o.isPredicate = true := by cases op <;> cases ho <;> rfl
    exact ⟨hi, hg, .test ho _, fun _ => type_test ho _⟩
  case membership op _ rhs _ items _ x xs _ _ _ hrhs _ _ ih =>
    have hitems : Syntax.Expr.AllWellFormed Literal.Spelt items ∧
        ∀ v ∈ leavesAll (fun _ => []) (fun v => [v]) items, Tells C v := by
      rcases mem_pair.1 hrhs with rfl | rfl
      · exact ⟨he.2, hv.2⟩
      · exact ⟨he.2, hv.2⟩
    obtain ⟨hi, hg, -, -⟩ := ih hc ⟨he.1, hitems.1⟩ ⟨hv.1, hitems.2⟩ hi
    obtain ⟨o, args, ho, heq⟩ := membership_eq op x xs
    rw [heq]
    exact ⟨hi, hg, .test ho args, fun _ => type_test ho args⟩
  case conditional ih =>
    obtain ⟨hi, hg, ⟨-, hy, hz⟩, htypes⟩ := ih hc he hv hi
    refine ⟨hi, hg, .conditional hy hz, fun hn => ?_⟩
    rw [Expr.type, (htypes hn).2.1, (htypes hn).2.2]

end Lowering.Lowers

/-- The same of one expression, with all that its readers need. -/
theorem lands_told (hC : Telling C) {e : Syntax.Expr} (he : e.WellFormed Literal.Spelt)
    (hv : ∀ v ∈ e.literals, Tells C v) :
    Lands (Infers C schema env) s (Lowering.lower none e) fun s x => Told C s.scope x ∧
      ((∀ n ∈ e.names, isGenerated n = false) → x.type = ofExpr schema env e) := by
  intro hi x t hx
  have hl := Lowering.lowers_lower hx
  rw [literals, ← leavesAll_singleton] at hv
  rw [names, ← leavesAll_singleton]
  obtain ⟨hi', hg, hreads, htypes⟩ := hl.types hC rfl ⟨he, trivial⟩ hv hi
  refine ⟨hi', hg, ⟨hl.lowered ⟨he, trivial⟩ hi x mem_cons_self, hreads x mem_cons_self⟩,
    fun hn => ?_⟩
  have htype := htypes hn
  rw [ofAll, ofAll] at htype
  exact (List.cons.inj htype).1

end

/-! ### Statements -/

namespace RowProgram

section

variable {C : Const → Prop} {schema : Schema} {env : TypeEnv} {s s' : State} {B : List String}

/-- Statements as they are read from sources, with literals whose texts tell their types, that bind
    names that are told apart. -/
structure Legible (C : Const → Prop) (schema : Schema) (stmt : Stmt) : Prop where
  wellFormed : stmt.WellFormed Literal.Spelt
  literals : ∀ v ∈ (stmtExpr stmt).literals, Tells C v
  bound : ∀ n ∈ boundBy schema stmt, Distinct n

/-- Statements that bind one name. -/
def Single (stmt : Stmt) : Prop :=
  bareName? stmt ≠ some allFields ∧ bareName? stmt ≠ some restFields

variable {stmt : Stmt} {name source : String} {u : Unit} {maps : List String}

theorem Single.mem_boundBy (h : Single stmt) (hname : boundName? stmt = some name) :
    name ∈ boundBy schema stmt := by
  cases stmt with
  | assign target e =>
    cases hname
    exact mem_singleton.2 rfl
  | value e =>
    rw [boundName?] at hname
    simp only [Single, bareName?, hname, ne_eq, Option.some.injEq] at h
    simp [boundBy, hname, h]

/-- A statement adds the type of its expression to those of the statements before it. -/
theorem infers_bindStatement (hC : Telling C) (hl : Legible C schema stmt) (hd : Single stmt)
    (hi : Infers C schema env s) (hr : (bindStatement schema source stmt).run s = .ok (u, s')) :
    ∃ name t, boundName? stmt = some name ∧ Infers C schema (env ++ [(name, t)]) s' ∧
      s.Grows s' ∧ ((∀ n ∈ (stmtExpr stmt).names, isGenerated n = false) →
        t = ofExpr schema env (stmtExpr stmt)) := by
  rw [bindStatement, if_neg hd.1, if_neg hd.2] at hr
  obtain ⟨p, s₁, hp, hr⟩ := Lower.bind_eq_ok.1 hr
  obtain ⟨name, x, hname, rfl, hx⟩ := Lowering.binding_eq_ok (Lower.noting_eq_ok.1 hp)
  obtain ⟨-, rfl⟩ := Lower.run_bind_eq_ok.1 hr
  obtain ⟨hi₁, hg, htold, htype⟩ :=
    lands_told hC (wellFormed_stmtExpr hl.wellFormed) hl.literals hi x s₁ hx
  have hdistinct := hl.bound name (hd.mem_boundBy hname)
  exact ⟨name, x.type, hname, hi₁.bind hdistinct htold, hg.trans (s₁.grows_bound _ _), htype⟩

theorem infers_bindStatements (hC : Telling C) {stmts : List Stmt}
    (hl : ∀ stmt ∈ stmts, Legible C schema stmt) (hd : ∀ stmt ∈ stmts, Single stmt)
    (hg : ∀ stmt ∈ stmts, ∀ n ∈ (stmtExpr stmt).names, isGenerated n = false)
    (hi : Infers C schema env s)
    (hr : (stmts.forM (bindStatement schema source)).run s = .ok (u, s')) :
    Infers C schema (env ++ ofStatements schema env stmts) s' := by
  induction stmts generalizing env s with
  | nil =>
    obtain ⟨-, rfl⟩ := Lower.pure_eq_ok.1 hr
    rwa [ofStatements, append_nil]
  | cons stmt stmts ih =>
    rw [forall_mem_cons] at hl hd hg
    obtain ⟨u₁, s₁, h₁, hr⟩ := Lower.bind_eq_ok.1 hr
    obtain ⟨name, t, hname, hi₁, -, ht⟩ := infers_bindStatement hC hl.1 hd.1 hi h₁
    have h := ih hl.2 hd.2 hg.2 hi₁ hr
    rw [ofStatements, hname, ← ht hg.1]
    rwa [append_assoc] at h

/-- The types of what sources bind are those of their statements. -/
theorem infers_bindSources (hC : Telling C)
    (hl : ∀ stmt ∈ maps.flatMap statements, Legible C schema stmt)
    (hd : ∀ stmt ∈ maps.flatMap statements, Single stmt)
    (hg : ∀ stmt ∈ maps.flatMap statements, ∀ n ∈ (stmtExpr stmt).names, isGenerated n = false)
    (hi : Infers C schema env s) (hr : (maps.forM (bindSource schema)).run s = .ok (u, s')) :
    Infers C schema (env ++ ofStatements schema env (maps.flatMap statements)) s' := by
  induction maps generalizing env s with
  | nil =>
    obtain ⟨-, rfl⟩ := Lower.pure_eq_ok.1 hr
    rwa [flatMap_nil, ofStatements, append_nil]
  | cons source maps ih =>
    rw [flatMap_cons, forall_mem_append] at hl hd hg
    obtain ⟨u₁, s₁, h₁, hr⟩ := Lower.bind_eq_ok.1 hr
    obtain ⟨stmts, s₀, hread, h₁⟩ := Lower.bind_eq_ok.1 h₁
    obtain ⟨hparse, rfl⟩ := Lower.lift_eq_ok.1 hread
    obtain rfl := statements_eq hparse
    have hi₁ := infers_bindStatements hC hl.1 hd.1 hg.1 hi h₁
    have h := ih hl.2 hd.2 hg.2 hi₁ hr
    rw [flatMap_cons, ofStatements_append]
    rwa [append_assoc] at h

/-- A state in which only names of `B` are bound, helpers apart. -/
def Draws (C : Const → Prop) (schema : Schema) (B : List String) (s : State) : Prop :=
  ∃ env, Infers C schema env s ∧ ∀ p ∈ env, p.1 ∈ B

theorem Draws.of_append {t : FieldType} (h : ∀ p ∈ env, p.1 ∈ B)
    (hi : Infers C schema (env ++ [(name, t)]) s) (hB : name ∈ B) : Draws C schema B s :=
  ⟨_, hi, forall_mem_append.2 ⟨h, forall_mem_singleton.2 hB⟩⟩

theorem lands_bindField (hn : Distinct name) (hB : name ∈ B) :
    Lands (Draws C schema B) s (bindField name) fun _ _ => True := by
  refine lands_get ?_
  split
  · rename_i field hf
    rintro ⟨env, hi, henv⟩ u s' hr
    obtain ⟨-, rfl⟩ := Lower.run_bind_eq_ok.1 hr
    have hlowered := (closed_lowered tolerant_sound admits_spelt).field hf
    exact ⟨.of_append henv (hi.bind hn ⟨hlowered, (Reads.field hf).1⟩) hB, s.grows_bound _ _,
      trivial⟩
  · exact lands_pure fun _ => trivial

theorem lands_bindRest (hn : Distinct name) (hB : name ∈ B) :
    Lands (Draws C schema B) s (bindRest name) fun _ _ => True := by
  refine lands_get ?_
  split
  · exact lands_pure fun _ => trivial
  · exact lands_bindField hn hB

/-- Any statement, also one that binds many columns. -/
theorem lands_bindStatement (hC : Telling C) (hl : Legible C schema stmt)
    (hB : ∀ n ∈ boundBy schema stmt, n ∈ B) :
    Lands (Draws C schema B) s (bindStatement schema source stmt) fun _ _ => True := by
  have hnames (n : String) (hn : n ∈ boundBy schema stmt) : Distinct n ∧ n ∈ B :=
    ⟨hl.bound n hn, hB n hn⟩
  by_cases hall : bareName? stmt = some allFields
  · rw [bindStatement, if_pos hall]
    refine lands_forM fun n hm _ => ?_
    have h := Binds.directive hnames (.inl hall) n hm
    exact lands_bindField h.1 h.2
  · by_cases hrest : bareName? stmt = some restFields
    · rw [bindStatement, if_neg hall, if_pos hrest]
      refine lands_forM fun n hm _ => ?_
      have h := Binds.directive hnames (.inr hrest) n hm
      exact lands_bindRest h.1 h.2
    · rintro ⟨env, hi, henv⟩ u s' hr
      have hsingle : Single stmt := ⟨hall, hrest⟩
      obtain ⟨name, t, hname, hi', hg, -⟩ := infers_bindStatement hC hl hsingle hi hr
      exact ⟨.of_append henv hi' (hB name (hsingle.mem_boundBy hname)), hg, trivial⟩

theorem lands_bindSources (hC : Telling C)
    (hl : ∀ stmt ∈ maps.flatMap statements, Legible C schema stmt)
    (hB : ∀ stmt ∈ maps.flatMap statements, ∀ n ∈ boundBy schema stmt, n ∈ B) :
    Lands (Draws C schema B) s (maps.forM (bindSource schema)) fun _ _ => True := by
  refine lands_forM fun source hm s => ?_
  refine (lands_lift (Q := fun _ stmts => parseSource source = .ok stmts) fun _ hp _ => hp).bind
    fun stmts s' _ _ hp => lands_forM fun stmt hstmt _ => ?_
  have hmem : stmt ∈ maps.flatMap statements :=
    mem_flatMap.2 ⟨source, hm, (statements_eq hp).symm ▸ hstmt⟩
  exact lands_bindStatement hC (hl stmt hmem) (hB stmt hmem)

end

/-! ### Columns -/

/-- The columns that names of given types become, unless they are hidden. -/
def shown (env : TypeEnv) : List Field :=
  (env.filter fun p => !Syntax.isHidden p.1).map fun p => ⟨p.1, p.2⟩

theorem shown_append (env env' : TypeEnv) : shown (env ++ env') = shown env ++ shown env' := by
  rw [shown, filter_append, map_append]
  rfl

theorem isHidden_of_isGenerated {name : String} (h : isGenerated name = true) :
    Syntax.isHidden name = true := by
  obtain ⟨stem, hs, hname⟩ := any_eq_true.1 h
  rw [Bool.and_eq_true, List.isPrefixOf_iff_prefix] at hname
  have key : ∀ stem ∈ libraryStems, ['_'].isPrefixOf stem.toList = true := by decide
  exact List.isPrefixOf_iff_prefix.2
    ((List.isPrefixOf_iff_prefix.1 (key stem hs)).trans hname.1)

theorem type_printed (computed : List String) (name : String) (statement : Expr) :
    (Projection.printed computed name statement).type = (Expr.var name statement).type := by
  rw [Projection.printed]
  split
  · rfl
  · cases statement <;> rfl

/-- A projection has the columns that the bound names become. -/
theorem fields_eq_shown {sc : Scope} {filter : Option Expr} {order : List Schema.Order}
    {p : Projection} (h : Projection.of sc filter order = .ok p) : p.fields = shown sc.types := by
  rw [Projection.of] at h
  split at h
  · cases h
  cases h
  have hfilter : (sc.bindings.filter fun p => !isGenerated p.1).filter
      (fun p => !Syntax.isHidden p.1) = Projection.outputs sc := by
    rw [filter_filter, Projection.outputs]
    refine filter_congr fun p _ => ?_
    obtain ⟨name, b⟩ := p
    cases hg : isGenerated name with
    | true =>
      dsimp only
      rw [isHidden_of_isGenerated hg]
      rfl
    | false => exact Bool.and_true _
  simp only [type_printed]
  rw [shown, Scope.types, filter_map, map_map]
  exact congrArg _ hfilter.symm

/-- Helpers that filters need do not change the types. -/
theorem tolerant_types (env : TypeEnv) : Tolerant Const.Written fun s => s.scope.types = env where
  routines h := h
  named _ _ h := h
  bound h hb := by rw [State.types_bound_helper hb.isGenerated, h]

variable {schema : Schema} {maps : List String}

/-- The columns of a program are those that its statements bind. -/
theorem fields_compile {filters : List String} {c : Compiled}
    (hc : compile schema filters maps = .ok c) (hne : maps ≠ []) :
    ∃ s, (maps.forM (bindSource schema)).run (.start schema) = .ok ((), s) ∧
      c.schema.fields = shown s.scope.types := by
  obtain ⟨filter, state, projection, derived, hl, hp, hd, rfl⟩ := compile_eq_ok hc
  rw [RowProgram.lowerAll, if_neg (by simpa using hne)] at hl
  obtain ⟨u, s, hmaps, hl⟩ := Lower.bind_eq_ok.1 hl
  obtain ⟨tests, s', htests, hl⟩ := Lower.bind_eq_ok.1 hl
  obtain ⟨-, rfl⟩ := Lower.pure_eq_ok.1 hl
  have hclosed := closed_lowered (tolerant_types s.scope.types) admits_spelt
  obtain ⟨htypes, -⟩ := lands_mapM (P := fun _ _ => True) (Q := fun _ _ => True)
    (fun _ _ _ _ h => h) (fun _ _ _ _ h => h)
    (fun source _ _ _ => (lands_conditions hclosed source).imp fun _ _ _ _ _ => trivial)
    (fun _ _ => trivial) rfl tests s' htests
  refine ⟨s, hmaps, ?_⟩
  rw [(Projection.schema_cases hd).1, fields_eq_shown hp, htypes]

/-! ### Two programs -/

theorem infers_start {C : Const → Prop} (schema : Schema) : Infers C schema [] (.start schema) :=
  ⟨hygienic_start schema, rfl, rfl, fun _ _ h => by cases h⟩

theorem tells_among {vs : List Literal} {v : Literal} (hv : v ∈ vs) : Tells (Among vs) v := by
  intro hs c hc
  by_cases ht : ∃ t, c = .str t
  · exact .inl ht
  · exact .inr ⟨not_exists.1 ht, v, hv, hs, hc⟩

/-- The literals that some sources write. -/
def literals (maps : List String) : List Literal :=
  (maps.flatMap statements).flatMap fun stmt => (stmtExpr stmt).literals

theorem legible_among (hn : ∀ n ∈ (maps.flatMap statements).flatMap (boundBy schema), Distinct n)
    {stmt : Stmt} (h : stmt ∈ maps.flatMap statements) :
    Legible (Among (literals maps)) schema stmt where
  wellFormed := by
    obtain ⟨source, -, hs⟩ := mem_flatMap.1 h
    exact wellFormed_of_mem_statements hs
  literals v hv := tells_among (mem_flatMap.2 ⟨stmt, h, hv⟩)
  bound n hb := hn n (mem_flatMap.2 ⟨stmt, h, hb⟩)

instance (name : String) : Decidable (Distinct name) :=
  decidable_of_iff (isGenerated name = false ∧ name ∉ awkVariables ∧ name ≠ "inf")
    ⟨fun h => ⟨h.1, h.2.1, h.2.2⟩, fun h => ⟨h.notGenerated, h.notAwk, h.notInf⟩⟩

instance (stmt : Stmt) : Decidable (Single stmt) :=
  inferInstanceAs (Decidable (_ ∧ _))

/-- The columns that statements compute do not depend on statements before them, if they mention
    none of the names that those bind: they have the same names and types in a program of their own.
    No name that is bound or mentioned may be one of a helper, none that is bound a variable of awk
    or `inf`, and no truth value may be written beside its number. -/
theorem outputs_keep_types {schema : Schema} {filters filters' before maps : List String}
    {alone both : Compiled} (halone : compile schema filters maps = .ok alone)
    (hboth : compile schema filters' (before ++ maps) = .ok both) (hne : maps ≠ [])
    (hsingle : ∀ stmt ∈ maps.flatMap statements, Single stmt)
    (hnames : ∀ stmt ∈ maps.flatMap statements, ∀ n ∈ (stmtExpr stmt).names,
      isGenerated n = false ∧ n ∉ (before.flatMap statements).flatMap (boundBy schema))
    (hbound : ∀ n ∈ ((before ++ maps).flatMap statements).flatMap (boundBy schema), Distinct n)
    (hliterals : Unmixed (literals (before ++ maps))) :
    alone.schema.fields <:+ both.schema.fields := by
  have hC := hliterals.telling
  have hlegible : ∀ stmt ∈ (before ++ maps).flatMap statements, Legible _ schema stmt :=
    fun _ h => legible_among hbound h
  rw [List.flatMap_append, List.forall_mem_append] at hlegible
  obtain ⟨hbefore, hmaps⟩ := hlegible
  have hplain : ∀ stmt ∈ maps.flatMap statements, ∀ n ∈ (stmtExpr stmt).names,
      isGenerated n = false := fun stmt hm n hn => (hnames stmt hm n hn).1
  obtain ⟨s, hs, hfields⟩ := fields_compile halone hne
  obtain ⟨t, ht, hfields'⟩ := fields_compile hboth (List.append_ne_nil_of_right_ne_nil _ hne)
  have hsplit : (before ++ maps).forM (bindSource schema)
      = (do before.forM (bindSource schema); maps.forM (bindSource schema)) := List.forM_append
  rw [hsplit] at ht
  obtain ⟨u, t₀, ht₀, ht⟩ := Lower.bind_eq_ok.1 ht
  -- the statements before bind names that are not mentioned later
  obtain ⟨⟨env, hi, henv⟩, -⟩ := lands_bindSources hC hbefore
    (B := (before.flatMap statements).flatMap (boundBy schema))
    (fun stmt hm n hn => List.mem_flatMap.2 ⟨stmt, hm, hn⟩) ⟨[], infers_start schema, nofun⟩
    u t₀ ht₀
  have hs' := (infers_bindSources hC hmaps hsingle hplain (infers_start schema) hs).types
  have ht' := (infers_bindSources hC hmaps hsingle hplain hi ht).types
  have hsame : ofStatements schema env (maps.flatMap statements)
      = ofStatements schema [] (maps.flatMap statements) := by
    refine ofStatements_congr fun stmt hm n hn => ?_
    rw [List.lookup_nil, List.lookup_eq_none_iff]
    intro p hp
    rw [bne_iff_ne]
    rintro rfl
    exact (hnames stmt hm _ hn).2 (henv p hp)
  rw [hfields, hfields', hs', ht', hsame, List.nil_append, shown_append]
  exact List.suffix_append _ _

/-- Statements that share a helper with one before them. -/
theorem outputs_keep_types_twoColumns :
    ∃ alone both,
      compile twoColumns [] ["x = abs(b - 2) + b; y = max(x, abs(b - 2)) > 1"] = .ok alone ∧
      compile twoColumns ["a > 2"]
        (["p = abs(b - 2) / 3"] ++ ["x = abs(b - 2) + b; y = max(x, abs(b - 2)) > 1"]) = .ok both ∧
      alone.schema.fields = [⟨"x", .int⟩, ⟨"y", .bool⟩] ∧
      alone.schema.fields <:+ both.schema.fields := by
  simp only [exists_and_left]
  refine exists_ok_of (by decide +kernel) fun alone halone =>
    exists_ok_of (by decide +kernel) fun both hboth => ⟨of_ok halone (by decide +kernel), ?_⟩
  exact outputs_keep_types halone hboth (by decide)
    (by decide +kernel) (by decide +kernel) (by decide +kernel) (by decide +kernel)

/-- The number `1` and truth have one text, so a helper that is bound for the one is taken for the
    other. -/
theorem outputs_lose_types :
    ∃ alone both,
      compile twoColumns [] ["m = abs(1)"] = .ok alone ∧
      compile twoColumns [] ["p = abs(True)", "m = abs(1)"] = .ok both ∧
      alone.schema.fields = [⟨"m", .int⟩] ∧ both.schema.fields = [⟨"p", .any⟩, ⟨"m", .any⟩] := by
  decide +kernel

end RowProgram

end RowAwk.Compile
