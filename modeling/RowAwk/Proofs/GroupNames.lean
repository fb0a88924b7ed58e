import RowAwk.Proofs.Closure
import RowAwk.Proofs.Drafts
import RowAwk.Proofs.Nodes

/-!
The variables of grouping programs.

Accumulators are named after their category, keys after their text, so no two variables of a
program share a name. The rows never see an accumulator. Statements about the stream see those of
the stream only, and statements about groups see those of groups and what the stream has bound:

    out  ──▶  group  ──▶  stream           each accumulator that is printed is set up, updated and
      └──────────────────▶                 finished with those of its own category
-/

open List

namespace RowAwk.Compile

open Awk (Accumulator Category Expr Fold Key)
open Syntax (Literal Stmt)

/-! ### Properties of nodes -/

/-- A property of nodes that columns have and that only variables and accumulators may lack, and an
    invariant of states under which all that is bound has it. -/
structure Spreading (Q : State → Expr → Prop) (I : State → Prop) : Prop where
  grows : ∀ {s s' x}, s.Grows s' → Q s x → Q s' x
  routines : ∀ {s routines}, s.routines ⊆ routines → I s → I { s with routines }
  named : ∀ {s} stem key, I s → I (s.named stem key)
  field : ∀ {s n i type}, s.scope.schema.fieldIndex? n = some i → Q s (.field n (i + 1) type)
  other : ∀ {s x}, (∀ n b, x ≠ .var n b) → (∀ a args, x ≠ .aggregate a args) →
    (∀ n p t, x ≠ .field n p t) → Q s x
  var : ∀ {s n b}, I s → (n, b) ∈ s.scope.bindings → (Expr.var n b).EveryNode (Q s)
  bound : ∀ {s name b}, I s → s.scope.binding? name = none → b.EveryNode (Q s) → I (s.bound name b)

namespace Spreading

variable {Q : State → Expr → Prop} {I : State → Prop} {s : State}

/-- Neither a column nor a variable nor an accumulator. -/
def isPlain : Expr → Bool
  | .field .. | .var .. | .aggregate .. => false
  | _ => true

theorem plain (h : Spreading Q I) {x : Expr} (hx : isPlain x = true) : Q s x := by
  refine h.other ?_ ?_ ?_
  all_goals
    rintro _ _
    intros
    rintro rfl
    cases hx

theorem everyNode_grows (h : Spreading Q I) {s' : State} (hg : s.Grows s') {e : Expr}
    (he : e.EveryNode (Q s)) : e.EveryNode (Q s') :=
  fun x hx => h.grows hg (he x hx)

/-- What a helper is bound to is made of parts with the property. -/
theorem everyNode_helper (h : Spreading Q I) {E : List (String × String × Nat)} {name : String}
    {b : Expr} (hb : Helper (Expr.EveryNode (Q s)) E name b) : b.EveryNode (Q s) := by
  cases hb with
  | held _ _ hv => exact Expr.everyNode_assign.2 ⟨h.plain rfl, hv⟩
  | split _ _ hv hd =>
    refine Expr.everyNode_assign.2 ⟨h.plain rfl, Expr.everyNode_call.2 ⟨h.plain rfl, ?_⟩⟩
    simpa using ⟨hv, h.plain rfl, hd⟩
  | line _ hc =>
    refine Expr.everyNode_op.2 ⟨h.plain rfl, ?_⟩
    simpa using ⟨hc, h.plain rfl, h.plain rfl, h.plain rfl⟩

theorem furnishes (h : Spreading Q I) : Furnishes I fun s e => e.EveryNode (Q s) where
  grows hg he := h.everyNode_grows hg he
  named key _ hi := h.named _ key hi
  bound hi hn hb := h.bound hi hn (h.everyNode_helper hb)
  held hi _ hb := h.var hi hb
  element hi _ _ hb hx := Expr.everyNode_subscript.2
    ⟨h.plain rfl, Expr.everyNode_sideEffect.2 ⟨h.plain rfl, h.var hi hb⟩, hx⟩
  line hi _ hb := Expr.everyNode_sideEffect.2 ⟨h.plain rfl, h.var hi hb⟩

/-- Every node of what is lowered has the property. -/
theorem closed (h : Spreading Q I) {P : Literal → Prop} (hstring : ∀ v, P (.string v))
    (hdigit : ∀ d ∈ ["0", "1", "2"], P (.number d)) :
    Closed P I fun s e => e.EveryNode (Q s) where
  grows hg he := h.everyNode_grows hg he
  routines := h.routines
  string := hstring
  digit := hdigit
  const _ _ := Expr.everyNode_const.2 (h.plain rfl)
  field hf := by
    obtain ⟨i, type, hi, rfl⟩ := Scope.field?_cases hf
    exact Expr.everyNode_field.2 (h.field hi)
  var hi _ hm := h.var hi hm
  word _ := Expr.everyNode_builtin.2 (h.plain rfl)
  call _ _ ha := Expr.everyNode_call.2 ⟨h.plain rfl, ha⟩
  sign _ ha := Expr.everyNode_call.2 ⟨h.plain rfl, by simpa using ha⟩
  subscript hb hi := Expr.everyNode_subscript.2 ⟨h.plain rfl, hb, hi⟩
  op _ ha := Expr.everyNode_op.2 ⟨h.plain rfl, ha⟩
  conditional ht hy hn := Expr.everyNode_conditional.2 ⟨h.plain rfl, ht, hy, hn⟩
  helper hs hs' hv := h.furnishes.helper ⟨hs, hs'⟩ hv
  split hd hv := h.furnishes.split hd hv
  shell hc := h.furnishes.shell hc

end Spreading

namespace GroupProgram

variable {A : Accumulator → List Expr → Prop}

/-! ### Accumulators in expressions -/

/-- All accumulators in an expression, with their arguments, are of some kind. -/
def Tallied (A : Accumulator → List Expr → Prop) (e : Expr) : Prop :=
  e.EveryNode fun x => ∀ a args, x = .aggregate a args → A a args

variable {e : Expr} {B : Accumulator → List Expr → Prop}

theorem mem_aggregates {a : Accumulator} {args : List Expr} :
    (a, args) ∈ e.aggregates ↔ .aggregate a args ∈ e.nodes := by
  rw [Expr.aggregates, mem_filterMap]
  constructor
  · rintro ⟨x, hx, hn⟩
    cases x with
    | aggregate b bs =>
      cases hn
      exact hx
    | _ => cases hn
  · intro h
    exact ⟨_, h, rfl⟩

theorem tallied_iff : Tallied A e ↔ ∀ a args, (a, args) ∈ e.aggregates → A a args := by
  simp only [mem_aggregates]
  constructor
  · exact fun h a args hm => h _ hm a args rfl
  · rintro h x hx a args rfl
    exact h a args hx

theorem Tallied.imp (h : Tallied A e) (hAB : ∀ a args, A a args → B a args) : Tallied B e :=
  fun x hx a args hxa => hAB a args (h x hx a args hxa)

theorem Tallied.assign (h : Tallied A e) (name : String) : Tallied A (.assign name e) :=
  Expr.everyNode_assign.2 ⟨(fun _ _ h => by cases h), h⟩

theorem Tallied.var (h : Tallied A e) (name : String) : Tallied A (.var name e) :=
  Expr.everyNode_var (fun _ _ h => by cases h) h

/-- The accumulators in the bindings of a scope are of some kind. -/
def Tallies (A : Accumulator → List Expr → Prop) (s : Scope) : Prop :=
  ∀ b ∈ s.bindings, Tallied A b.2

/-- No accumulator at all. -/
def Never (_ : Accumulator) (_ : List Expr) : Prop := False

/-- A state with accumulators of one kind in the scope and of another in that of the rows. -/
structure Kept (A B : Accumulator → List Expr → Prop) (s : State) : Prop where
  namer : s.namer.Sound
  scope : Tallies A s.scope
  rows : Tallies B s.rows

namespace Kept

variable {A B : Accumulator → List Expr → Prop} {s : State}

theorem flip (s : State) : Kept A B s ↔ Kept B A s.flip :=
  ⟨fun h => ⟨h.namer, h.rows, h.scope⟩, fun h => ⟨h.namer, h.rows, h.scope⟩⟩

end Kept

/-- An invariant under which the accumulators in the scope of a state are of some kind, which may
    depend on the state. -/
structure Tallying (A : State → Accumulator → List Expr → Prop) (I : State → Prop) : Prop where
  grows : ∀ {s s' a args}, s.Grows s' → A s a args → A s' a args
  routines : ∀ {s routines}, s.routines ⊆ routines → I s → I { s with routines }
  named : ∀ {s} stem key, I s → I (s.named stem key)
  tallies : ∀ {s}, I s → Tallies (A s) s.scope
  bound : ∀ {s name b}, I s → Tallied (A s) b → I (s.bound name b)

namespace Tallying

variable {A : State → Accumulator → List Expr → Prop} {I : State → Prop}

theorem spreading (h : Tallying A I) :
    Spreading (fun s x => ∀ a args, x = .aggregate a args → A s a args) I where
  grows hg hx a args ha := h.grows hg (hx a args ha)
  routines := h.routines
  named := h.named
  field _ _ _ := nofun
  other _ hx _ a args ha := absurd ha (hx a args)
  var hi hm := (h.tallies hi _ hm).var _
  bound hi _ hb := h.bound hi hb

/-- What is lowered has no accumulators but those that are there already. -/
theorem closed (h : Tallying A I) {P : Literal → Prop} (hstring : ∀ v, P (.string v))
    (hdigit : ∀ d ∈ ["0", "1", "2"], P (.number d)) :
    Closed P I fun s e => Tallied (A s) e :=
  h.spreading.closed hstring hdigit

end Tallying

theorem Kept.tallying : Tallying (fun _ => A) (Kept A B) where
  grows _ h := h
  routines _ h := ⟨h.namer, h.scope, h.rows⟩
  named stem key h := ⟨h.namer.nameFor stem key, h.scope, h.rows⟩
  tallies h := h.scope
  bound h hb :=
    ⟨h.namer, forall_mem_append.2 ⟨h.scope, forall_mem_singleton.2 hb⟩, h.rows⟩

theorem closed_tallied (A B : Accumulator → List Expr → Prop) :
    Closed Literal.Spelt (Kept A B) fun _ e => Tallied A e :=
  Kept.tallying.closed Literal.spelt_string Literal.spelt_digit

/-- The accumulators of a category, named after it. -/
def Of (c : Category) (a : Accumulator) (_ : List Expr) : Prop :=
  a.category = c ∧ ∃ i : Nat, a.name = c.stem ++ toString i

/-- Aggregates add accumulators of their category, and their arguments have none. -/
theorem closedRows_tallied {c : Category} (hA : ∀ a args, Of c a args → A a args) :
    ClosedRows Literal.Spelt (Kept A Never) (Kept Never A) (fun _ e => Tallied A e)
      (fun _ e => Tallied Never e) c where
  rows := closed_tallied Never A
  flip := Kept.flip
  accumulate := by
    intro s a t args _ _
    refine (lands_nameFor (Kept.tallying.named _ _)).bind fun name s₁ _ _ hname =>
      lands_pure fun _ => Expr.everyNode_aggregate.2 ?_
    obtain ⟨i, hi, -⟩ := hname
    rintro b bs ⟨⟩
    exact hA _ _ ⟨rfl, i, hi⟩

/-! ### Accumulators of a draft -/

namespace Draft

/-- An accumulator is used by a binding of a scope. -/
def InScope (s : Scope) (a : Accumulator) (args : List Expr) : Prop :=
  ∃ b ∈ s.bindings, (a, args) ∈ b.2.aggregates

variable {a : Accumulator} {args exprs : List Expr} {c : Category}

theorem InScope.mono {s s' : Scope} (h : s.bindings ⊆ s'.bindings) (ha : InScope s a args) :
    InScope s' a args := by
  obtain ⟨b, hb, ha⟩ := ha
  exact ⟨b, h hb, ha⟩

theorem inScope_of_mem {s : Scope} {b : String × Expr} (hb : b ∈ s.bindings) :
    Tallied (InScope s) b.2 :=
  tallied_iff.2 fun _ _ ha => ⟨b, hb, ha⟩

/-- The fold for an accumulator is added unless there is one of its name. -/
def addFold (found : List Fold) (p : Accumulator × List Expr) : List Fold :=
  if found.any fun f => f.accumulator.name == p.1.name then found else found ++ [⟨p.1, p.2⟩]

theorem collect_eq (c : Category) (exprs : List Expr) :
    collect c exprs
      = ((exprs.flatMap Expr.aggregates).filter fun p => p.1.category == c).foldl addFold [] := rfl

/-- What folding over accumulators finds: each name once, and all names. -/
theorem foldl_addFold (ps : List (Accumulator × List Expr)) (found : List Fold)
    (hn : (found.map (·.accumulator.name)).Nodup) :
    ((ps.foldl addFold found).map (·.accumulator.name)).Nodup ∧
      (∀ f ∈ ps.foldl addFold found, f ∈ found ∨ (f.accumulator, f.args) ∈ ps) ∧
      (∀ f ∈ found, f ∈ ps.foldl addFold found) ∧
      ∀ p ∈ ps, ∃ f ∈ ps.foldl addFold found, f.accumulator.name = p.1.name := by
  induction ps generalizing found with
  | nil => exact ⟨hn, fun f hf => .inl hf, fun f hf => hf, fun p hp => by cases hp⟩
  | cons p ps ih =>
    rw [foldl_cons]
    have hone : ((addFold found p).map (·.accumulator.name)).Nodup ∧
        (∀ f ∈ addFold found p, f ∈ found ∨ (f.accumulator, f.args) = p) ∧
        (∀ f ∈ found, f ∈ addFold found p) ∧
        ∃ f ∈ addFold found p, f.accumulator.name = p.1.name := by
      rw [addFold]
      split
      · rename_i h
        obtain ⟨f, hf, hname⟩ := any_eq_true.1 h
        exact ⟨hn, fun f hf => .inl hf, fun f hf => hf, f, hf, by simpa using hname⟩
      · rename_i h
        refine ⟨?_, fun f hf => ?_, fun f hf => mem_append_left _ hf, ⟨p.1, p.2⟩, by simp, rfl⟩
        · rw [map_append, nodup_append]
          refine ⟨hn, by simp, fun n hm n' hm' => ?_⟩
          obtain ⟨f, hf, rfl⟩ := mem_map.1 hm
          rw [map_singleton, mem_singleton] at hm'
          rintro rfl
          exact h (any_eq_true.2 ⟨f, hf, by simpa using hm'⟩)
        · rcases mem_append.1 hf with hf | hf
          · exact .inl hf
          · exact .inr (by rw [mem_singleton.1 hf])
    obtain ⟨hd, hmem, hkeep, f, hf, hname⟩ := hone
    obtain ⟨hd', hmem', hkeep', hall⟩ := ih (addFold found p) hd
    refine ⟨hd', fun g hg => ?_, fun g hg => hkeep' g (hkeep g hg), fun q hq => ?_⟩
    · rcases hmem' g hg with hg | hg
      · rcases hmem g hg with hg | rfl
        · exact .inl hg
        · exact .inr mem_cons_self
      · exact .inr (mem_cons_of_mem p hg)
    · rcases mem_cons.1 hq with rfl | hq
      · exact ⟨f, hkeep' f hf, hname⟩
      · exact hall q hq

theorem mem_collect {f : Fold} (hf : f ∈ collect c exprs) :
    f.accumulator.category = c ∧ ∃ e ∈ exprs, (f.accumulator, f.args) ∈ e.aggregates := by
  rw [collect_eq] at hf
  obtain ⟨-, hmem, -⟩ := foldl_addFold ((exprs.flatMap Expr.aggregates).filter fun p =>
    p.1.category == c) [] nodup_nil
  rcases hmem f hf with hf | hf
  · cases hf
  · obtain ⟨hm, hc⟩ := mem_filter.1 hf
    exact ⟨by simpa using hc, mem_flatMap.1 hm⟩

theorem nodup_collect (c : Category) (exprs : List Expr) :
    ((collect c exprs).map (·.accumulator.name)).Nodup := by
  rw [collect_eq]
  exact (foldl_addFold _ [] nodup_nil).1

theorem exists_collect {e : Expr} (he : e ∈ exprs) (ha : (a, args) ∈ e.aggregates)
    (hc : a.category = c) : ∃ f ∈ collect c exprs, f.accumulator.name = a.name := by
  rw [collect_eq]
  obtain ⟨-, -, -, hall⟩ := foldl_addFold ((exprs.flatMap Expr.aggregates).filter fun p =>
    p.1.category == c) [] nodup_nil
  exact hall (a, args) (mem_filter.2 ⟨mem_flatMap.2 ⟨e, he, ha⟩, by simpa using hc⟩)

/-! ### Keys of a draft -/

/-- Keys are named after their texts, each name once. -/
structure NamedKeys (n : Namer) (keys : List Key) : Prop where
  named : ∀ k ∈ keys, ∃ (text : String) (i j : Nat),
    k.name = "__key" ++ toString i ∧ k.rowName = "__row_key" ++ toString j ∧
      ("__key", text, i) ∈ n.entries ∧ ("__row_key", text, j) ∈ n.entries
  nodup : (keys.map Key.name).Nodup

namespace NamedKeys

variable {n n' : Namer} {keys : List Key}

theorem mono (h : NamedKeys n keys) (hn : n.entries ⊆ n'.entries) : NamedKeys n' keys := by
  refine ⟨fun k hk => ?_, h.nodup⟩
  obtain ⟨text, i, j, hi, hj, hti, htj⟩ := h.named k hk
  exact ⟨text, i, j, hi, hj, hn hti, hn htj⟩

/-- Keys with one name for the row have one text, and so one name. -/
theorem rowNodup (h : NamedKeys n keys) (hn : n.Sound) : (keys.map Key.rowName).Nodup := by
  refine (List.Nodup.of_map _ h.nodup).map_on fun k hk k' hk' he => ?_
  obtain ⟨text, i, j, hi, hj, hti, htj⟩ := h.named k hk
  obtain ⟨text', i', j', hi', hj', hti', htj'⟩ := h.named k' hk'
  have hrow : "__row_key" ∈ stems := by decide
  obtain ⟨-, rfl⟩ := stem_number_inj hrow hrow (hj.symm.trans (he.trans hj'))
  obtain rfl := hn.key_inj htj htj'
  obtain rfl := hn.number_inj hti hti'
  exact inj_on_of_nodup_map h.nodup hk hk' (hi.trans hi'.symm)

theorem disjoint (h : NamedKeys n keys) : ∀ k ∈ keys, ∀ k' ∈ keys, k.name ≠ k'.rowName := by
  intro k hk k' hk' he
  obtain ⟨-, i, -, hi, -⟩ := h.named k hk
  obtain ⟨-, -, j, -, hj, -⟩ := h.named k' hk'
  obtain ⟨hs, -⟩ := stem_number_inj (by decide) (by decide) (hi.symm.trans (he.trans hj))
  exact absurd hs (by decide)

end NamedKeys

/-! ### Taking in keys -/

/-- A draft of which only the keys have been taken in. -/
structure Keyed (d : Draft) : Prop where
  namer : d.namer.Sound
  keys : NamedKeys d.namer d.keys
  key : Tallies Never d.keyScope
  row : Tallies Never d.rowScope
  group : Tallies Never d.groupScope
  stream : Tallies Never d.streamScope
  out : Tallies Never d.outScope

section

variable {d d' : Draft} {outputAll : Bool} {stmt : Stmt}

theorem keyed_start (schema : Schema) : (start schema).Keyed :=
  ⟨Namer.sound_empty, ⟨nofun, nodup_nil⟩, nofun, nofun, nofun, nofun, nofun⟩

/-- One more statement of the key. -/
theorem Keyed.addKey (h : d.Keyed) (hw : stmt.WellFormed Literal.Spelt)
    (hr : addKey outputAll d stmt = .ok d') : d'.Keyed ∧ d'.keys ≠ [] := by
  obtain ⟨value, state, i, j, hk⟩ := addKey_eq_ok hr
  obtain ⟨hkept, -, hv⟩ := (closed_tallied Never Never).lowerRow (wellFormed_stmtExpr hw)
    d.keyState ⟨h.namer, h.key, h.row⟩ value state hk.lower
  obtain ⟨hscopes, hout⟩ := hk.spread (Q := fun p => Tallied Never p.2)
    (fun c => by cases c; exacts [h.group, h.stream]) h.out (hv.assign _)
    fun name b _ hb _ => (hb.var _).assign name
  refine ⟨⟨hk.sound hkept.namer, ?_, hk.key ▸ hkept.scope, hk.row ▸ h.row, hscopes .group,
    hscopes .stream, hout⟩, ?_⟩
  · have hold := h.keys.mono hk.entries.subset
    rw [hk.keys]
    rcases d.keys_groupBy ("__key" ++ toString i) ("__row_key" ++ toString j) value with
      ⟨hkeys, -⟩ | ⟨hkeys, hnew⟩
    · rwa [hkeys]
    · rw [hkeys]
      refine ⟨fun k hm => ?_, ?_⟩
      · rcases mem_append.1 hm with hm | hm
        · exact hold.named k hm
        · rw [mem_singleton.1 hm]
          exact ⟨value.text, i, j, rfl, rfl, hk.entry, hk.rowEntry⟩
      · rw [map_append, nodup_append']
        refine ⟨hold.nodup, nodup_singleton _, ?_⟩
        simpa [disjoint_singleton] using hnew
  · obtain ⟨-, k, hm, -⟩ := hk.subset_keys
    exact ne_nil_of_mem hm

end

/-! ### Taking in statements -/

/-- The accumulators that the statements of a category may use. -/
def kind (d : Draft) : Category → Accumulator → List Expr → Prop
  | .stream => Of .stream
  | .group => fun a args => Of .group a args ∨ InScope d.streamScope a args

/-- A draft in which each accumulator has its place. -/
structure Lawful (d : Draft) : Prop where
  namer : d.namer.Sound
  keys : NamedKeys d.namer d.keys
  row : Tallies Never d.rowScope
  scopes : ∀ c, Tallies (d.kind c) (d.scopeOf c)
  out : Tallies (fun a args => ∃ c, InScope (d.scopeOf c) a args) d.outScope

section

variable {d d' : Draft} {stmt : Stmt}

theorem Keyed.lawful (h : d.Keyed) : d.Lawful := by
  refine ⟨h.namer, h.keys, h.row, fun c b hb => ?_, fun b hb => ?_⟩
  · have hb : Tallied Never b.2 := by
      cases c with
      | group => exact h.group b hb
      | stream => exact h.stream b hb
    exact hb.imp fun _ _ h => h.elim
  · exact (h.out b hb).imp fun _ _ h => h.elim

variable {c : Category} {source : String} {f : Fold}

/-- One more statement about groups or the stream. -/
theorem Lawful.addStatement (h : d.Lawful) (hw : stmt.WellFormed Literal.Spelt)
    (hr : addStatement c source d stmt = .ok d') : d'.Lawful ∧ d'.keys = d.keys := by
  obtain ⟨name, value, state, ha⟩ := addStatement_eq_ok hr
  have hof : ∀ a args, Of c a args → d.kind c a args := by
    intro a args ha
    cases c with
    | group => exact .inl ha
    | stream => exact ha
  obtain ⟨hkept, hgrows, hv⟩ := (closed_tallied (d.kind c) Never).lower
    (fun _ h => by cases h; exact closedRows_tallied hof) _ (wellFormed_stmtExpr hw) (d.stateOf c)
    ⟨h.namer, h.scopes c, h.row⟩ value state ha.lower
  have hnew := inScope_of_mem (Scope.mem_bind_self ha.own)
  have hkind : ∀ x a args, d.kind x a args → d'.kind x a args := by
    intro x a args hx
    cases x with
    | group => exact hx.imp_right (.mono (ha.subset_scopeOf .stream))
    | stream => exact hx
  refine ⟨⟨ha.namer ▸ hkept.namer, ?_, ha.row ▸ hkept.rows, ?_, ?_⟩, ha.keys⟩
  · rw [ha.keys, ha.namer]
    exact h.keys.mono hgrows.namer.subset
  · have hold (x : Category) : Tallies (d'.kind x) (d.scopeOf x) :=
      fun b hb => (h.scopes x b hb).imp (hkind x)
    have hown : Tallies (d'.kind c) (d'.scopeOf c) :=
      Scope.forall_bind ha.own (fun b hb => (hkept.scope b hb).imp (hkind c))
        ((hv.assign name).imp (hkind c))
    intro x
    cases c with
    | group =>
      cases x with
      | group => exact hown
      | stream =>
        rw [scopeOf, ha.stream rfl]
        exact hold .stream
    | stream =>
      cases x with
      | group => exact Scope.forall_bind (ha.group rfl) (hold .group) (hnew.imp fun _ _ => .inr)
      | stream => exact hown
  · -- whatever is new among the outputs is a binding of the scope
    refine (ha.spread (fun x b hb => ?_) (fun b hb => ?_) (fun b hb => ?_) ?_).2
    · exact (inScope_of_mem (ha.subset_scopeOf x hb)).imp fun _ _ hx => ⟨x, hx⟩
    · exact (h.out b hb).imp fun _ _ hx => hx.imp fun x => .mono (ha.subset_scopeOf x)
    · exact (inScope_of_mem (Scope.subset_bind ha.own hb)).imp fun _ _ hx => ⟨c, hx⟩
    · exact hnew.imp fun _ _ hx => ⟨c, hx⟩

theorem Lawful.addSource (h : d.Lawful) (hr : d.addSource c source = .ok d') :
    d'.Lawful ∧ d'.keys = d.keys := by
  obtain ⟨stmts, hp, hr⟩ := except_bind_eq_ok.1 hr
  refine foldlM_induct (Q := fun x => x.Lawful ∧ x.keys = d.keys) ?_ ⟨h, rfl⟩ hr
  rintro stmt hm d₁ d₂ ⟨h₁, hk₁⟩ hd₂
  obtain ⟨h₂, hk₂⟩ := h₁.addStatement (wellFormed_parseSource hp stmt hm) hd₂
  exact ⟨h₂, hk₂.trans hk₁⟩

variable (d) in
/-- The accumulators of a category that a program keeps. -/
def foldsOf : Category → List Fold
  | .group => d.groupFolds
  | .stream => d.streamFolds

/-- All accumulators. -/
def folds (d : Draft) : List Fold := d.groupFolds ++ d.streamFolds

theorem mem_folds : f ∈ d.folds ↔ ∃ c, f ∈ d.foldsOf c := by
  rw [folds, mem_append]
  constructor
  · rintro (h | h)
    · exact ⟨.group, h⟩
    · exact ⟨.stream, h⟩
  · rintro ⟨c, h⟩
    cases c with
    | group => exact .inl h
    | stream => exact .inr h

theorem mem_foldsOf (hf : f ∈ d.foldsOf c) :
    f.accumulator.category = c ∧ InScope (d.scopeOf c) f.accumulator f.args := by
  have hf : f ∈ collect c ((d.scopeOf c).bindings.map Prod.snd) := by cases c <;> exact hf
  obtain ⟨hc, e, he, ha⟩ := mem_collect hf
  obtain ⟨b, hb, rfl⟩ := mem_map.1 he
  exact ⟨hc, b, hb, ha⟩

/-- What a program keeps for a category is named after it. -/
theorem Lawful.of_mem_foldsOf (h : d.Lawful) (hf : f ∈ d.foldsOf c) :
    Of c f.accumulator f.args := by
  obtain ⟨hc, b, hb, ha⟩ := mem_foldsOf hf
  have hkind := tallied_iff.1 (h.scopes c b hb) _ _ ha
  cases c with
  | stream => exact hkind
  | group =>
    rcases hkind with hof | ⟨b', hb', ha'⟩
    · exact hof
    · obtain ⟨hs, -⟩ := tallied_iff.1 (h.scopes .stream b' hb') _ _ ha'
      exact absurd (hs.symm.trans hc) (by decide)

theorem Lawful.of_mem_folds (h : d.Lawful) (hf : f ∈ d.folds) : ∃ c, Of c f.accumulator f.args := by
  obtain ⟨c, hf⟩ := mem_folds.1 hf
  exact ⟨c, h.of_mem_foldsOf hf⟩

/-- The accumulators of the two categories are told apart by the stems of their names. -/
theorem Lawful.nodup_folds (h : d.Lawful) : (d.folds.map (·.accumulator.name)).Nodup := by
  rw [folds, map_append, nodup_append]
  refine ⟨nodup_collect _ _, nodup_collect _ _, fun n hn n' hn' he => ?_⟩
  obtain ⟨f, hf, rfl⟩ := mem_map.1 hn
  obtain ⟨g, hg, rfl⟩ := mem_map.1 hn'
  obtain ⟨-, i, hi⟩ := h.of_mem_foldsOf (c := .group) hf
  obtain ⟨-, j, hj⟩ := h.of_mem_foldsOf (c := .stream) hg
  obtain ⟨hs, -⟩ := stem_number_inj (by decide) (by decide) (hi.symm.trans (he.trans hj))
  exact absurd hs (by decide)

/-- An accumulator that is printed is one of those that the program keeps for its category. -/
theorem Lawful.exists_fold (h : d.Lawful) {b : String × Expr} (hb : b ∈ d.outScope.bindings)
    {a : Accumulator} {args : List Expr} (ha : (a, args) ∈ b.2.aggregates) :
    ∃ f ∈ d.foldsOf a.category, f.accumulator.name = a.name := by
  have hstream : InScope d.streamScope a args →
      ∃ f ∈ d.foldsOf a.category, f.accumulator.name = a.name := by
    rintro ⟨b', hb', ha'⟩
    obtain ⟨hc, -⟩ := tallied_iff.1 (h.scopes .stream b' hb') _ _ ha'
    rw [hc]
    exact exists_collect (mem_map_of_mem hb') ha' hc
  obtain ⟨c, b', hb', ha'⟩ := tallied_iff.1 (h.out b hb) _ _ ha
  cases c with
  | stream => exact hstream ⟨b', hb', ha'⟩
  | group =>
    rcases tallied_iff.1 (h.scopes .group b' hb') _ _ ha' with ⟨hc, -⟩ | hs
    · rw [hc]
      exact exists_collect (mem_map_of_mem hb') ha' hc
    · exact hstream hs

end

end Draft

/-! ### Compiled programs -/

theorem lawful_draft {schema : Schema} {key : Option String}
    {aggregates : List (Category × String)} {options : Options} {d : Draft}
    (h : draft schema key aggregates options = .ok d) :
    d.Lawful ∧ (parseSource (key.getD "1") ≠ .ok [] → d.keys ≠ []) := by
  obtain ⟨stmts, hp, h⟩ := except_bind_eq_ok.1 h
  obtain ⟨d₁, hkeys, h⟩ := except_bind_eq_ok.1 h
  have hkeyed : d₁.Keyed ∧ (stmts ≠ [] → d₁.keys ≠ []) := by
    have hwf := wellFormed_parseSource hp
    cases stmts with
    | nil =>
      cases hkeys
      exact ⟨Draft.keyed_start schema, fun h => absurd rfl h⟩
    | cons stmt stmts =>
      rw [foldlM_cons] at hkeys
      obtain ⟨d₀, hd₀, hkeys⟩ := except_bind_eq_ok.1 hkeys
      have hfirst := (Draft.keyed_start schema).addKey (hwf stmt mem_cons_self) hd₀
      obtain ⟨hk, hne⟩ := foldlM_induct (Q := fun x => x.Keyed ∧ x.keys ≠ [])
        (fun s hs _ _ hb hr => hb.1.addKey (hwf s (mem_cons_of_mem _ hs)) hr) hfirst hkeys
      exact ⟨hk, fun _ => hne⟩
  have hall := foldlM_induct (Q := fun x => x.Lawful ∧ x.keys = d₁.keys)
    (fun p _ b b' hb hr => by
      obtain ⟨hl, hk⟩ := hb.1.addSource hr
      exact ⟨hl, hk.trans hb.2⟩) ⟨hkeyed.1.lawful, rfl⟩ h
  refine ⟨hall.1, fun hne => ?_⟩
  rw [hall.2]
  refine hkeyed.2 fun hnil => hne ?_
  rw [hp, hnil]

/-- A column to group by and a column of numbers, for an example. -/
def keyAndNumber : Schema := ⟨[⟨"a", .any⟩, ⟨"b", .int⟩], [], none, []⟩

end GroupProgram

end RowAwk.Compile
