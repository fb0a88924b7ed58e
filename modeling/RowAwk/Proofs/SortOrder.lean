import RowAwk.Proofs.Definedness
import RowAwk.Proofs.Running

/-!
The sort order that a program derives.

An output hands a column on if its statement is the column itself, the column joined to an empty
text, or a variable whose statement hands it on. Entries of the sort order of the input are taken
over, under the names of such outputs, up to the first one whose column is not handed on.

    order    a      b:desc    c           y = x,  x = a,  b = (b, ""),  z = c + 1
    derived  y      b:desc                stops at c

What is printed then shows, for each entry that was taken over, the text of the column of some row.
So records that come from rows in order are in the derived order.
-/

open List

namespace RowAwk

/-! ### Handing columns on -/

namespace Awk.Expr

/-- A statement hands a column on. -/
inductive HandsOn (column : String) : Expr → Prop
  | field {target position type} : HandsOn column (.assign target (.field column position type))
  | joined {target position type} : HandsOn column
      (.assign target (.op .concat [.field column position type, .const (.str "")]))
  | through {target name binding} : HandsOn column binding →
      HandsOn column (.assign target (.var name binding))

theorem passes?_eq_some {e : Expr} {column : String} :
    e.passes? = some column ↔ HandsOn column e := by
  constructor
  · intro h
    fun_induction passes? e with
    | case1 => cases h; exact .field
    | case2 => cases h; exact .joined
    | case3 _ _ _ ih => exact .through (ih h)
    | case4 => cases h
  · intro h
    induction h with
    | field | joined => rw [passes?]
    | through _ ih => rw [passes?, ih]

end Awk.Expr

/-! ### Lists in order -/

namespace Schema

variable {α β : Type} (le : SortKind → String → String → Prop)

/-- How two texts compare under an entry, given how they do for each kind. -/
def Order.Le (o : Order) (a b : String) : Prop :=
  if o.descending then le o.kind b a else le o.kind a b

/-- Things compare by the first entry for which they are told apart. -/
def Precedes (value : String → α → String) : List Order → α → α → Prop
  | [], _, _ => True
  | o :: os, x, y =>
    o.Le le (value o.name x) (value o.name y) ∧
      (o.Le le (value o.name y) (value o.name x) → Precedes value os x y)

instance Order.decidableLe [∀ k a b, Decidable (le k a b)] (o : Order) (a b : String) :
    Decidable (o.Le le a b) :=
  inferInstanceAs (Decidable (if o.descending then le o.kind b a else le o.kind a b))

instance Precedes.decidable [∀ k a b, Decidable (le k a b)] (value : String → α → String) :
    ∀ order x y, Decidable (Precedes le value order x y)
  | [], _, _ => .isTrue trivial
  | o :: os, x, y =>
    have := Precedes.decidable value os x y
    inferInstanceAs (Decidable (o.Le le (value o.name x) (value o.name y) ∧
      (o.Le le (value o.name y) (value o.name x) → Precedes le value os x y)))

section

variable {le} {value : String → α → String} {value' : String → β → String} {order : List Order}

theorem Order.Le.refl (hrefl : ∀ k a, le k a a) (o : Order) (a : String) : o.Le le a a := by
  unfold Le
  split <;> exact hrefl _ _

theorem precedes_refl (hrefl : ∀ k a, le k a a) (x : α) : Precedes le value order x x := by
  induction order with
  | nil => trivial
  | cons o order ih => exact ⟨.refl hrefl o _, fun _ => ih⟩

/-- Things that show the same texts compare in the same way, as far as they do. -/
theorem Precedes.of_shown {derived : List Order} {x y : α} {x' y' : β}
    (hlength : derived.length ≤ order.length)
    (hkinds : ∀ p ∈ order.zip derived, p.2.kind = p.1.kind ∧ p.2.descending = p.1.descending)
    (hx : ∀ p ∈ order.zip derived, value' p.2.name x' = value p.1.name x)
    (hy : ∀ p ∈ order.zip derived, value' p.2.name y' = value p.1.name y)
    (h : Precedes le value order x y) : Precedes le value' derived x' y' := by
  induction derived generalizing order with
  | nil => trivial
  | cons d derived ih =>
    cases order with
    | nil => cases hlength
    | cons o order =>
      rw [zip_cons_cons, forall_mem_cons] at hkinds hx hy
      have hle : ∀ a b, d.Le le a b ↔ o.Le le a b := fun a b => by
        rw [Order.Le, Order.Le, hkinds.1.1, hkinds.1.2]
      refine ⟨?_, fun hyx => ?_⟩
      · rw [hle, hx.1, hy.1]
        exact h.1
      · rw [hle, hx.1, hy.1] at hyx
        exact ih (Nat.le_of_succ_le_succ hlength) hkinds.2 hx.2 hy.2 (h.2 hyx)

end

end Schema

namespace Compile

open Awk (Engine Expr Head Job Line Machine Row Store)
open Awk.Expr (HandsOn passes?_eq_some)
open Schema (Field Order SortKind)
open Syntax (Literal)

/-- An entry takes the place of another: it compares in the same way, and names an output that hands
    on the column of the other, the one of the same name if that does. -/
structure Carries (outputs : List (String × Expr)) (o d : Order) : Prop where
  kind : d.kind = o.kind
  descending : d.descending = o.descending
  handed : ∃ b, (d.name, b) ∈ outputs ∧ HandsOn o.name b
  own : (∃ b, (o.name, b) ∈ outputs ∧ HandsOn o.name b) → d.name = o.name

/-- An order is derived from another: its entries take the places of the first ones, and no longer
    list has such entries. -/
structure DerivedFrom (outputs : List (String × Expr)) (order derived : List Order) : Prop where
  carries : List.Forall₂ (Carries outputs) (order.take derived.length) derived
  longest : ∀ other, List.Forall₂ (Carries outputs) (order.take other.length) other →
    other.length ≤ derived.length

variable {order derived : List Order}

theorem DerivedFrom.length_le {outputs : List (String × Expr)}
    (h : DerivedFrom outputs order derived) : derived.length ≤ order.length := by
  have := h.carries.length_eq
  rw [length_take] at this
  omega

theorem DerivedFrom.carries_of_mem {outputs : List (String × Expr)}
    (h : DerivedFrom outputs order derived) {p : Order × Order} (hp : p ∈ order.zip derived) :
    Carries outputs p.1 p.2 := by
  rw [zip_eq_zip_take_min, Nat.min_eq_right h.length_le, take_length] at hp
  exact forall₂_zip h.carries hp

namespace Projection

variable {column name : String} {kept : List (String × String)} {outs : List (String × Expr)}

/-- The output that a column is handed on to after one more output. Nothing takes over from the
    output of the same name. -/
theorem lookup_handedOn_cons (kept : List (String × String)) (name : String) (statement : Expr)
    (outs : List (String × Expr)) : ∃ kept', handedOn kept ((name, statement) :: outs)
        = handedOn kept' outs ∧
      ∀ column, (HandsOn column statement ∧ kept.lookup column ≠ some column ∧
          kept'.lookup column = some name) ∨
        ((HandsOn column statement → kept.lookup column = some column) ∧
          kept'.lookup column = kept.lookup column) := by
  cases hp : statement.passes? with
  | none =>
    refine ⟨kept, by simp [handedOn, hp], fun column => .inr ⟨fun h => ?_, rfl⟩⟩
    rw [passes?_eq_some.2 h] at hp
    cases hp
  | some c =>
    have hc := passes?_eq_some.1 hp
    have same {column : String} (h : HandsOn column statement) : column = c :=
      Option.some.inj ((passes?_eq_some.2 h).symm.trans hp)
    by_cases hk : kept.lookup c = some c
    · refine ⟨kept, by simp [handedOn, hp, hk], fun column => .inr ⟨fun h => ?_, rfl⟩⟩
      rw [same h, hk]
    · refine ⟨(c, name) :: kept, by simp [handedOn, hp, hk], fun column => ?_⟩
      by_cases hcol : column = c
      · subst hcol
        exact .inl ⟨hc, hk, by simp⟩
      · refine .inr ⟨fun h => absurd (same h) hcol, ?_⟩
        rw [lookup_cons, beq_eq_false_iff_ne.2 hcol]

/-- The output that a column is handed on to, if any is: that of the same name if it is among them,
    and else one of them. -/
theorem lookup_handedOn (kept : List (String × String)) (outs : List (String × Expr))
    (column : String) :
    ((handedOn kept outs).lookup column = none →
        kept.lookup column = none ∧ ∀ p ∈ outs, ¬HandsOn column p.2) ∧
      (∀ name, (handedOn kept outs).lookup column = some name →
        kept.lookup column = some name ∨ ∃ b, (name, b) ∈ outs ∧ HandsOn column b) ∧
      ((kept.lookup column = some column ∨ ∃ b, (column, b) ∈ outs ∧ HandsOn column b) →
        (handedOn kept outs).lookup column = some column) := by
  induction outs generalizing kept with
  | nil => simp [handedOn]
  | cons p outs ih =>
    obtain ⟨name, statement⟩ := p
    obtain ⟨kept', heq, h⟩ := lookup_handedOn_cons kept name statement outs
    obtain ⟨hnone, hsome, hown⟩ := ih kept'
    rw [heq]
    rcases h column with ⟨hs, hne, hl⟩ | ⟨hs, hl⟩
    · refine ⟨fun hn => ?_, fun n hn => ?_, ?_⟩
      · rw [(hnone hn).1] at hl
        cases hl
      · rcases hsome n hn with hn | ⟨b, hb, hc⟩
        · cases hl.symm.trans hn
          exact .inr ⟨statement, mem_cons_self, hs⟩
        · exact .inr ⟨b, mem_cons_of_mem _ hb, hc⟩
      · rintro (hk | ⟨b, hb, hc⟩)
        · exact absurd hk hne
        · rcases mem_cons.1 hb with hb | hb
          · cases hb
            exact hown (.inl hl)
          · exact hown (.inr ⟨b, hb, hc⟩)
    · rw [hl] at hnone hsome hown
      refine ⟨fun hn => ?_, fun n hn => ?_, ?_⟩
      · obtain ⟨hk, hall⟩ := hnone hn
        refine ⟨hk, forall_mem_cons.2 ⟨fun hc => ?_, hall⟩⟩
        rw [hs hc] at hk
        cases hk
      · exact (hsome n hn).imp_right fun ⟨b, hb, hc⟩ => ⟨b, mem_cons_of_mem _ hb, hc⟩
      · rintro (hk | ⟨b, hb, hc⟩)
        · exact hown (.inl hk)
        · rcases mem_cons.1 hb with hb | hb
          · cases hb
            exact hown (.inl (hs hc))
          · exact hown (.inr ⟨b, hb, hc⟩)

/-- What is derived is the longest order whose entries take the places of the first ones. -/
theorem derivedFrom_carriedOrder (outs : List (String × Expr)) (order : List Order) :
    DerivedFrom outs order (carriedOrder (handedOn [] outs) order) := by
  have hnone {o : Order} (h : (handedOn [] outs).lookup o.name = none) :
      ∀ p ∈ outs, ¬HandsOn o.name p.2 := ((lookup_handedOn [] outs o.name).1 h).2
  have hsome {o : Order} {n : String} (h : (handedOn [] outs).lookup o.name = some n) :
      Carries outs o ⟨n, o.kind, o.descending⟩ := by
    obtain ⟨-, hmem, hown⟩ := lookup_handedOn [] outs o.name
    refine ⟨rfl, rfl, (hmem n h).resolve_left nofun, fun hb => ?_⟩
    exact Option.some.inj (h.symm.trans (hown (.inr hb)))
  generalize handedOn [] outs = kept at hnone hsome
  induction order with
  | nil =>
    refine ⟨.nil, fun other h => ?_⟩
    cases other with
    | nil => exact Nat.le_refl _
    | cons => cases h
  | cons o order ih =>
    rw [carriedOrder]
    cases hl : kept.lookup o.name with
    | none =>
      refine ⟨.nil, fun other h => ?_⟩
      cases other with
      | nil => exact Nat.le_refl _
      | cons d other =>
        rw [length_cons, take_succ_cons, forall₂_cons] at h
        obtain ⟨b, hb, hc⟩ := h.1.handed
        exact absurd hc (hnone hl _ hb)
    | some n =>
      refine ⟨?_, fun other h => ?_⟩
      · rw [length_cons, take_succ_cons]
        exact .cons (hsome hl) ih.carries
      · cases other with
        | nil => exact Nat.zero_le _
        | cons d other =>
          rw [length_cons, take_succ_cons, forall₂_cons] at h
          exact Nat.succ_le_succ (ih.longest other h.2)

end Projection

/-! ### What rows and records show -/

section

variable {V : Type} (text : V → String)

/-- The text of the column of a name. -/
def columnText (schema : Schema) (name : String) (row : Row V) : String :=
  ((schema.fieldIndex? name).map fun i => text (row.columns (i + 1))).getD ""

/-- The text of a record under a name. -/
def recordText (schema : Schema) (name : String) (record : List V) : String :=
  (((schema.fieldNames.zip record).lookup name).map text).getD ""

/-- A record shows what a row does, for all entries of the sort order that were taken over. -/
def Shows (schema derived : Schema) (record : List V) (row : Row V) : Prop :=
  ∀ p ∈ schema.order.zip derived.order,
    recordText text derived p.2.name record = columnText text schema p.1.name row

variable {text} {schema : Schema}
variable {derived : Schema}

/-- Records that show rows in order are in the derived order. -/
theorem pairwise_of_shows {le : SortKind → String → String → Prop} {outs : List (String × Expr)}
    (hd : DerivedFrom outs schema.order derived.order) {records : List (List V)}
    {rows : List (Row V)} (hs : List.Forall₂ (Shows text schema derived) records rows)
    (hrows : rows.Pairwise (Schema.Precedes le (columnText text schema) schema.order)) :
    records.Pairwise (Schema.Precedes le (recordText text derived) derived.order) := by
  have hkinds : ∀ p ∈ schema.order.zip derived.order,
      p.2.kind = p.1.kind ∧ p.2.descending = p.1.descending := fun p hp =>
    ⟨(hd.carries_of_mem hp).kind, (hd.carries_of_mem hp).descending⟩
  induction hs with
  | nil => exact .nil
  | @cons record row records rows hr hs ih =>
    rw [pairwise_cons] at hrows ⊢
    refine ⟨fun record' hm => ?_, ih hrows.2⟩
    obtain ⟨i, hi, rfl⟩ := getElem_of_mem hm
    have hi' : i < rows.length := hs.length_eq ▸ hi
    exact (hrows.1 rows[i] (getElem_mem hi')).of_shown hd.length_le hkinds hr
      (hs.get hi hi')

/-- What is printed for an output stands in the record under its name. -/
theorem recordText_outputs {outs : List (String × Expr)} {name : String} {b : Expr}
    (hnames : derived.fieldNames = outs.map Prod.fst) (hn : (outs.map Prod.fst).Nodup)
    (hm : (name, b) ∈ outs) (value : String × Expr → V) :
    recordText text derived name (outs.map value) = text (value (name, b)) := by
  have hlookup : ((outs.map Prod.fst).zip (outs.map value)).lookup name = some (value (name, b)) := by
    clear hnames
    induction outs with
    | nil => cases hm
    | cons p outs ih =>
      rw [map_cons, nodup_cons] at hn
      rw [map_cons, map_cons, zip_cons_cons, lookup_cons]
      rcases mem_cons.1 hm with rfl | hm
      · simp
      · have hne : name ≠ p.1 := fun h => hn.1 (h ▸ mem_map.2 ⟨_, hm, rfl⟩)
        rw [beq_eq_false_iff_ne.2 hne]
        exact ih hn.2 hm
  rw [recordText, hnames, hlookup]
  rfl

end

/-! ### Columns in expressions -/

/-- Every column in an expression is where the description of the stream has it. -/
def Columned (schema : Schema) (e : Expr) : Prop :=
  e.EveryNode fun x => ∀ n p t, x = .field n p t → ∃ i, schema.fieldIndex? n = some i ∧ p = i + 1

/-- So are the columns in all that a state has bound. -/
def State.Columned (s : State) : Prop := ∀ b ∈ s.scope.bindings, Compile.Columned s.scope.schema b.2

theorem spreading_columned :
    Spreading (fun s x => ∀ n p t, x = .field n p t →
      ∃ i, s.scope.schema.fieldIndex? n = some i ∧ p = i + 1) State.Columned where
  grows hg hx n p t heq := by
    rw [hg.schema]
    exact hx n p t heq
  routines _ h := h
  named _ _ h := h
  field hi n p t heq := by
    cases heq
    exact ⟨_, hi, rfl⟩
  other _ _ hx n p t heq := absurd heq (hx n p t)
  var hi hm := Awk.Expr.everyNode_var (by nofun) (hi _ hm)
  bound hi _ hb := forall_mem_append.2 ⟨hi, forall_mem_singleton.2 hb⟩

theorem closed_columned :
    Closed Literal.Spelt State.Columned fun s e => Columned s.scope.schema e :=
  spreading_columned.closed Literal.spelt_string Literal.spelt_digit

/-- A value is another one, perhaps joined to an empty text. -/
def Keeps {V : Type} (M : Machine V) (v w : V) : Prop :=
  w = v ∨ w = M.op .concat [v, M.const (.str "")]

/-- A statement that hands a column on has its value, once all variables are inlined. -/
theorem handsOn_inlined {column : String} {b : Expr} (h : HandsOn column b) :
    ∃ p t, .field column p t ∈ b.nodes ∧ ∀ (V : Type) (M : Machine V) columns words,
      Keeps M (columns p) (M.inlined columns words b.boundValue) := by
  induction h with
  | @field target p t =>
    refine ⟨p, t, by simp [Expr.nodes], fun V M columns words => .inl ?_⟩
    rw [Expr.boundValue, Machine.inlined]
  | @joined target p t =>
    refine ⟨p, t, by simp [Expr.nodes, Expr.nodesAll], fun V M columns words => .inr ?_⟩
    simp only [Expr.boundValue, Machine.inlined, Machine.inlinedAll]
  | @through target name binding hb ih =>
    obtain ⟨p, t, hm, hv⟩ := ih
    -- a statement that hands a column on is an assignment, whose value the variable has
    obtain ⟨m, v, rfl⟩ : ∃ m v, binding = .assign m v := by cases hb <;> exact ⟨_, _, rfl⟩
    refine ⟨p, t, ?_, fun V M columns words => ?_⟩
    · simp only [Expr.nodes, mem_cons, reduceCtorEq, false_or] at hm ⊢
      exact hm
    · simp only [Expr.boundValue, Machine.inlined] at hv ⊢
      exact hv V M columns words

/-! ### Projections -/

namespace Projection

variable {s : Scope} {filter : Option Expr} {order : List Order} {p : Projection}

/-- A projection gives the outputs as columns, and what is derived from the order of the input. -/
theorem of_cases (h : Projection.of s filter order = .ok p) :
    p.fields.map Field.name = (outputs s).map Prod.fst ∧
      p.order = carriedOrder (handedOn [] (outputs s)) order ∧
      Awk.Block.isRowwise p.block = true := by
  rw [Projection.of] at h
  split at h
  · cases h
  cases h
  have hline (statements : List Expr) : Awk.Block.isRowwise (computeLine statements) = true := by
    cases statements <;> rfl
  refine ⟨by simp, rfl, ?_⟩
  cases filter <;>
    simp [Awk.Block.isRowwise_append, hline, Awk.Block.isRowwise, Awk.Item.isRowwise]

variable {size : Option Nat} {metadata : Schema.Metadata} {derived : Schema}

theorem schema_cases (h : p.schema size metadata = .ok derived) :
    derived.fields = p.fields ∧ derived.order = p.order := by
  rw [Projection.schema] at h
  split at h
  · rename_i s hs
    cases h
    rw [Schema.ofFields] at hs
    split at hs
    · split at hs
      · cases hs
      · cases hs
        exact ⟨rfl, rfl⟩
    · cases hs
  · cases h

/-- What a program prints of a scope, and the order that it derives. -/
theorem derivedFrom (hp : Projection.of s filter order = .ok p)
    (hd : p.schema size metadata = .ok derived) :
    derived.fieldNames = (outputs s).map Prod.fst ∧
      DerivedFrom (outputs s) order derived.order := by
  obtain ⟨hfields, horder, -⟩ := of_cases hp
  obtain ⟨hf, ho⟩ := schema_cases hd
  refine ⟨by rw [Schema.fieldNames, hf, hfields], ?_⟩
  rw [ho, horder]
  exact derivedFrom_carriedOrder _ _

end Projection

/-! ### Row programs -/

namespace RowProgram

variable {schema : Schema} {filters maps : List String} {c : Compiled}

theorem binds_columned {N : String → Prop} :
    Binds State.Columned (fun s e => Columned s.scope.schema e) N :=
  fun _ _ _ _ _ hv hi => forall_mem_append.2
    ⟨hi, forall_mem_singleton.2 (Awk.Expr.everyNode_assign.2 ⟨nofun, hv⟩)⟩

theorem derivedFrom_compile (hc : compile schema filters maps = .ok c) :
    ∃ filter state, (lowerAll schema filters maps).run (.start schema) = .ok (filter, state) ∧
      c.schema.fieldNames = (Projection.outputs state.scope).map Prod.fst ∧
      DerivedFrom (Projection.outputs state.scope) schema.order c.schema.order := by
  obtain ⟨filter, state, projection, derived, hl, hp, hd, rfl⟩ := compile_eq_ok hc
  exact ⟨filter, state, hl, Projection.derivedFrom hp hd⟩

/-- A row program prints records for some of its rows, in order, and each shows its row. -/
theorem exists_shown (hc : compile schema filters maps = .ok c)
    (hn : ∀ n ∈ boundNames schema maps, Plain n) {V : Type} (E : Engine V) {text : V → String}
    {rows : List (Row V)} (hjoin : ∀ row ∈ rows, ∀ p,
      text (E.op .concat [row.columns p, E.const (.str "")]) = text (row.columns p))
    (outside : Nat → V) (σ : Store V) :
    ∃ shown, shown.Sublist rows ∧
      List.Forall₂ (Shows text schema c.schema) (E.run c.program outside σ rows) shown := by
  obtain ⟨filter, state, projection, derived, hl, hp, hd, rfl⟩ := compile_eq_ok hc
  obtain ⟨hs, -, hf⟩ := lands_lowerAll hn (Scoped.start schema) filter state hl
  have hstart : (State.start schema).Columned := fun _ h => by cases h
  obtain ⟨hcolumned, hgrows, -⟩ := (binds_columned (N := fun _ => True)).lowerAll closed_columned
    (fun _ _ => trivial) hstart filter state hl
  obtain ⟨hnames, hderived⟩ := Projection.derivedFrom hp hd
  obtain ⟨-, -, hrowwise⟩ := Projection.of_cases hp
  -- a record has the values of all outputs with their variables inlined
  have hshows : ∀ row ∈ rows, ∀ words : Store V, Shows text schema derived
      ((Projection.outputs state.scope).map fun b =>
        E.inlined row.columns words b.2.boundValue) row := by
    intro row hrow words o ho
    obtain ⟨b, hb, hands⟩ := (hderived.carries_of_mem ho).handed
    have hout := mem_of_mem_filter hb
    obtain ⟨p, t, hm, hv⟩ := handsOn_inlined hands
    obtain ⟨i, hi, rfl⟩ := hcolumned _ hout _ hm _ _ _ rfl
    have hnodup : ((Projection.outputs state.scope).map Prod.fst).Nodup :=
      hs.bindings.nodup.sublist (filter_sublist.map Prod.fst)
    rw [hgrows.schema] at hi
    rw [recordText_outputs hnames hnodup hb, columnText, show schema.fieldIndex? _ = _ from hi]
    rcases hv V E.toMachine row.columns words with hv | hv
    · rw [hv]
      rfl
    · rw [hv, hjoin row hrow]
      rfl
  -- a row that does not pass the filter is skipped
  have hrow : ∀ row ∈ rows, ∀ j : Job V,
      (E.runRow ⟨state.routines, [.line .separator], projection.block, []⟩ j row).records
          = j.records ∨
        ∃ record, Shows text schema derived record row ∧
          (E.runRow ⟨state.routines, [.line .separator], projection.block, []⟩ j row).records
            = j.records ++ [record] := by
    intro row hrow j
    have hprinted : (E.runBlock row.columns (Engine.arrive row j) projection.block).records = _ :=
      (Engine.runBlock_rowwise _ hrowwise (Engine.arrive row j)).2
    rw [Projection.run_block hs.namer hs.bindings hf hp] at hprinted
    rw [Engine.runRow, hprinted]
    split
    · exact .inr ⟨_, hshows row hrow _, rfl⟩
    · exact .inl (append_nil _)
  obtain ⟨shown, records, hsub, hrecords, hprinted⟩ :=
    Engine.exists_sublist_records hrow ⟨σ, 0, false, []⟩
  refine ⟨shown, hsub, ?_⟩
  rw [Engine.run, Engine.moments, Engine.runBlock_separator, Engine.runBlock, ← Job.records,
    hprinted]
  exact hrecords

end RowProgram

end Compile

end RowAwk
