import RowAwk.Proofs.Filters
import RowAwk.Proofs.Insertions
import RowAwk.Proofs.Reachability

/-!
Columns that are handed on by a directive.

Both directives bind columns to their own names, and nothing refers to a column by a binding. So a
program that binds all columns prints the rows as they are, and its description is the one it was
compiled for. Behind other statements, `__rest__` binds what is left, in the order of the columns:

    columns   a   b   c
    b = a * 2                        prints  ($1 * 2)
    b = a * 2; __rest__              prints  ($1 * 2)  $1  $3

Filters come after all statements and are lowered alike with those bindings and without them.
-/

open List

namespace RowAwk.Compile

open Awk (Block Expr Item Layout Line)
open Schema (Field)
open Syntax (Stmt isHidden)

theorem Scope.hasVar_iff {sc : Scope} {name : String} :
    sc.hasVar name = true ↔ name ∈ sc.names := by
  simp [Scope.hasVar, Scope.binding?, Scope.names]

/-- The state with more bindings at the end of its scope. -/
def State.boundAll (s : State) (more : List (String × Expr)) : State :=
  { s with scope := ⟨s.scope.schema, s.scope.bindings ++ more⟩ }

theorem State.boundAll_nil (s : State) : s.boundAll [] = s := by
  simp [boundAll]

theorem State.boundAll_bound (s : State) (name : String) (b : Expr) (more : List (String × Expr)) :
    (s.bound name b).boundAll more = s.boundAll ((name, b) :: more) := by
  simp [boundAll, bound]

theorem State.names_bound (s : State) (name : String) (b : Expr) :
    (s.bound name b).scope.names = s.scope.names ++ [name] := by
  simp [bound, Scope.names]

namespace RowProgram

open Projection (needed outputs printed staged wanted)

/-! ### Bindings of columns -/

/-- Every column of a stream, bound to its own name. -/
def columnBindings (schema : Schema) : List (String × Expr) :=
  schema.fields.mapIdx fun i f => (f.name, .assign f.name (.field f.name (i + 1) f.type))

/-- What is printed for bindings that nothing refers to. -/
def valuesOf (bs : List (String × Expr)) : List Expr := bs.map fun b => b.2.boundValue

/-- A binding that hands a column on under its own name. -/
def IsColumn (sc : Scope) (b : String × Expr) : Prop :=
  ∃ v, sc.field? b.1 = some v ∧ b.2 = .assign b.1 v

section

variable {schema : Schema} {s : State} {filters maps : List String} {filter : Option Expr}
variable {b : String × Expr}

theorem map_fst_columnBindings (schema : Schema) :
    (columnBindings schema).map Prod.fst = schema.fieldNames := by
  refine ext_getElem (by simp [columnBindings, Schema.fieldNames]) fun i h₁ h₂ => ?_
  simp [columnBindings, Schema.fieldNames]

theorem text_columnBindings (schema : Schema) :
    (valuesOf (columnBindings schema)).map Expr.text
      = (List.range schema.fields.length).map fun i => "$" ++ toString (i + 1) := by
  refine ext_getElem (by simp [valuesOf, columnBindings]) fun i h₁ h₂ => ?_
  simp [valuesOf, columnBindings, Expr.boundValue, Expr.text]

/-- The text of a program that prints each row, with nothing left out on the way. -/
theorem text_printing (values : List Expr) :
    (Awk.Program.written ⟨[], [.line .separator], [.line (.print values)], []⟩).text .compact
      = "BEGIN\x7bOFS=\"\\t\";\x7d\x7bprint(" ++ ",".intercalate (values.map Expr.text)
        ++ ");\x7d" := by
  have hlast : (Line.print values).text.toList.getLast? = some ')' := by
    rw [Line.text, String.toList_append, getLast?_append]
    rfl
  have hsome : (Line.print values).text.isEmpty = false := by simp [Line.text]
  have hstart : Item.layOut? .compact 1 (.line Line.separator.text) = some "OFS=\"\\t\";" := by
    decide
  have hrow : Item.layOut? .compact 1 (.line (Line.print values).text)
      = some ((Line.print values).text ++ ";") := by
    simp [Item.layOut?, Awk.terminated, hsome, hlast, Layout.margin, Layout.compact]
  simp only [Awk.Program.text, Awk.Program.written, Item.toTexts, Item.toText,
    Awk.Program.sectionText, Block.bracedText, Item.layOutAll, hstart, hrow]
  refine String.toList_inj.1 ?_
  simp [Layout.braces, Layout.compact, Layout.margin, Line.text, Expr.texts_eq_map]

theorem mem_columnBindings (hb : b ∈ columnBindings schema) :
    ∃ (i : Nat) (f : Field), schema.fields[i]? = some f ∧
      b = (f.name, .assign f.name (.field f.name (i + 1) f.type)) := by
  obtain ⟨i, hi, rfl⟩ := mem_mapIdx.1 hb
  exact ⟨i, schema.fields[i], List.getElem?_eq_getElem hi, rfl⟩

/-- A column is found under its name, since names differ. -/
theorem isColumn_of_mem (h : schema.fieldNames.Nodup) (hs : s.scope.schema = schema)
    (hb : b ∈ columnBindings schema) : IsColumn s.scope b := by
  obtain ⟨i, f, hf, rfl⟩ := mem_columnBindings hb
  obtain ⟨hi, rfl⟩ := List.getElem?_eq_some_iff.1 hf
  have hfirst (j : Nat) (hj : j < i) :
      (schema.fields[j].name == schema.fields[i].name) = false := by
    refine beq_false_of_ne fun he => hj.ne ?_
    refine (List.getElem?_inj (by simpa [Schema.fieldNames] using hj.trans hi) h).1 ?_
    simp [Schema.fieldNames, List.getElem?_eq_getElem hi, List.getElem?_eq_getElem (hj.trans hi),
      he]
  have hindex : schema.fieldIndex? schema.fields[i].name = some i :=
    List.findIdx?_eq_some_iff_getElem.2 ⟨hi, by simp, fun j hj => by simp [hfirst j hj]⟩
  have hfield : schema.field? schema.fields[i].name = some schema.fields[i] :=
    List.find?_eq_some_iff_getElem.2 ⟨by simp, i, hi, rfl, fun j hj => by simp [hfirst j hj]⟩
  exact ⟨_, by simp only [Scope.field?, hs, hindex, hfield]; rfl, rfl⟩

theorem run_bindField (hb : IsColumn s.scope b) (hn : b.1 ∉ s.scope.names) :
    (bindField b.1).run s = .ok ((), s.bound b.1 b.2) := by
  obtain ⟨v, hf, hv⟩ := hb
  have hnone : s.scope.binding? b.1 = none :=
    Option.not_isSome_iff_eq_none.1 fun h => hn (Scope.hasVar_iff.1 h)
  refine Lower.bind_eq_ok.2 ⟨s, s, rfl, ?_⟩
  simp only [hf]
  exact Lower.run_bind_eq_ok.2 ⟨hnone, by rw [hv]⟩

theorem run_bindRest (hb : IsColumn s.scope b) :
    (bindRest b.1).run s
      = .ok ((), if b.1 ∈ s.scope.names then s else s.bound b.1 b.2) := by
  refine Lower.bind_eq_ok.2 ⟨s, s, rfl, ?_⟩
  by_cases hn : b.1 ∈ s.scope.names
  · rw [if_pos (Scope.hasVar_iff.2 hn), if_pos hn]
    rfl
  · rw [if_neg (Scope.hasVar_iff.not.2 hn), if_neg hn]
    exact run_bindField hb hn

/-- Columns that are not bound are bound in order. -/
theorem run_forM_bindField : ∀ {bs : List (String × Expr)} {s : State},
    (∀ b ∈ bs, IsColumn s.scope b ∧ b.1 ∉ s.scope.names) → (bs.map Prod.fst).Nodup →
      ((bs.map Prod.fst).forM bindField).run s = .ok ((), s.boundAll bs)
  | [], s, _, _ => by
    rw [s.boundAll_nil]
    rfl
  | b :: bs, s, hb, hd => by
    obtain ⟨hmem, hd⟩ := nodup_cons.1 hd
    obtain ⟨⟨hcolumn, hnew⟩, hbs⟩ := forall_mem_cons.1 hb
    have hrest := run_forM_bindField (s := s.bound b.1 b.2) (fun c hc => ?_) hd
    · rw [State.boundAll_bound] at hrest
      exact Lower.bind_eq_ok.2 ⟨(), _, run_bindField hcolumn hnew, hrest⟩
    · refine ⟨(hbs c hc).1, ?_⟩
      rw [State.names_bound, mem_append, mem_singleton, not_or]
      exact ⟨(hbs c hc).2, fun he => hmem (he ▸ mem_map_of_mem hc)⟩

/-- Of some columns those are bound that are not, in order. -/
theorem run_forM_bindRest : ∀ {bs : List (String × Expr)} {s : State},
    (∀ b ∈ bs, IsColumn s.scope b) → (bs.map Prod.fst).Nodup →
      ((bs.map Prod.fst).forM bindRest).run s
        = .ok ((), s.boundAll (bs.filter fun b => b.1 ∉ s.scope.names))
  | [], s, _, _ => by
    rw [filter_nil, s.boundAll_nil]
    rfl
  | b :: bs, s, hb, hd => by
    obtain ⟨hmem, hd⟩ := nodup_cons.1 hd
    obtain ⟨hcolumn, hbs⟩ := forall_mem_cons.1 hb
    refine Lower.bind_eq_ok.2 ⟨(), _, run_bindRest hcolumn, ?_⟩
    by_cases hn : b.1 ∈ s.scope.names
    · rw [if_pos hn, filter_cons_of_neg (by simpa using hn)]
      exact run_forM_bindRest hbs hd
    · rw [if_neg hn, filter_cons_of_pos (by simpa using hn)]
      refine (run_forM_bindRest (s := s.bound b.1 b.2) hbs hd).trans ?_
      rw [State.boundAll_bound]
      congr 4
      refine filter_congr fun c hc => ?_
      have hne : c.1 ≠ b.1 := fun he => hmem (he ▸ mem_map_of_mem hc)
      simp [State.names_bound, hne]

/-! ### Directives -/

/-- The columns that are not among some names, bound to their own. -/
def unbound (schema : Schema) (names : List String) : List (String × Expr) :=
  (columnBindings schema).filter fun b => b.1 ∉ names

theorem exists_bareStatement (name : String)
    (h : ∃ stmts, parseSource name = .ok stmts ∧ stmts.map bareName? = [some name]) :
    ∃ stmt, parseSource name = .ok [stmt] ∧ bareName? stmt = some name := by
  obtain ⟨stmts, hp, hb⟩ := h
  obtain ⟨stmt, rfl⟩ : ∃ stmt, stmts = [stmt] :=
    length_eq_one_iff.1 (by simpa using congrArg List.length hb)
  exact ⟨stmt, hp, by simpa using hb⟩

theorem run_bindSource {source : String} {stmt : Stmt} {t : State}
    (hp : parseSource source = .ok [stmt])
    (h : (bindStatement schema source stmt).run s = .ok ((), t)) :
    (bindSource schema source).run s = .ok ((), t) :=
  Lower.bind_eq_ok.2 ⟨[stmt], s, Lower.lift_eq_ok.2 ⟨hp, rfl⟩, Lower.bind_eq_ok.2 ⟨(), t, h, rfl⟩⟩

theorem run_allFields (hd : schema.fieldNames.Nodup) :
    (bindSource schema allFields).run (.start schema)
      = .ok ((), (State.start schema).boundAll (columnBindings schema)) := by
  obtain ⟨stmt, hp, hb⟩ := exists_bareStatement allFields (by decide +kernel)
  refine run_bindSource hp ?_
  rw [bindStatement, if_pos hb, ← map_fst_columnBindings]
  rw [← map_fst_columnBindings] at hd
  refine run_forM_bindField (fun b hm => ⟨isColumn_of_mem ?_ rfl hm, not_mem_nil⟩) hd
  rwa [← map_fst_columnBindings]

theorem run_restFields (hd : schema.fieldNames.Nodup) (hs : s.scope.schema = schema) :
    (bindSource schema restFields).run s
      = .ok ((), s.boundAll (unbound schema s.scope.names)) := by
  obtain ⟨stmt, hp, hb⟩ := exists_bareStatement restFields (by decide +kernel)
  refine run_bindSource hp ?_
  rw [bindStatement, if_neg (by rw [hb]; decide), if_pos hb, ← map_fst_columnBindings]
  exact run_forM_bindRest (fun b hm => isColumn_of_mem hd hs hm) (by rwa [map_fst_columnBindings])

theorem lowerAll_nil_eq_ok {t : State} :
    (lowerAll schema [] maps).run s = .ok (filter, t) ↔ filter = none ∧
      ((if maps.isEmpty then [allFields] else maps).forM (bindSource schema)).run s
        = .ok ((), t) := by
  simp only [lowerAll, Lower.bind_eq_ok, Lower.pure_eq_ok, mapM_nil]
  constructor
  · rintro ⟨u, v, h, _, _, ⟨rfl, rfl⟩, rfl, rfl⟩
    exact ⟨rfl, h⟩
  · rintro ⟨rfl, h⟩
    exact ⟨(), t, h, [], t, ⟨rfl, rfl⟩, rfl, rfl⟩

variable {names : List String} {sc : Scope} {name : String}

theorem mem_unbound : b ∈ unbound schema names ↔ b ∈ columnBindings schema ∧ b.1 ∉ names := by
  simp [unbound]

theorem unbound_nil (schema : Schema) : unbound schema [] = columnBindings schema :=
  filter_eq_self.2 fun _ _ => decide_eq_true not_mem_nil

theorem unbound_of_subset (h : schema.fieldNames ⊆ names) : unbound schema names = [] := by
  refine filter_eq_nil_iff.2 fun b hb => ?_
  have hmem : b.1 ∈ schema.fieldNames := by
    rw [← map_fst_columnBindings]
    exact mem_map_of_mem hb
  simpa using h hmem

theorem schema_lowerAll
    (h : (lowerAll schema filters maps).run (.start schema) = .ok (filter, s)) :
    s.scope.schema = schema := by
  have hstart : Rooted (.start schema) := ⟨nodup_nil, nofun⟩
  obtain ⟨-, hg, -⟩ := (binds_rooted (N := fun _ => True)).lowerAll closed_rooted
    (fun _ _ => trivial) hstart filter s h
  exact hg.schema

/-- Behind any statements, `__rest__` binds the columns that they have left. No statements stand
    for all columns. -/
theorem lowerAll_restFields (hd : schema.fieldNames.Nodup)
    (h : (lowerAll schema [] maps).run (.start schema) = .ok (none, s)) :
    (lowerAll schema [] (maps ++ [restFields])).run (.start schema)
      = .ok (none, s.boundAll (unbound schema s.scope.names)) := by
  have hs := schema_lowerAll h
  obtain ⟨-, h⟩ := lowerAll_nil_eq_ok.1 h
  refine lowerAll_nil_eq_ok.2 ⟨rfl, ?_⟩
  rw [if_neg (by simp)]
  cases maps with
  | nil =>
    obtain ⟨u, t, ht, hr⟩ := Lower.bind_eq_ok.1 h
    obtain ⟨-, rfl⟩ := Lower.pure_eq_ok.1 hr
    cases (run_allFields hd).symm.trans ht
    have hall : ((State.start schema).boundAll (columnBindings schema)).scope.names
        = schema.fieldNames := map_fst_columnBindings schema
    rw [hall, unbound_of_subset (List.Subset.refl _), State.boundAll_nil]
    refine Lower.bind_eq_ok.2 ⟨(), _, (run_restFields hd rfl).trans ?_, rfl⟩
    rw [show (State.start schema).scope.names = [] from rfl, unbound_nil]
  | cons source maps =>
    rw [if_neg (by simp)] at h
    rw [forM_eq_forM, forM_append]
    refine Lower.bind_eq_ok.2 ⟨(), s, h, ?_⟩
    exact Lower.bind_eq_ok.2 ⟨(), _, run_restFields hd hs, rfl⟩

/-! ### Programs -/

/-- What each row goes through in a program that prints a scope. -/
def rowBlock (sc : Scope) (filter : Option Expr) : Awk.Block Line Awk.Head :=
  staged filter (needed sc filter.toList [])
    (needed sc (sc.bindings.map Prod.snd) (filter.toList.flatMap Expr.varNames))
    ((outputs sc).map fun q =>
      printed ((filter.toList ++ sc.bindings.map Prod.snd).flatMap Expr.varNames) q.1 q.2)

theorem compile_of_lowerAll
    (hl : (lowerAll schema filters maps).run (.start schema) = .ok (filter, s))
    (hne : outputs s.scope ≠ []) :
    compile schema filters maps = .ok
      ⟨⟨s.routines, [.line .separator], rowBlock s.scope filter, []⟩,
        description schema (outputs s.scope) (if filter.isNone then schema.size else none)⟩ := by
  obtain ⟨c, hc⟩ := exists_compile_iff.2 ⟨filter, s, hl, hne⟩
  obtain ⟨filter', t, hl', hschema⟩ := schema_compile hc
  cases hl.symm.trans hl'
  rw [hc, ← hschema]
  obtain ⟨f, t, p, derived, hr, hp, -, rfl⟩ := compile_eq_ok hc
  cases hl.symm.trans hr
  rw [Projection.block_of hp]
  rfl

section

variable {sc : Scope} {first added last : List (String × Expr)}

theorem needed_inserted (hB : sc.bindings = first ++ last) {exprs exprs' : List Expr}
    (he : exprs'.flatMap Expr.varNames = exprs.flatMap Expr.varNames)
    (hn : ∀ b ∈ added, b.1 ∉ exprs.flatMap Expr.varNames) (computed : List String) :
    needed ⟨sc.schema, first ++ added ++ last⟩ exprs' computed = needed sc exprs computed := by
  have hadded : (added.filter fun b => wanted exprs computed b.1) = [] := by
    refine filter_eq_nil_iff.2 fun b hb hw => hn b hb ?_
    simp only [wanted, Bool.and_eq_true, contains_iff_mem] at hw
    exact hw.1.2
  have hwanted : wanted exprs' = wanted exprs := by
    funext computed name
    rw [wanted, wanted, he]
  rw [Projection.needed_eq, Projection.needed_eq, hB, hwanted]
  simp only [filter_append, hadded, append_nil]

/-- Bindings without variables that nothing refers to are computed nowhere and printed as they
    are, and others do not notice them. -/
theorem rowBlock_inserted (hB : sc.bindings = first ++ last)
    (hvars : ∀ b ∈ added, b.2.varNames = [])
    (hnames : ∀ b ∈ added,
      b.1 ∉ (filter.toList ++ sc.bindings.map Prod.snd).flatMap Expr.varNames)
    (houts : outputs ⟨sc.schema, first ++ added ++ last⟩ = outputs sc ++ added) :
    ∃ before after values, rowBlock sc filter = staged filter before after values ∧
      rowBlock ⟨sc.schema, first ++ added ++ last⟩ filter
        = staged filter before after (values ++ valuesOf added) := by
  have hadded : (added.map Prod.snd).flatMap Expr.varNames = [] := by
    refine flatMap_eq_nil_iff.2 fun e he => ?_
    obtain ⟨b, hb, rfl⟩ := mem_map.1 he
    exact hvars b hb
  have hall : ((first ++ added ++ last).map Prod.snd).flatMap Expr.varNames
      = (sc.bindings.map Prod.snd).flatMap Expr.varNames := by
    rw [hB]
    simp only [map_append, flatMap_append, hadded, append_nil]
  have hprinted : (added.map fun q => printed
      ((filter.toList ++ sc.bindings.map Prod.snd).flatMap Expr.varNames) q.1 q.2)
      = valuesOf added := by
    refine map_congr_left fun b hb => ?_
    rw [printed, if_neg (by simpa using hnames b hb)]
  refine ⟨_, _, _, rfl, ?_⟩
  simp only [flatMap_append, mem_append, not_or] at hnames
  rw [rowBlock, needed_inserted hB rfl fun b hb => (hnames b hb).1,
    needed_inserted hB hall fun b hb => (hnames b hb).2, houts, map_append, ← hprinted]
  simp only [flatMap_append, hall]

end

/-! ### All columns -/

theorem varNames_of_mem_columnBindings (hb : b ∈ columnBindings schema) : b.2.varNames = [] := by
  obtain ⟨i, f, -, rfl⟩ := mem_columnBindings hb
  simp [Expr.varNames, Expr.nodes, Expr.varName?]

theorem isHidden_of_mem_columnBindings (hn : ∀ f ∈ schema.fields, isHidden f.name = false)
    (hb : b ∈ columnBindings schema) : isHidden b.1 = false := by
  obtain ⟨i, f, hf, rfl⟩ := mem_columnBindings hb
  exact hn f (mem_of_getElem? hf)

theorem outputs_columnBindings (hn : ∀ f ∈ schema.fields, isHidden f.name = false) :
    outputs ⟨schema, columnBindings schema⟩ = columnBindings schema :=
  filter_eq_self.2 fun b hb => by simp [isHidden_of_mem_columnBindings hn hb]

theorem rowBlock_columnBindings (hn : ∀ f ∈ schema.fields, isHidden f.name = false) :
    rowBlock ⟨schema, columnBindings schema⟩ none
      = [.line (.print (valuesOf (columnBindings schema)))] := by
  have hvars : ((columnBindings schema).map Prod.snd).flatMap Expr.varNames = [] := by
    refine flatMap_eq_nil_iff.2 fun e he => ?_
    obtain ⟨b, hb, rfl⟩ := mem_map.1 he
    exact varNames_of_mem_columnBindings hb
  have hneeded (exprs : List Expr) (h : exprs.flatMap Expr.varNames = []) (computed : List String) :
      needed ⟨schema, columnBindings schema⟩ exprs computed = [] := by
    rw [Projection.needed_eq, filter_eq_nil_iff.2, map_nil]
    simp [wanted, h]
  rw [rowBlock, hneeded _ rfl, hneeded _ hvars, outputs_columnBindings hn]
  simp only [Option.toList_none, nil_append, hvars]
  rfl

/-- The column that a binding becomes. -/
def fieldOf (b : String × Expr) : Field := ⟨b.1, (Expr.var b.1 b.2).type⟩

theorem map_fieldOf_columnBindings (schema : Schema) :
    (columnBindings schema).map fieldOf = schema.fields := by
  refine ext_getElem (by simp [columnBindings]) fun i h₁ h₂ => ?_
  simp [columnBindings, fieldOf, Expr.type]

theorem map_fieldOf_unbound (schema : Schema) (names : List String) :
    (unbound schema names).map fieldOf = schema.fields.filter fun f => f.name ∉ names := by
  conv => rhs; rw [← map_fieldOf_columnBindings schema]
  rw [filter_map]
  rfl

theorem carriedOrder_self {kept : List (String × String)} : ∀ {order : List Schema.Order},
    (∀ o ∈ order, kept.lookup o.name = some o.name) → Projection.carriedOrder kept order = order
  | [], _ => rfl
  | o :: order, h => by
    obtain ⟨ho, horder⟩ := forall_mem_cons.1 h
    rw [Projection.carriedOrder, ho]
    dsimp only
    rw [carriedOrder_self horder]

/-- A stream whose columns are all handed on is described as it was. -/
theorem description_columnBindings (hv : schema.Valid) :
    description schema (columnBindings schema) schema.size = schema := by
  have hkept : ∀ o ∈ schema.order,
      (Projection.handedOn [] (columnBindings schema)).lookup o.name = some o.name := by
    intro o ho
    have hmem := hv.ordered o ho
    rw [← map_fst_columnBindings, mem_map] at hmem
    obtain ⟨b, hb, hname⟩ := hmem
    obtain ⟨i, f, -, rfl⟩ := mem_columnBindings hb
    rw [← hname]
    exact (Projection.lookup_handedOn [] _ f.name).2.2 (.inr ⟨_, hb, .field⟩)
  have hfields : ((columnBindings schema).map fun b => (⟨b.1, (Expr.var b.1 b.2).type⟩ : Field))
      = schema.fields := map_fieldOf_columnBindings schema
  rw [description, carriedOrder_self hkept, hfields]

/-- All columns are bound by either directive alone, and where there is no statement. -/
theorem lowerAll_columns (hd : schema.fieldNames.Nodup)
    (hm : maps ∈ [[], [allFields], [restFields]]) :
    (lowerAll schema [] maps).run (.start schema)
      = .ok (none, (State.start schema).boundAll (columnBindings schema)) := by
  have hall : (lowerAll schema [] []).run (.start schema)
      = .ok (none, (State.start schema).boundAll (columnBindings schema)) :=
    lowerAll_nil_eq_ok.2 ⟨rfl, Lower.bind_eq_ok.2 ⟨(), _, run_allFields hd, rfl⟩⟩
  simp only [mem_cons, not_mem_nil, or_false] at hm
  rcases hm with rfl | rfl | rfl
  · exact hall
  · exact hall
  · have hrest := lowerAll_restFields hd hall
    rw [unbound_of_subset, State.boundAll_nil] at hrest
    · exact hrest
    · intro n hn
      rwa [← map_fst_columnBindings] at hn

/-! ### Columns that are left -/

theorem mem_names_iff (hn : isHidden name = false) :
    name ∈ sc.names ↔ name ∈ (outputs sc).map Prod.fst := by
  simp [Scope.names, outputs, hn]

theorem unbound_congr (hn : ∀ f ∈ schema.fields, isHidden f.name = false) {sc' : Scope}
    (h : outputs sc = outputs sc') : unbound schema sc.names = unbound schema sc'.names := by
  refine filter_congr fun b hb => ?_
  have hb := isHidden_of_mem_columnBindings hn hb
  simp only [mem_names_iff hb, h]

/-- Every column is bound in the end, so something is printed. -/
theorem outputs_append_unbound_ne_nil (hne : schema.fields ≠ [])
    (hn : ∀ f ∈ schema.fields, isHidden f.name = false) :
    outputs sc ++ unbound schema sc.names ≠ [] := by
  intro h
  obtain ⟨houts, hrest⟩ := append_eq_nil_iff.1 h
  obtain ⟨f, hf⟩ := exists_mem_of_ne_nil _ hne
  have hbound : f.name ∈ sc.names := by
    have hfields := map_fieldOf_unbound schema sc.names
    rw [hrest, map_nil, eq_comm, filter_eq_nil_iff] at hfields
    simpa using hfields f hf
  rw [mem_names_iff (hn f hf), houts] at hbound
  cases hbound

/-- Behind statements and filters, `__rest__` adds the columns that the statements have left to
    what is bound, and changes nothing else. -/
theorem exists_lowerAll_restFields (hd : schema.fieldNames.Nodup)
    (hn : ∀ f ∈ schema.fields, isHidden f.name = false)
    (h : (lowerAll schema filters maps).run (.start schema) = .ok (filter, s)) :
    ∃ first last, s.scope.bindings = first ++ last ∧
      (lowerAll schema filters (maps ++ [restFields])).run (.start schema)
        = .ok (filter, { s with
            scope := ⟨s.scope.schema, first ++ unbound schema s.scope.names ++ last⟩ }) ∧
      outputs ⟨s.scope.schema, first ++ unbound schema s.scope.names ++ last⟩
        = outputs s.scope ++ unbound schema s.scope.names := by
  obtain ⟨s₀, tests, h₀, hparse, htests, rfl⟩ := lowerAll_eq_ok.1 h
  obtain ⟨houts, -, -⟩ := mapM_value_cases (wellFormed_statements filters) htests
  have hsame := unbound_congr hn houts
  have hcolumn : ∀ b ∈ unbound schema s₀.scope.names,
      (s₀.scope.field? b.1).isSome = true ∧ isHidden b.1 = false := by
    intro b hb
    obtain ⟨hb, -⟩ := mem_unbound.1 hb
    obtain ⟨v, hf, -⟩ := isColumn_of_mem hd (schema_lowerAll h₀) hb
    exact ⟨by rw [hf]; rfl, isHidden_of_mem_columnBindings hn hb⟩
  -- the filters are lowered beside the columns as they were
  have hinserted : Inserted s₀.scope.bindings (unbound schema s₀.scope.names) s₀
      (s₀.boundAll (unbound schema s₀.scope.names)) :=
    ⟨hcolumn, [], by simp, by simp [State.boundAll]⟩
  have hunmoved : Unmoved s₀.scope.bindings (unbound schema s₀.scope.names)
      ((filters.flatMap statements).mapM Lowering.value) :=
    ofSteps_unmoved.mapM fun stmt _ => Lowering.ofSteps_value ofSteps_unmoved stmt
  obtain ⟨t, ht, ⟨-, last, hlast, rfl⟩⟩ := hunmoved _ _ _ _ hinserted htests
  refine ⟨s₀.scope.bindings, last, hlast, ?_, ?_⟩
  · rw [hsame]
    exact lowerAll_eq_ok.2 ⟨_, tests, lowerAll_restFields hd h₀, hparse, ht, rfl⟩
  · have hshown : (unbound schema s.scope.names).filter (fun b => !isHidden b.1)
        = unbound schema s.scope.names := by
      refine filter_eq_self.2 fun b hb => ?_
      simp [isHidden_of_mem_columnBindings hn (mem_unbound.1 hb).1]
    have hlasts : last.filter (fun b => !isHidden b.1) = [] := by
      rw [outputs, hlast, filter_append, outputs] at houts
      exact append_right_eq_self.1 houts
    rw [houts]
    simp only [outputs, filter_append, hshown, hlasts, append_nil]

theorem not_mem_varNames
    (h : (lowerAll schema filters maps).run (.start schema) = .ok (filter, s))
    (hn : name ∉ s.scope.names) :
    name ∉ (filter.toList ++ s.scope.bindings.map Prod.snd).flatMap Expr.varNames := by
  obtain ⟨hrooted, hfilter⟩ := rooted_lowerAll h
  have hbound {e : Expr} (he : VarsIn s.scope.bindings e) : name ∉ e.varNames := by
    intro hm
    obtain ⟨b, hb⟩ := Expr.mem_varNames.1 hm
    exact hn (mem_map.2 ⟨(name, b), he name b hb, rfl⟩)
  intro hm
  obtain ⟨e, he, hm⟩ := mem_flatMap.1 hm
  rcases mem_append.1 he with he | he
  · exact hbound (hfilter e (Option.mem_toList.1 he)) hm
  · obtain ⟨b, hb, rfl⟩ := mem_map.1 he
    exact hbound (hrooted.varsIn b hb) hm

end

/-- Where the columns are all that is bound, a program prints its rows as they are and describes
    them as they were described. Behind any other statements, `__rest__` adds each column that they
    have not bound, once and in order, and all that was computed and printed stays as it was. -/
theorem directives_hand_columns_on {schema : Schema} (hv : schema.Valid) (hne : schema.fields ≠ [])
    (hn : ∀ f ∈ schema.fields, Syntax.isHidden f.name = false) :
    (∀ maps ∈ [[], [allFields], [restFields]], compile schema [] maps
      = .ok ⟨⟨[], [.line .separator], [.line (.print (valuesOf (columnBindings schema)))], []⟩,
          schema⟩) ∧
      (valuesOf (columnBindings schema)).map Expr.text
        = (List.range schema.fields.length).map (fun i => "$" ++ toString (i + 1)) ∧
      (Awk.Program.written ⟨[], [.line .separator],
          [.line (.print (valuesOf (columnBindings schema)))], []⟩).text .compact
        = "BEGIN\x7bOFS=\"\\t\";\x7d\x7bprint(" ++ ",".intercalate
            ((List.range schema.fields.length).map fun i => "$" ++ toString (i + 1)) ++ ");\x7d" ∧
      ∀ filters maps filter state,
        (lowerAll schema filters maps).run (.start schema) = .ok (filter, state) →
        ∃ state' both,
          (lowerAll schema filters (maps ++ [restFields])).run (.start schema)
            = .ok (filter, state') ∧
          state'.scope.names.Nodup ∧
          outputs state'.scope = outputs state.scope ++ unbound schema state.scope.names ∧
          compile schema filters (maps ++ [restFields]) = .ok both ∧
          ∀ alone, compile schema filters maps = .ok alone →
            both.schema.fields = alone.schema.fields
              ++ schema.fields.filter (fun f => f.name ∉ state.scope.names) ∧
            ∃ before after values,
              alone.program = ⟨state.routines, [.line .separator],
                staged filter before after values, []⟩ ∧
              both.program = ⟨state.routines, [.line .separator], staged filter before after
                (values ++ valuesOf (unbound schema state.scope.names)), []⟩ := by
  refine ⟨fun maps hm => ?_, text_columnBindings schema, ?_, ?_⟩
  · have hsome : columnBindings schema ≠ [] := by
      intro he
      rw [← map_fieldOf_columnBindings schema, he] at hne
      exact hne rfl
    rw [← outputs_columnBindings hn] at hsome
    refine (compile_of_lowerAll (lowerAll_columns hv.distinct hm) hsome).trans ?_
    have hscope : ((State.start schema).boundAll (columnBindings schema)).scope
      = ⟨schema, columnBindings schema⟩ := rfl
    rw [hscope, rowBlock_columnBindings hn, outputs_columnBindings hn, Option.isNone_none,
      if_pos rfl, description_columnBindings hv]
    rfl
  · rw [text_printing, text_columnBindings]
  · intro filters maps filter state h
    obtain ⟨first, last, hB, h', houts⟩ := exists_lowerAll_restFields hv.distinct hn h
    have hboth := compile_of_lowerAll h' (by rw [houts]; exact outputs_append_unbound_ne_nil hne hn)
    refine ⟨_, _, h', nodup_lowerAll h', houts, hboth, fun alone halone => ?_⟩
    obtain ⟨filter', state', hl, hne⟩ := exists_compile_iff.1 ⟨alone, halone⟩
    cases h.symm.trans hl
    cases halone.symm.trans (compile_of_lowerAll h hne)
    obtain ⟨before, after, values, hrow, hrow'⟩ := rowBlock_inserted hB
      (fun b hb => varNames_of_mem_columnBindings (mem_unbound.1 hb).1)
      (fun b hb => not_mem_varNames h (mem_unbound.1 hb).2) houts
    refine ⟨?_, before, after, values, by rw [hrow], ?_⟩
    · rw [houts, ← map_fieldOf_unbound]
      exact List.map_append
    · exact congrArg (Awk.Program.mk state.routines [.line .separator] · []) hrow'

/-- Three columns with a size, sorted by the last and then by the first of them. -/
def sortedByLast : Schema where
  fields := [⟨"a", .any⟩, ⟨"b", .int⟩, ⟨"c", .str⟩]
  order := [⟨"c", .text, true⟩, ⟨"a", .numeric, false⟩]
  size := some 7
  metadata := []

/-- A sorted stream, by itself and behind a statement that binds one of its columns anew, with a
    filter that shares a helper with it. -/
theorem directives_hand_columns_on_sortedByLast :
    sortedByLast.Valid ∧ sortedByLast.fields ≠ [] ∧
      (∀ f ∈ sortedByLast.fields, Syntax.isHidden f.name = false) ∧
      (∃ c, compile sortedByLast [] [restFields] = .ok c ∧ c.schema = sortedByLast) ∧
      ∃ filter state both,
        (lowerAll sortedByLast ["abs(b) > a"] ["b = abs(b)"]).run (.start sortedByLast)
          = .ok (filter, state) ∧
        compile sortedByLast ["abs(b) > a"] ["b = abs(b)", restFields] = .ok both := by
  have hv : sortedByLast.Valid := by decide
  have hne : sortedByLast.fields ≠ [] := by decide
  have hn : ∀ f ∈ sortedByLast.fields, Syntax.isHidden f.name = false := by decide
  obtain ⟨hall, -, -, hrest⟩ := directives_hand_columns_on hv hne hn
  obtain ⟨⟨filter, state⟩, hl⟩ := exists_eq_ok
    (x := (lowerAll sortedByLast ["abs(b) > a"] ["b = abs(b)"]).run (.start sortedByLast))
    (by decide +kernel)
  obtain ⟨-, both, -, -, -, hboth, -⟩ := hrest _ _ _ _ hl
  exact ⟨hv, hne, hn, ⟨_, hall [restFields] (by simp), rfl⟩, filter, state, both, hl, hboth⟩

end RowProgram

end RowAwk.Compile
