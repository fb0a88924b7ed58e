import RowAwk.Proofs.Calls
import RowAwk.Proofs.GroupNames

/-!
Helpers stay the compiler's own.

A call of the library refers to helpers by names that a namer has numbered. As long as no source
binds a name of that form, whatever is bound under it is the statement made for the argument of the
call, in row programs and in grouping programs alike. A source that does bind one is not refused: its
binding is taken for the helper.

    _abs0 = 5; x = abs(a - 1)       ──▶       x = ((_abs0 < 0)?-(_abs0):_abs0)   with  _abs0 = 5
-/

namespace RowAwk.Compile

open Awk (Aggregate Category Const Expr)
open Syntax (Literal Stmt)

/-- Names that sources may bind without touching helpers. -/
def Free (name : String) : Prop := isGenerated name = false

/-- No names at all. -/
def Nobody (_ : String) : Prop := False

theorem free_of_nobody : ∀ n, Nobody n → isGenerated n = false := fun _ h => h.elim

theorem free_internal {name : String} (h : Syntax.isInternal name = true) : Free name :=
  isGenerated_of_isInternal h

/-- The helpers that a call refers to are those made for its arguments. -/
def Call.Hygienic : Call → Prop
  | .library f args x s => Expansion s.scope args f x
  | .aggregate .. => True

section

variable {P : Literal → Prop} {C : Const → Prop} {U V : String → Prop}

theorem observed_hygienic (hP : Admits P C) (hU : ∀ n, U n → isGenerated n = false) :
    Observed (Hygienic C U V) (fun _ e => e.Lowered C) fun _ c => c.Hygienic where
  grows _ _ _ _ h := h
  library hv hr := lands_expand hP hU _ hv hr

theorem closedRows_hygienic (hP : Admits P C) (c : Category) :
    ClosedRows P (Hygienic C U V) (Hygienic C V U) (fun _ e => e.Lowered C)
      (fun _ e => e.Lowered C) c :=
  closedRows_lowered Hygienic.tolerant Hygienic.tolerant hP Hygienic.flip c

theorem observedRows_hygienic (hP : Admits P C) (hV : ∀ n, V n → isGenerated n = false)
    (c : Category) :
    ObservedRows (Hygienic C U V) (Hygienic C V U) (fun _ e => e.Lowered C)
      (fun _ c => c.Hygienic) c where
  rows := observed_hygienic hP hV
  aggregate ha := by
    refine (ClosedRows.expand (closed_lowered Hygienic.tolerant hP) (closedRows_hygienic hP c) _
      ha).imp fun _ _ _ _ _ => ?_
    trivial

end

/-! ### Row programs -/

namespace RowProgram

variable {P : Literal → Prop} {C : Const → Prop} {schema : Schema}
variable {U V : String → Prop}

theorem binds_hygienic : Binds (Hygienic C U V) (fun _ e => e.Lowered C) U :=
  fun _ _ _ hn _ hv hi => hi.bound (.source hn hv)

theorem hygienic_start (schema : Schema) : Hygienic C U V (.start schema) where
  namer := Namer.sound_empty
  scope _ _ h := by cases h
  rows _ _ h := by cases h

/-- All calls of a row program are hygienic. -/
theorem hygienic_calls {filters maps : List String} {filter : Option Expr} {s : State}
    (h : (lowerAll schema filters maps).run (.start schema) = .ok (filter, s))
    (hn : ∀ n ∈ boundNames schema maps, isGenerated n = false) :
    ∀ c ∈ calls schema filters maps, c.Hygienic := by
  have hclosed : Closed Literal.Spelt (Hygienic Const.Written Free Free) fun _ e =>
      e.Lowered Const.Written := closed_lowered Hygienic.tolerant admits_spelt
  have hobserved := observed_hygienic (U := Free) (V := Free) admits_spelt fun _ h => h
  have hall := lowerAll_induct (Q := fun s cs => Hygienic Const.Written Free Free s ∧
    ∀ c ∈ cs, c.Hygienic) h ⟨hygienic_start schema, fun _ h => by cases h⟩
    (fun source hsource stmt hstmt s s' cs hq hr => ?_)
    fun source _ stmt hstmt s s' cs x hq hr => ?_
  · exact hall.2
  · have hfree : ∀ n ∈ boundBy schema stmt, Free n := by
      intro n hb
      obtain ⟨stmts, hp, hm⟩ := exists_of_mem_statements hstmt
      refine hn n (List.mem_flatMap.2 ⟨source, hsource, ?_⟩)
      rw [hp]
      exact List.mem_flatMap.2 ⟨stmt, hm, hb⟩
    obtain ⟨hi, -, hc⟩ := binds_hygienic.callsStatement hclosed hobserved
      (wellFormed_of_mem_statements hstmt) hfree hq.1 () s' hr
    exact ⟨hi, fun c hm => (List.mem_append.1 hm).elim (hq.2 c) (hc c)⟩
  · obtain ⟨hi, -, hc⟩ := Lowering.lands_callsValue hclosed hobserved
      (wellFormed_of_mem_statements hstmt) s hq.1 x s' hr
    exact ⟨hi, fun c hm => (List.mem_append.1 hm).elim (hq.2 c) (hc c)⟩

end RowProgram

/-! ### Grouping programs -/

namespace GroupProgram

namespace Draft

/-- A draft whose scopes are hygienic; the scopes of keys and rows have bound helpers only. -/
structure Hygienic (C : Const → Prop) (U : String → Prop) (d : Draft) : Prop where
  namer : d.namer.Sound
  key : d.keyScope.Hygienic C Nobody d.namer.entries
  row : d.rowScope.Hygienic C Nobody d.namer.entries
  scopes : ∀ c, (d.scopeOf c).Hygienic C U d.namer.entries
  out : d.outScope.Hygienic C U d.namer.entries

variable {P : Literal → Prop} {C : Const → Prop} {U : String → Prop} {d d' : Draft} {stmt : Stmt}
variable {outputAll : Bool}

theorem hygienic_start (schema : Schema) : (start schema).Hygienic C U := by
  have nothing {U : String → Prop} (schema : Schema) :
      (Scope.of schema).Hygienic C U Namer.empty.entries := fun _ _ h => by cases h
  exact ⟨Namer.sound_empty, nothing _, nothing _, fun c => by cases c <;> exact nothing _,
    nothing _⟩

theorem Hygienic.addKey (h : d.Hygienic C U) (hP : Admits P C)
    (hU : ∀ n, Syntax.isInternal n = true → U n) (hw : stmt.WellFormed P)
    (hn : ∀ n, keyName? outputAll stmt = some n → U n) (hr : addKey outputAll d stmt = .ok d') :
    d'.Hygienic C U ∧ ∀ c ∈ Lowering.calls none (stmtExpr stmt) d.keyState, c.Hygienic := by
  obtain ⟨value, state, i, j, hk⟩ := addKey_eq_ok hr
  have he := wellFormed_stmtExpr hw
  have hclosed : Closed P (Compile.Hygienic C Nobody Nobody) fun _ e => e.Lowered C :=
    closed_lowered Hygienic.tolerant hP
  have hi : Compile.Hygienic C Nobody Nobody d.keyState := ⟨h.namer, h.key, h.row⟩
  obtain ⟨hs, -, hv⟩ := hclosed.lowerRow he d.keyState hi value state hk.lower
  obtain ⟨-, -, hcalls⟩ := Lowering.lands_calls (J := Compile.Hygienic C Nobody Nobody)
    (L := fun _ e => e.Lowered C) hclosed (fun _ hc => by cases hc)
    (observed_hygienic hP free_of_nobody) (fun _ hc => by cases hc) _ he d.keyState hi value state
    hk.lower
  have hE := hk.entries.subset
  obtain ⟨hscopes, hout⟩ := hk.spread (Q := fun p => Entry C U d'.namer.entries p.1 p.2)
    (fun c p hp => (h.scopes c p.1 p.2 hp).mono hE) (fun p hp => (h.out p.1 p.2 hp).mono hE)
    (.source (hU _ (isInternal_key i)) hv)
    fun name b hname _ _ => .source (hn name hname) (.var (isName_number (by decide) i))
  refine ⟨⟨hk.sound hs.namer, ?_, ?_, fun c n b hm => hscopes c (n, b) hm,
    fun n b hm => hout (n, b) hm⟩, hcalls⟩
  · rw [hk.key]
    exact hs.scope.mono hk.starts.subset
  · rw [hk.row]
    exact h.row.mono hE

variable {c : Category} {source : String}

/-- A statement binds a name of the kind `U`, and helpers. -/
theorem Hygienic.takesIn (h : d.Hygienic C U) (hP : Admits P C) (hw : stmt.WellFormed P)
    (hn : ∀ n, boundName? stmt = some n → U n) (hr : addStatement c source d stmt = .ok d') :
    d'.Hygienic C U := by
  obtain ⟨name, value, state, ha⟩ := addStatement_eq_ok hr
  have hclosed : Closed P (Compile.Hygienic C U Nobody) fun _ e => e.Lowered C :=
    closed_lowered Hygienic.tolerant hP
  obtain ⟨hs, hg, hv⟩ := hclosed.lower
    (fun x _ => closedRows_hygienic (U := U) (V := Nobody) hP x) _ (wellFormed_stmtExpr hw)
    (d.stateOf c) ⟨h.namer, h.scopes c, h.row⟩ value state ha.lower
  have hE : d.namer.entries ⊆ state.namer.entries := hg.namer.subset
  obtain ⟨hscopes, hout⟩ := ha.spread (Q := fun p => Entry C U d'.namer.entries p.1 p.2)
    (fun c p hp => ha.namer ▸ (h.scopes c p.1 p.2 hp).mono hE)
    (fun p hp => ha.namer ▸ (h.out p.1 p.2 hp).mono hE)
    (fun p hp => ha.namer ▸ hs.scope p.1 p.2 hp) (.source (hn name ha.bound) hv)
  refine ⟨ha.namer ▸ hs.namer, ?_, ?_, fun c n b hm => hscopes c (n, b) hm,
    fun n b hm => hout (n, b) hm⟩
  · rw [ha.key, ha.namer]
    exact h.key.mono hE
  · rw [ha.row, ha.namer]
    exact hs.rows

theorem Hygienic.addStatement (h : d.Hygienic C U) (hP : Admits P C)
    (hU : ∀ n, U n → isGenerated n = false) (hw : stmt.WellFormed P)
    (hn : ∀ n, boundName? stmt = some n → U n) (hr : addStatement c source d stmt = .ok d') :
    d'.Hygienic C U ∧ ∀ call ∈ Lowering.calls (some c) (stmtExpr stmt) (d.stateOf c),
      call.Hygienic := by
  refine ⟨h.takesIn hP hw hn hr, ?_⟩
  obtain ⟨name, value, state, ha⟩ := addStatement_eq_ok hr
  have hclosed : Closed P (Compile.Hygienic C U Nobody) fun _ e => e.Lowered C :=
    closed_lowered Hygienic.tolerant hP
  obtain ⟨-, -, hcalls⟩ := Lowering.lands_callsBinding hclosed
    (fun x _ => closedRows_hygienic (U := U) (V := Nobody) hP x) (observed_hygienic hP hU)
    (fun x _ => observedRows_hygienic hP free_of_nobody x) hw (d.stateOf c)
    ⟨h.namer, h.scopes c, h.row⟩ _ state ha.binds
  exact hcalls

end Draft

variable {P : Literal → Prop} {C : Const → Prop} {U : String → Prop}

/-- A draft is hygienic, and so are all calls, if sources write literals of the kind `P` and bind
    names of the kind `U`. -/
theorem hygienic_calls (hP : Admits P C) (hU : ∀ n, U n → isGenerated n = false)
    (hU' : ∀ n, Syntax.isInternal n = true → U n) {schema : Schema} {key : Option String}
    {aggregates : List (Category × String)} {options : Options} {d : Draft}
    (h : draft schema key aggregates options = .ok d)
    (hw : ∀ source ∈ key.getD "1" :: aggregates.map Prod.snd, ∀ stmt ∈ statements source,
      stmt.WellFormed P)
    (hn : ∀ n ∈ boundNames key aggregates options, U n) :
    d.Hygienic C U ∧ ∀ c ∈ calls schema key aggregates options, c.Hygienic := by
  refine draft_induct (Q := fun d cs => d.Hygienic C U ∧ ∀ c ∈ cs, c.Hygienic) h
    ⟨Draft.hygienic_start schema, fun _ h => by cases h⟩ (fun stmt hstmt d d' cs hq hr => ?_)
    fun p hp stmt hstmt d d' cs hq hr => ?_
  · obtain ⟨hd, hc⟩ := hq.1.addKey hP hU' (hw _ List.mem_cons_self stmt hstmt)
      (fun n hname => hn n (List.mem_append_left _ (List.mem_filterMap.2 ⟨stmt, hstmt, hname⟩))) hr
    exact ⟨hd, fun c hm => (List.mem_append.1 hm).elim (hq.2 c) (hc c)⟩
  · obtain ⟨hd, hc⟩ := hq.1.addStatement hP hU
      (hw _ (List.mem_cons_of_mem _ (List.mem_map_of_mem hp)) stmt hstmt)
      (fun n hname => hn n (List.mem_append_right _ (List.mem_flatMap.2
        ⟨p, hp, List.mem_filterMap.2 ⟨stmt, hstmt, hname⟩⟩))) hr
    exact ⟨hd, fun c hm => (List.mem_append.1 hm).elim (hq.2 c) (hc c)⟩

end GroupProgram

/-! ### Both kinds of programs -/

/-- Where no source binds a name of the form that helpers have, each call of the library in a
    program that compiles refers to helpers whose statements are those of its own arguments. -/
theorem library_calls_hygienic (schema : Schema) :
    (∀ filters maps c, RowProgram.compile schema filters maps = .ok c →
      (∀ n ∈ RowProgram.boundNames schema maps, isGenerated n = false) →
      ∀ f args x s, .library f args x s ∈ RowProgram.calls schema filters maps →
        Expansion s.scope args f x) ∧
    ∀ key aggregates options c, GroupProgram.compile schema key aggregates options = .ok c →
      (∀ n ∈ GroupProgram.boundNames key aggregates options, isGenerated n = false) →
      ∀ f args x s, .library f args x s ∈ GroupProgram.calls schema key aggregates options →
        Expansion s.scope args f x := by
  constructor
  · intro filters maps c hc hn f args x s hm
    obtain ⟨filter, state, -, -, hl, -⟩ := RowProgram.compile_eq_ok hc
    exact RowProgram.hygienic_calls hl hn _ hm
  · intro key aggregates options c hc hn f args x s hm
    obtain ⟨d, -, -, hd, -⟩ := GroupProgram.compile_eq_ok hc
    exact (GroupProgram.hygienic_calls admits_spelt (fun _ h => h) (fun _ => free_internal) hd
      (fun _ _ _ => wellFormed_of_mem_statements) hn).2 _ hm

open RowProgram (twoColumns) in
/-- Two sources that share helpers: one of a projection and its filter, one of a key and the
    arguments of aggregates. -/
theorem library_calls_hygienic_twoColumns :
    (∃ c f args x s,
      RowProgram.compile twoColumns ["abs(a - 1) > 2"]
        ["x = min(abs(a - 1), b); n = unjoin(',', a, 1)"] = .ok c ∧
      .library f args x s ∈ RowProgram.calls twoColumns ["abs(a - 1) > 2"]
        ["x = min(abs(a - 1), b); n = unjoin(',', a, 1)"] ∧
      Expansion s.scope args f x) ∧
    ∃ c f args x s,
      GroupProgram.compile twoColumns (some "abs(a - 1)")
        [(.group, "s = sum(max(abs(a - 1), b)); y = abs(s)")] {} = .ok c ∧
      .library f args x s ∈ GroupProgram.calls twoColumns (some "abs(a - 1)")
        [(.group, "s = sum(max(abs(a - 1), b)); y = abs(s)")] {} ∧
      Expansion s.scope args f x := by
  have first_mem {cs : List Call} {Q : Function → Bound Expr → Expr → State → Prop}
      (h : cs.any (fun | .library .. => true | _ => false) = true)
      (hQ : ∀ f args x s, .library f args x s ∈ cs → Q f args x s) :
      ∃ f args x s, .library f args x s ∈ cs ∧ Q f args x s := by
    obtain ⟨c, hm, hc⟩ := List.any_eq_true.1 h
    cases c with
    | library f args x s => exact ⟨f, args, x, s, hm, hQ f args x s hm⟩
    | aggregate c a args x s => cases hc
  simp only [exists_and_left]
  exact ⟨exists_ok_of (by decide +kernel) fun c hc => first_mem (by decide +kernel)
      ((library_calls_hygienic twoColumns).1 _ _ c hc (by decide +kernel)),
    exists_ok_of (by decide +kernel) fun g hg => first_mem (by decide +kernel)
      ((library_calls_hygienic twoColumns).2 _ _ _ g hg (by decide +kernel))⟩

open RowProgram (twoColumns) in
/-- A name that a source binds is taken for a helper: the call refers to `_abs0`, which is five. -/
theorem abs_refers_to_bound_name :
    ∃ c args x s, RowProgram.compile twoColumns [] ["_abs0 = 5; x = abs(a - 1)"] = .ok c ∧
      .library .abs args x s ∈ RowProgram.calls twoColumns [] ["_abs0 = 5; x = abs(a - 1)"] ∧
      (Library.arg args 0).text = "($1 - 1)" ∧ x.text = "((_abs0 < 0)?-(_abs0):_abs0)" ∧
      s.scope.bindings.map (fun p => (p.1, p.2.text)) = [("_abs0", "_abs0 = 5")] ∧
      ¬Expansion s.scope args .abs x := by
  obtain ⟨c, hc⟩ := exists_eq_ok (x := RowProgram.compile twoColumns []
    ["_abs0 = 5; x = abs(a - 1)"]) (by decide +kernel)
  have hcalls : (RowProgram.calls twoColumns [] ["_abs0 = 5; x = abs(a - 1)"]).any (fun
      | .library .abs args x s => (Library.arg args 0).text == "($1 - 1)" &&
        !(Library.arg args 0).isField && x.text == "((_abs0 < 0)?-(_abs0):_abs0)" &&
        s.scope.bindings.map (fun p => (p.1, p.2.text)) == [("_abs0", "_abs0 = 5")]
      | _ => false) = true := by decide +kernel
  obtain ⟨call, hm, hcall⟩ := List.any_eq_true.1 hcalls
  split at hcall
  · rename_i args x s
    simp only [Bool.and_eq_true, beq_iff_eq, Bool.not_eq_true'] at hcall
    obtain ⟨⟨⟨hargs, hfield⟩, hx⟩, hs⟩ := hcall
    refine ⟨c, args, x, s, hc, hm, hargs, hx, hs, fun hexp => ?_⟩
    cases hexp with
    | abs hheld =>
      cases hheld with
      | column hcolumn =>
        rw [hfield] at hcolumn
        cases hcolumn
      | var _ hb hw =>
        -- The only binding there is assigns five, and not the argument.
        have hmem := List.mem_map_of_mem (f := fun p => (p.1, p.2.text)) (Scope.mem_of_binding? hb)
        rw [hs, List.mem_singleton, Prod.mk.injEq, Expr.text, hw, hargs] at hmem
        obtain ⟨hname, htext⟩ := hmem
        dsimp only at hname
        rw [hname] at htext
        exact absurd htext (by decide)
  · cases hcall

end RowAwk.Compile
