import RowAwk.Proofs.Drafts
import RowAwk.Proofs.Helpers
import RowAwk.Proofs.Materialization

/-!
The calls that are expanded while a program is compiled.

The calls of statements, sources and programs are put together from those of expressions, in the
order in which they are compiled.

    x = abs(a); y = min(b, x)       filter: abs(b) > 1       ──▶       abs, min, abs

What holds of each expansion, and goes on to hold while the namer grows, holds of all calls in the
end.
-/

namespace RowAwk.Compile

open Awk (Category Expr)
open Syntax (Literal Stmt)
open Lower

/-- The statements of a source that can be read. -/
def statements (source : String) : List Stmt := (parseSource source).toOption.getD []

variable {source : String} {stmt : Stmt} {α : Type}

theorem statements_eq {stmts : List Stmt} (h : parseSource source = .ok stmts) :
    statements source = stmts := by
  rw [statements, h]
  rfl

theorem exists_of_mem_statements (h : stmt ∈ statements source) :
    ∃ stmts, parseSource source = .ok stmts ∧ stmt ∈ stmts := by
  cases hp : parseSource source with
  | error e =>
    rw [statements, hp] at h
    cases h
  | ok stmts =>
    rw [statements_eq hp] at h
    exact ⟨stmts, rfl, h⟩

theorem wellFormed_of_mem_statements (h : stmt ∈ statements source) :
    stmt.WellFormed Literal.Spelt := by
  obtain ⟨stmts, hp, hm⟩ := exists_of_mem_statements h
  exact wellFormed_parseSource hp stmt hm

/-! ### Along a lowering -/

theorem Lands.and {I : State → Prop} {s : State} {m : Lower α} {Q R : State → α → Prop}
    (hq : Lands I s m Q) (hr : Lands I s m R) : Lands I s m fun s a => Q s a ∧ R s a :=
  fun hi a s' h => ⟨(hq hi a s' h).1, (hq hi a s' h).2.1, (hq hi a s' h).2.2, (hr hi a s' h).2.2⟩

namespace Lowering

variable {P : Literal → Prop} {G : Namer → Call → Prop} {I J : State → Prop}
  {K L : State → Expr → Prop} {category : Option Category}

/-- All calls of a lowering have an observed property. -/
theorem lands_calls (h : Closed P I K) (hr : ∀ c, category = some c → ClosedRows P I J K L c)
    (ho : Observed I K G) (hor : ∀ c, category = some c → ObservedRows I J L G c)
    (e : Syntax.Expr) (he : e.WellFormed P) (s : State) :
    Lands I s (lower category e) fun s' _ => AllCalls G (calls category e s) s' := by
  intro hi x t hx
  obtain ⟨hi', hg, -, -, hcs⟩ := (lowers_lower hx).closed h hr ho hor ⟨he, trivial⟩ hi
  exact ⟨hi', hg, hcs⟩

variable {stmt : Stmt}

theorem lands_callsBinding (h : Closed P I K)
    (hr : ∀ c, category = some c → ClosedRows P I J K L c) (ho : Observed I K G)
    (hor : ∀ c, category = some c → ObservedRows I J L G c) (hw : stmt.WellFormed P) (s : State) :
    Lands I s (binding category stmt) fun s' _ =>
      AllCalls G (calls category (stmtExpr stmt) s) s' := by
  intro hi p t hp
  obtain ⟨name, x, -, -, hx⟩ := binding_eq_ok hp
  exact lands_calls h hr ho hor _ (wellFormed_stmtExpr hw) s hi x t hx

theorem lands_callsValue (h : Closed P I K) (ho : Observed I K G) (hw : stmt.WellFormed P)
    (s : State) :
    Lands I s (value stmt) fun s' _ => AllCalls G (calls none (stmtExpr stmt) s) s' := by
  intro hi x t hx
  exact lands_calls (J := I) (L := K) h (fun _ hc => by cases hc) ho (fun _ hc => by cases hc) _
    (wellFormed_stmtExpr hw) s hi x t (value_eq_ok hx)

end Lowering

/-! ### Along the statements of a program -/

/-- What is met along a list, where each step gives the state that the next one starts from. -/
def along {σ ε α γ : Type} (step : σ → α → Except ε σ) (meet : σ → α → List γ) :
    σ → List α → List γ
  | _, [] => []
  | s, a :: as =>
    meet s a ++ match step s a with
      | .ok t => along step meet t as
      | .error _ => []

/-- What each step keeps, and adds to what has been met, holds in the end of all that is met. -/
theorem along_induct {σ γ : Type} {step : σ → α → Except Failure σ} {meet : σ → α → List γ}
    {Q : σ → List γ → Prop} : ∀ {as : List α} {s s' : σ} {met : List γ},
    (∀ a ∈ as, ∀ s met s', Q s met → step s a = .ok s' → Q s' (met ++ meet s a)) → Q s met →
      as.foldlM step s = .ok s' → Q s' (met ++ along step meet s as)
  | [], s, _, met, _, hq, h => by
    cases h
    rw [along, List.append_nil]
    exact hq
  | a :: as, s, s', met, hstep, hq, h => by
    rw [List.foldlM_cons] at h
    obtain ⟨t, ht, h⟩ := except_bind_eq_ok.1 h
    simp only [along, ht, ← List.append_assoc]
    exact along_induct (fun b hb => hstep b (List.mem_cons_of_mem a hb))
      (hstep a List.mem_cons_self s met t hq ht) h

/-- The state that a computation leaves. -/
def Lower.leaves {α : Type} (m : Lower α) (s : State) : Except Failure State :=
  (m.run s).map Prod.snd

namespace RowProgram

/-- The calls of a source of a projection. -/
def bindCalls (schema : Schema) (s : State) (source : String) : List Call :=
  match parseSource source with
  | .ok stmts =>
    along (fun s stmt => (bindStatement schema source stmt).leaves s)
      (fun s stmt => Lowering.calls none (stmtExpr stmt) s) s stmts
  | .error _ => []

/-- The calls of a source of filters. -/
def testCalls (s : State) (source : String) : List Call :=
  match parseSource source with
  | .ok stmts =>
    along (fun s stmt => (Lower.noting ("filter: " ++ source) (Lowering.value stmt)).leaves s)
      (fun s stmt => Lowering.calls none (stmtExpr stmt) s) s stmts
  | .error _ => []

/-- The calls that compiling a program expands. -/
def calls (schema : Schema) (filters maps : List String) : List Call :=
  let maps := if maps.isEmpty then [allFields] else maps
  along (fun s source => (bindSource schema source).leaves s) (bindCalls schema) (.start schema) maps
    ++ (maps.forM (bindSource schema)).andThen (.start schema) fun _ s =>
      along (fun s source => (conditions source).leaves s) testCalls s filters

end RowProgram

theorem Lower.leaves_eq_ok {m : Lower α} {s s' : State} :
    m.leaves s = .ok s' ↔ ∃ a, m.run s = .ok (a, s') := by
  rw [leaves, except_map_eq_ok]
  constructor
  · rintro ⟨⟨a, t⟩, h, rfl⟩
    exact ⟨a, h⟩
  · rintro ⟨a, h⟩
    exact ⟨(a, s'), h, rfl⟩

theorem Lower.leaves_forM {f : α → Lower PUnit} : ∀ {as : List α} {s s' : State} {u : PUnit},
    (as.forM f).run s = .ok (u, s') → as.foldlM (fun s a => (f a).leaves s) s = .ok s'
  | [], s, s', _, h => by
    obtain ⟨-, rfl⟩ := Lower.pure_eq_ok.1 h
    rfl
  | a :: as, s, s', _, h => by
    obtain ⟨u, t, ha, h⟩ := bind_eq_ok.1 (show (f a >>= fun _ => as.forM f).run s = _ from h)
    rw [List.foldlM_cons]
    exact except_bind_eq_ok.2 ⟨t, leaves_eq_ok.2 ⟨u, ha⟩, leaves_forM h⟩

theorem Lower.leaves_mapM {β : Type} {f : α → Lower β} :
    ∀ {as : List α} {s s' : State} {bs : List β},
    (as.mapM f).run s = .ok (bs, s') → as.foldlM (fun s a => (f a).leaves s) s = .ok s'
  | [], s, s', _, h => by
    rw [List.mapM_nil] at h
    obtain ⟨-, rfl⟩ := Lower.pure_eq_ok.1 h
    rfl
  | a :: as, s, s', _, h => by
    rw [List.mapM_cons] at h
    obtain ⟨b, t, ha, h⟩ := bind_eq_ok.1 h
    obtain ⟨bs, t', has, h⟩ := bind_eq_ok.1 h
    obtain ⟨-, rfl⟩ := Lower.pure_eq_ok.1 h
    rw [List.foldlM_cons]
    exact except_bind_eq_ok.2 ⟨t, leaves_eq_ok.2 ⟨b, ha⟩, leaves_mapM has⟩

namespace RowProgram

variable {stmt : Stmt} {schema : Schema}

theorem calls_bare {n : String} (h : bareName? stmt = some n) (s : State) :
    Lowering.calls none (stmtExpr stmt) s = [] := by
  cases stmt with
  | assign target e => cases h
  | value e =>
    cases e with
    | name span n => rw [stmtExpr, Lowering.calls]
    | _ => cases h

/-- A statement of a projection has the calls of its expression; directives have none. -/
theorem Binds.callsStatement {P : Literal → Prop} {I : State → Prop} {K : State → Expr → Prop}
    {N : String → Prop} {G : Namer → Call → Prop} {s : State} (h : Binds I K N)
    (hc : Closed P I K) (ho : Observed I K G) {source : String} (hw : stmt.WellFormed P)
    (hn : ∀ n ∈ boundBy schema stmt, N n) :
    Lands I s (RowProgram.bindStatement schema source stmt) fun s' _ =>
      AllCalls G (Lowering.calls none (stmtExpr stmt) s) s' := by
  have none_of {n : String} (hd : bareName? stmt = some n) :
      Lands I s (RowProgram.bindStatement schema source stmt) fun s' _ =>
        AllCalls G (Lowering.calls none (stmtExpr stmt) s) s' := by
    rw [calls_bare hd]
    exact (h.bindStatement hc hw hn).imp fun _ _ _ _ _ c hmem => by cases hmem
  by_cases hall : bareName? stmt = some allFields
  · exact none_of hall
  by_cases hrest : bareName? stmt = some restFields
  · exact none_of hrest
  rw [RowProgram.bindStatement, if_neg hall, if_neg hrest]
  have hcalls : Lands I s (Lowering.binding none stmt) fun s' _ =>
      AllCalls G (Lowering.calls none (stmtExpr stmt) s) s' :=
    Lowering.lands_callsBinding (J := I) (L := K) hc (fun _ hc => by cases hc) ho
      (fun _ hc => by cases hc) hw s
  refine ((binding hc schema hw ⟨hall, hrest⟩).and hcalls).noting.bind fun p t _ _ hp => ?_
  obtain ⟨⟨name, v, rfl, hname, hv⟩, hcs⟩ := hp
  refine (h.bind (hn name hname) hv).imp fun _ u hg _ _ c hc => ?_
  exact ho.grows _ _ c hg.namer (hcs c hc)

/-- What statements keep, and add to the calls before them, holds in the end of all calls. -/
theorem lowerAll_induct {filters maps : List String} {filter : Option Expr} {s : State}
    {Q : State → List Call → Prop}
    (h : (lowerAll schema filters maps).run (.start schema) = .ok (filter, s))
    (hstart : Q (.start schema) [])
    (hbind : ∀ source ∈ if maps.isEmpty then [allFields] else maps, ∀ stmt ∈ statements source,
      ∀ s s' cs, Q s cs → (bindStatement schema source stmt).run s = .ok ((), s') →
      Q s' (cs ++ Lowering.calls none (stmtExpr stmt) s))
    (htest : ∀ source ∈ filters, ∀ stmt ∈ statements source, ∀ s s' cs x, Q s cs →
      (Lowering.value stmt).run s = .ok (x, s') →
      Q s' (cs ++ Lowering.calls none (stmtExpr stmt) s)) : Q s (calls schema filters maps) := by
  rw [lowerAll] at h
  obtain ⟨u, s₁, hmaps, h⟩ := bind_eq_ok.1 h
  obtain ⟨tests, s₂, hfilters, h⟩ := bind_eq_ok.1 h
  obtain ⟨-, rfl⟩ := Lower.pure_eq_ok.1 h
  have hbound : Q s₁ ([] ++ along (fun s source => (bindSource schema source).leaves s)
      (bindCalls schema) (.start schema) (if maps.isEmpty then [allFields] else maps)) := by
    refine along_induct (fun source hsource s cs s' hq hr => ?_) hstart (leaves_forM hmaps)
    obtain ⟨u, hr⟩ := leaves_eq_ok.1 hr
    obtain ⟨stmts, t, hl, hr⟩ := bind_eq_ok.1 hr
    obtain ⟨hp, rfl⟩ := lift_eq_ok.1 hl
    simp only [bindCalls, hp]
    refine along_induct (fun stmt hm s cs s' hq hr => ?_) hq (leaves_forM hr)
    obtain ⟨u, hr⟩ := leaves_eq_ok.1 hr
    exact hbind source hsource stmt (by rwa [statements_eq hp]) s s' cs hq hr
  simp only [calls, Lower.andThen, hmaps]
  refine along_induct (fun source hsource s cs s' hq hr => ?_) hbound (leaves_mapM hfilters)
  obtain ⟨xs, hr⟩ := leaves_eq_ok.1 hr
  obtain ⟨stmts, t, hl, hr⟩ := bind_eq_ok.1 hr
  obtain ⟨hp, rfl⟩ := lift_eq_ok.1 hl
  simp only [testCalls, hp]
  refine along_induct (fun stmt hm s cs s' hq hr => ?_) hq (leaves_mapM hr)
  obtain ⟨x, hr⟩ := leaves_eq_ok.1 hr
  exact htest source hsource stmt (by rwa [statements_eq hp]) s s' cs x hq
    (Lower.noting_eq_ok.1 hr)

end RowProgram

namespace GroupProgram

/-- The names that the sources of a program bind. -/
def boundNames (key : Option String) (aggregates : List (Category × String)) (options : Options) :
    List String :=
  (statements (key.getD "1")).filterMap (keyName? (options.outputAllKeys && key.isSome)) ++
    aggregates.flatMap fun p => (statements p.2).filterMap boundName?

/-- The calls of a source about groups or the stream. -/
def sourceCalls (d : Draft) (p : Category × String) : List Call :=
  match parseSource p.2 with
  | .ok stmts =>
    along (Draft.addStatement p.1 p.2)
      (fun d stmt => Lowering.calls (some p.1) (stmtExpr stmt) (d.stateOf p.1)) d stmts
  | .error _ => []

/-- The calls that compiling a program expands. -/
def calls (schema : Schema) (key : Option String) (aggregates : List (Category × String))
    (options : Options) : List Call :=
  let outputAll := options.outputAllKeys && key.isSome
  match parseSource (key.getD "1") with
  | .error _ => []
  | .ok keys =>
    along (Draft.addKey outputAll) (fun d stmt => Lowering.calls none (stmtExpr stmt) d.keyState)
      (.start schema) keys ++
    match keys.foldlM (Draft.addKey outputAll) (.start schema) with
    | .error _ => []
    | .ok d => along (fun d p => d.addSource p.1 p.2) sourceCalls d aggregates

/-- What statements keep, and add to the calls before them, holds in the end of all calls. -/
theorem draft_induct {schema : Schema} {key : Option String}
    {aggregates : List (Category × String)} {options : Options} {d : Draft}
    {Q : Draft → List Call → Prop} (h : draft schema key aggregates options = .ok d)
    (hstart : Q (.start schema) [])
    (hkey : ∀ stmt ∈ statements (key.getD "1"), ∀ d d' cs, Q d cs →
      d.addKey (options.outputAllKeys && key.isSome) stmt = .ok d' →
      Q d' (cs ++ Lowering.calls none (stmtExpr stmt) d.keyState))
    (hstatement : ∀ p ∈ aggregates, ∀ stmt ∈ statements p.2, ∀ d d' cs, Q d cs →
      d.addStatement p.1 p.2 stmt = .ok d' →
      Q d' (cs ++ Lowering.calls (some p.1) (stmtExpr stmt) (d.stateOf p.1))) :
    Q d (calls schema key aggregates options) := by
  obtain ⟨keys, hp, h⟩ := except_bind_eq_ok.1 h
  obtain ⟨d₁, hd₁, h⟩ := except_bind_eq_ok.1 h
  have hkeys : Q d₁ ([] ++ along (Draft.addKey (options.outputAllKeys && key.isSome))
      (fun d stmt => Lowering.calls none (stmtExpr stmt) d.keyState) (.start schema) keys) :=
    along_induct (fun stmt hm d cs d' => hkey stmt (by rwa [statements_eq hp]) d d' cs) hstart hd₁
  simp only [calls, hp, hd₁]
  refine along_induct (fun p hmem d cs d' hq hr => ?_) hkeys h
  obtain ⟨stmts, hp, hr⟩ := except_bind_eq_ok.1 hr
  simp only [sourceCalls, hp]
  exact along_induct (fun stmt hm d cs d' => hstatement p hmem stmt (by rwa [statements_eq hp]) d d' cs)
    hq hr

end GroupProgram

end RowAwk.Compile
