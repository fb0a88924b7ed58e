import RowAwk.Proofs.Independence
import RowAwk.Proofs.KeyTests

/-!
The columns of grouping programs, in the order in which they are asked for.

Statements of the key come first, then those about groups and the stream as they are given. Each
that has a name is an output, unless the name is hidden. On the way other things are bound in the
same scope: the variables of keys behind all that is there, names of keys in front of those, and
helpers wherever a statement needs them.

    key  x = a; _y = b    statements  m = avg(c); n = abs(m)

    after x            x │ __key0
    after _y           x  _y │ __key0  __key1
    after m            x  _y │ __key0  __key1   m
    after n            x  _y │ __key0  __key1   m  _abs0  n
    printed            x                        m         n
-/

open List

namespace RowAwk

open Awk (Block Category Const Expr Fold Head Item Key Line)
open Syntax (Literal Stmt)

namespace Compile

variable {base : List (String × Expr)}

/-! ### Bindings that are set aside -/

/-- A binding that is not printed. Its statement sets the name that it is bound to. -/
def Aside (b : String × Expr) : Prop := Syntax.isHidden b.1 = true ∧ target? b.2 = some b.1

/-- A scope has some bindings, and behind them only such that are set aside. -/
def Extends (base : List (String × Expr)) (sc : Scope) : Prop :=
  ∃ new, sc.bindings = base ++ new ∧ ∀ b ∈ new, Aside b

theorem extends_self (sc : Scope) : Extends sc.bindings sc :=
  ⟨[], (append_nil _).symm, nofun⟩

variable {sc sc' : Scope} {name : String} {b : Expr}

theorem Extends.bind (h : Extends base sc) (hb : Aside (name, b))
    (hr : sc.bind name b none = .ok sc') : Extends base sc' := by
  obtain ⟨new, hnew, haside⟩ := h
  obtain ⟨-, rfl⟩ := Scope.bind_eq_ok.1 hr
  refine ⟨new ++ [(name, b)], by rw [hnew, append_assoc], ?_⟩
  exact forall_mem_append.2 ⟨haside, forall_mem_singleton.2 hb⟩

/-- Only what was there before is printed. -/
theorem Extends.outputs (h : Extends base sc) :
    Projection.outputs sc = base.filter fun b => !Syntax.isHidden b.1 := by
  obtain ⟨new, hnew, haside⟩ := h
  have hnone : new.filter (fun b => !Syntax.isHidden b.1) = [] :=
    filter_eq_nil_iff.2 fun b hm => by simp [(haside b hm).1]
  rw [Projection.outputs, hnew, filter_append]
  exact (congrArg _ hnone).trans (append_nil _)

theorem Extends.targets (h : Extends base sc) (ht : ∀ b ∈ base, target? b.2 = some b.1) :
    ∀ b ∈ sc.bindings, target? b.2 = some b.1 := by
  obtain ⟨new, hnew, haside⟩ := h
  rw [hnew]
  exact forall_mem_append.2 ⟨ht, fun b hm => (haside b hm).2⟩

theorem Scope.bindings_bind_at {before after : List (String × Expr)}
    (h : sc.bindings = before ++ after) (hr : sc.bind name b (some before.length) = .ok sc') :
    sc'.bindings = before ++ (name, b) :: after := by
  rw [bind] at hr
  split at hr
  · cases hr
  · cases hr
    rw [Option.getD_some, h, take_left, drop_left]

theorem Helper.aside {K : Expr → Prop} {E : List (String × String × Nat)} (h : Helper K E name b) :
    Aside (name, b) := by
  refine ⟨RowProgram.isHidden_of_isGenerated h.isGenerated, ?_⟩
  cases h <;> rfl

theorem tolerant_extends (base : List (String × Expr)) :
    Tolerant Const.Written fun s => Extends base s.scope where
  routines h := h
  named _ _ h := h
  bound h hb := by
    obtain ⟨new, hnew, haside⟩ := h
    refine ⟨new ++ [_], by rw [State.bound, hnew, append_assoc], ?_⟩
    exact forall_mem_append.2 ⟨haside, forall_mem_singleton.2 hb.aside⟩

theorem tolerant_extends_rows (base : List (String × Expr)) :
    Tolerant Const.Written fun s => Extends base s.rows where
  routines h := h
  named _ _ h := h
  bound h _ := h

namespace GroupProgram

/-! ### What statements ask for -/

/-- What a statement of the key binds for the outputs: its name, if it has one, to the variable of
    the key. -/
def keyOutput (outputAll : Bool) (d : Draft) (stmt : Stmt) : List (String × Expr) :=
  match keyName? outputAll stmt, (Lowering.lower none (stmtExpr stmt)).run d.keyState with
  | some name, .ok (value, state) =>
    let keyName := (state.namer.nameFor "__key" value.text).1
    let binding := (d.outScope.binding? keyName).getD (.assign keyName value)
    [(name, .assign name (.var keyName binding))]
  | _, _ => []

/-- What a statement about groups or the stream binds. -/
def statementOutput (category : Category) (d : Draft) (stmt : Stmt) : List (String × Expr) :=
  match (Lowering.binding (some category) stmt).run (d.stateOf category) with
  | .ok (bound, _) => [bound]
  | .error _ => []

def sourceOutputs (d : Draft) (p : Category × String) : List (String × Expr) :=
  along (Draft.addStatement p.1 p.2) (statementOutput p.1) d (statements p.2)

/-- What the statements of a program bind for the outputs, in the order in which they stand. -/
def asked (schema : Schema) (key : Option String) (aggregates : List (Category × String))
    (options : Options) : List (String × Expr) :=
  let outputAll := options.outputAllKeys && key.isSome
  let keys := statements (key.getD "1")
  along (Draft.addKey outputAll) (keyOutput outputAll) (.start schema) keys ++
    match keys.foldlM (Draft.addKey outputAll) (.start schema) with
    | .ok d => along (fun d p => d.addSource p.1 p.2) sourceOutputs d aggregates
    | .error _ => []

namespace Draft

variable {d d' : Draft} {stmt : Stmt} {found : List (String × Expr)} {outputAll : Bool}

/-- What is printed is what has been asked for. Each statement sets the name that it is bound to. -/
structure Answers (d : Draft) (found : List (String × Expr)) : Prop where
  printed : Projection.outputs d.outScope = found.filter fun b => !Syntax.isHidden b.1
  targets : ∀ b ∈ d.outScope.bindings, target? b.2 = some b.1

/-- As long as there are only keys, those with names come first. -/
structure KeysFirst (d : Draft) (found : List (String × Expr)) : Prop where
  count : found.length = d.named
  targets : ∀ b ∈ found, target? b.2 = some b.1
  bindings : Extends found d.outScope

theorem keysFirst_start (schema : Schema) : (start schema).KeysFirst [] :=
  ⟨rfl, nofun, extends_self _⟩

theorem KeysFirst.answers (h : d.KeysFirst found) : d.Answers found :=
  ⟨h.bindings.outputs, h.bindings.targets h.targets⟩

/-- The variable of a key is bound behind all others, and a name in front of such variables. -/
theorem KeysFirst.addKey (h : d.KeysFirst found) (hr : addKey outputAll d stmt = .ok d') :
    d'.KeysFirst (found ++ keyOutput outputAll d stmt) := by
  obtain ⟨value, state, i, j, hk⟩ := addKey_eq_ok hr
  have hprints := hk.prints
  rw [keyOutput, hk.lower]
  generalize keyName? outputAll stmt = name? at hprints ⊢
  cases hprints with
  | unnamed ho _ hn =>
    rw [append_nil]
    exact ⟨h.count.trans hn.symm, h.targets, ho ▸ h.bindings⟩
  | @named name sc b hb ho _ hn =>
    obtain ⟨⟨asides, hasides, haside⟩, hbinding⟩ : Extends found sc ∧
        (d.outScope.binding? ("__key" ++ toString i)).getD (.assign ("__key" ++ toString i) value)
          = b := by
      cases hb with
      | old hf => exact ⟨h.bindings, by rw [hf, Option.getD_some]⟩
      | new hf =>
        refine ⟨h.bindings.bind ⟨isHidden_append (by decide) _, rfl⟩ hf, ?_⟩
        rw [(Scope.bind_eq_ok.1 hf).1, Option.getD_none]
    dsimp only
    rw [hk.name, hbinding]
    refine ⟨?_, ?_, asides, ?_, haside⟩
    · rw [length_append, h.count, hn]
      rfl
    · exact forall_mem_append.2 ⟨h.targets, forall_mem_singleton.2 rfl⟩
    · rw [← h.count] at ho
      rw [Scope.bindings_bind_at hasides ho, append_assoc]
      rfl

theorem extends_bindMissing {new : List (String × Expr)} {sc sc' : Scope} (h : Extends base sc)
    (hnew : ∀ b ∈ new, Aside b) (hr : bindMissing sc new = .ok sc') : Extends base sc' := by
  induction new generalizing sc with
  | nil =>
    cases hr
    exact h
  | cons b new ih =>
    rw [forall_mem_cons] at hnew
    rw [bindMissing] at hr
    split at hr
    · exact ih h hnew.2 hr
    · obtain ⟨sc₁, hsc₁, hr⟩ := except_bind_eq_ok.1 hr
      exact ih (h.bind hnew.1 hsc₁) hnew.2 hr

theorem Answers.addStatement (h : d.Answers found) (hw : stmt.WellFormed Literal.Spelt)
    {c : Category} {source : String} (hr : addStatement c source d stmt = .ok d') :
    d'.Answers (found ++ statementOutput c d stmt) := by
  obtain ⟨name, value, state, ha⟩ := addStatement_eq_ok hr
  obtain ⟨out₁, hout₁, hout⟩ := ha.out
  -- the helpers are all that has come to the scope
  obtain ⟨⟨new, hnew, haside⟩, -⟩ := (closed_lowered
    (tolerant_extends (d.scopeOf c).bindings) admits_spelt).lower (fun x _ => closedRows_lowered
      (tolerant_extends _) (tolerant_extends_rows _) admits_spelt (fun _ => .rfl) x)
    _ (wellFormed_stmtExpr hw) (d.stateOf c) (extends_self _) value state ha.lower
  rw [hnew, drop_left] at hout₁
  have hadded := extends_bindMissing (extends_self d.outScope) haside hout₁
  rw [statementOutput, ha.binds]
  obtain ⟨-, hout⟩ := Scope.bind_eq_ok.1 hout
  constructor
  · rw [hout, Projection.outputs, filter_append, filter_append, ← h.printed]
    exact congrArg (· ++ _) hadded.outputs
  · rw [hout]
    exact forall_mem_append.2
      ⟨hadded.targets h.targets, forall_mem_singleton.2 rfl⟩

end Draft

variable {stmt : Stmt}

theorem map_fst_keyOutput {outputAll : Bool} {d d' : Draft}
    (hr : Draft.addKey outputAll d stmt = .ok d') :
    (keyOutput outputAll d stmt).map Prod.fst = (keyName? outputAll stmt).toList := by
  obtain ⟨value, state, i, j, hk⟩ := Draft.addKey_eq_ok hr
  rw [keyOutput, hk.lower]
  cases keyName? outputAll stmt <;> rfl

theorem map_fst_statementOutput {category : Category} {source : String} {d d' : Draft}
    (hr : Draft.addStatement category source d stmt = .ok d') :
    (statementOutput category d stmt).map Prod.fst = (boundName? stmt).toList := by
  obtain ⟨name, value, state, ha⟩ := Draft.addStatement_eq_ok hr
  rw [statementOutput, ha.binds, ha.bound]
  rfl

end GroupProgram

/-- What is met along a list, seen element by element. -/
theorem map_along {σ α γ δ : Type} {step : σ → α → Except Failure σ} {meet : σ → α → List γ}
    {f : γ → δ} {g : α → List δ} {as : List α} {s s' : σ}
    (hstep : ∀ a ∈ as, ∀ s s', step s a = .ok s' → (meet s a).map f = g a)
    (h : as.foldlM step s = .ok s') : (along step meet s as).map f = as.flatMap g := by
  induction as generalizing s with
  | nil => rfl
  | cons a as ih =>
    rw [foldlM_cons] at h
    obtain ⟨t, ht, h⟩ := except_bind_eq_ok.1 h
    rw [forall_mem_cons] at hstep
    simp only [along, ht]
    rw [map_append, flatMap_cons, hstep.1 s t ht, ih hstep.2 h]

namespace GroupProgram

variable {schema : Schema} {key : Option String} {aggregates : List (Category × String)}
variable {options : Options} {d : Draft}

/-- The names that are asked for are those that the sources bind. -/
theorem map_fst_asked (h : draft schema key aggregates options = .ok d) :
    (asked schema key aggregates options).map Prod.fst = boundNames key aggregates options := by
  obtain ⟨keys, hp, h⟩ := except_bind_eq_ok.1 h
  obtain ⟨d₁, hd₁, h⟩ := except_bind_eq_ok.1 h
  simp only [asked, statements_eq hp, hd₁, map_append, boundNames]
  congr 1
  · rw [filterMap_eq_flatMap_toList]
    exact map_along (fun _ _ _ _ hr => map_fst_keyOutput hr) hd₁
  · refine map_along (fun p _ d d' hr => ?_) h
    obtain ⟨stmts, hp, hr⟩ := except_bind_eq_ok.1 hr
    rw [sourceOutputs, statements_eq hp, filterMap_eq_flatMap_toList]
    exact map_along (fun _ _ _ _ hr => map_fst_statementOutput hr) hr

/-- A draft prints what its sources ask for. -/
theorem answers_draft (h : draft schema key aggregates options = .ok d) :
    d.Answers (asked schema key aggregates options) := by
  obtain ⟨keys, hp, h⟩ := except_bind_eq_ok.1 h
  obtain ⟨d₁, hd₁, h⟩ := except_bind_eq_ok.1 h
  simp only [asked, statements_eq hp, hd₁]
  have hkeys : d₁.KeysFirst ([] ++ along (Draft.addKey (options.outputAllKeys && key.isSome))
      (keyOutput (options.outputAllKeys && key.isSome)) (.start schema) keys) :=
    along_induct (fun _ _ _ _ _ hd hr => hd.addKey hr) (Draft.keysFirst_start schema) hd₁
  refine along_induct (fun p _ d found d' hd hr => ?_) hkeys.answers h
  obtain ⟨stmts, hp, hr⟩ := except_bind_eq_ok.1 hr
  rw [sourceOutputs, statements_eq hp]
  exact along_induct (fun stmt hm d found d' hd hr =>
    hd.addStatement (wellFormed_parseSource hp stmt hm) hr) hd hr

/-! ### What is printed -/

/-- What a line prints. -/
def printedBy : Line → List (List Expr)
  | .print values => [values]
  | _ => []

/-- Groups are printed when they end and after the last row, or else after each row. -/
theorem printedBy_program (d : Draft) (options : Options) (computed printed : List Expr) :
    let p := d.program options (Projection.computeLine computed ++ [.line (.print printed)])
    (p.start ++ p.row ++ p.finish).gather printedBy =
      if options.exposeGroups then [printed] else [printed, printed] := by
  have hcompute : (Projection.computeLine computed).gather printedBy = [] := by
    rw [Projection.computeLine]
    split <;> rfl
  cases he : options.exposeGroups <;>
    simp [Draft.program, he, hcompute, Draft.initLines, Draft.updateLines, Draft.finishLines,
      Block.gather_append, Block.gather_lines, Block.gather, Item.gather, printedBy,
      Draft.flatMap_nothing]

/-- A value stands for a binding: it is the value that is bound, or the name, which is set by the
    bound statement and by no other that is computed. -/
def StandsFor (computed : List Expr) (b : String × Expr) (value : Expr) : Prop :=
  value = b.2.boundValue ∨
    value = .var b.1 b.2 ∧ b.2 ∈ computed ∧ ∀ s ∈ computed, target? s = some b.1 → s = b.2

/-- The values that are printed of a scope stand for its outputs, one for each. -/
theorem forall₂_standsFor {sc : Scope} (hn : sc.names.Nodup)
    (ht : ∀ b ∈ sc.bindings, target? b.2 = some b.1) :
    List.Forall₂ (StandsFor (computedStatements sc)) (Projection.outputs sc) (printedValues sc) := by
  rw [printedValues, forall₂_map_right_iff, forall₂_same]
  intro b hb
  obtain ⟨hm, hshown⟩ := mem_filter.1 hb
  rw [Projection.printed]
  split
  · rename_i hreferred
    refine .inr ⟨rfl, mem_map.2 ⟨b, mem_filter.2 ⟨hm, ?_⟩, rfl⟩, fun s hs htarget => ?_⟩
    · have hi := isInternal_of_shown (show Syntax.isHidden b.1 = false by simpa using hshown)
      simp [hi, contains_iff_mem.1 hreferred]
    · obtain ⟨b', hb', rfl⟩ := mem_map.1 hs
      have hm' := mem_of_mem_filter hb'
      have hname : b'.1 = b.1 := Option.some.inj ((ht b' hm').symm.trans htarget)
      rw [inj_on_of_nodup_map hn hm' hm hname]
  · exact .inl rfl

/-- The columns of a grouping program are the names that its key and its statements bind, in this
    order, without those that are hidden. What is printed under each is what was bound to it. -/
theorem columns_follow_statements {c : Compiled}
    (hc : compile schema key aggregates options = .ok c) :
    ∃ d computed printed,
      draft schema key aggregates options = .ok d ∧
      c.program = d.program options (Projection.computeLine computed ++ [.line (.print printed)]) ∧
      (c.program.start ++ c.program.row ++ c.program.finish).gather printedBy =
        (if options.exposeGroups then [printed] else [printed, printed]) ∧
      c.schema.fieldNames =
        (boundNames key aggregates options).filter (fun name => !Syntax.isHidden name) ∧
      (asked schema key aggregates options).map Prod.fst = boundNames key aggregates options ∧
      List.Forall₂ (StandsFor computed)
        ((asked schema key aggregates options).filter fun b => !Syntax.isHidden b.1) printed := by
  obtain ⟨d, projection, derived, hd, hp, hderived, rfl⟩ := compile_eq_ok hc
  obtain ⟨houtputs, htargets⟩ := answers_draft hd
  have hnames := map_fst_asked hd
  refine ⟨d, computedStatements d.outScope, printedValues d.outScope, hd, ?_, ?_, ?_, hnames, ?_⟩
  · rw [block_eq hp]
  · rw [block_eq hp]
    exact printedBy_program d options _ _
  · rw [(Projection.derivedFrom hp hderived).1, houtputs, ← hnames, List.filter_map]
    rfl
  · rw [← houtputs]
    exact forall₂_standsFor (nodup_draft hd) htargets

/-- A key that is given twice, hidden names among the keys and the statements, and helpers. -/
theorem columns_follow_statements_keyAndNumber :
    ∃ c d computed printed,
      compile keyAndNumber (some "x = a; _y = b; z = a; abs(b)")
        [(.stream, "t = sum(b)"), (.group, "_m = avg(b); n = abs(_m) + t; o = n + x")] {} = .ok c ∧
      draft keyAndNumber (some "x = a; _y = b; z = a; abs(b)")
        [(.stream, "t = sum(b)"), (.group, "_m = avg(b); n = abs(_m) + t; o = n + x")] {} = .ok d ∧
      d.outScope.names = ["x", "_y", "z", "__key0", "__key1", "t", "_m", "_abs0", "n", "o"] ∧
      c.schema.fieldNames = ["x", "z", "t", "n", "o"] ∧
      (c.program.start ++ c.program.row ++ c.program.finish).gather printedBy
        = [printed, printed] ∧
      List.Forall₂ (StandsFor computed)
        ((asked keyAndNumber (some "x = a; _y = b; z = a; abs(b)")
          [(.stream, "t = sum(b)"), (.group, "_m = avg(b); n = abs(_m) + t; o = n + x")]
          {}).filter fun b => !Syntax.isHidden b.1) printed := by
  simp only [exists_and_left]
  refine exists_ok_of (by decide +kernel) fun c hc => ?_
  obtain ⟨d, computed, printed, hd, -, hprinted, -, -, hstands⟩ := columns_follow_statements hc
  exact ⟨d, hd, of_ok hd (by decide +kernel), of_ok hc (by decide +kernel), computed, printed,
    hprinted, hstands⟩

end GroupProgram

end Compile

end RowAwk
