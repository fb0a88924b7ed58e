import RowAwk.Proofs.SortOrder

/-!
How columns reach the outputs of a group.

Statements about groups and the stream see no columns. So a column is handed on to an output only
through a key, whose variable holds the column while its group lasts, and through copies:

    key    k = min((a, ''))    _min0 = ($1  "");  __row_key0 = _min0;  __key0 = __row_key0
    group  y = k               k = __key0;  y = k

What is bound for the outputs under the name of a copy is an assignment from the next name of the
chain, whichever scope it was made in: helpers of one name have one text.
-/

namespace RowAwk

namespace Awk.Expr

open Compile (awkVariables)

/-- An expression of the shape of a name is no column and looks the name up, unless it is an
    infinite number. -/
theorem Lowered.of_word {e : Expr} {m : String} (he : e.Lowered Const.Written)
    (hs : e.shape = .word m.toList) (hn : Syntax.isName m = true) (hinf : m ≠ "inf") :
    e.isField = false ∧ (m ∉ awkVariables → e.lookups = [m]) ∧
      ∀ (V : Type) (M : Machine V) columns σ, M.eval columns σ e = σ m := by
  have same {x : String} (h : Shape.word x.toList = .word m.toList) : x = m :=
    String.toList_inj.1 (Shape.word.inj h)
  cases he with
  | @const c hc =>
    exfalso
    have hstr : ∀ t, c ≠ .str t := by
      rintro t rfl
      cases hs
    have hword : c.text = m := by
      cases c with
      | str => cases hs
      | _ => exact same hs
    exact hinf (hword ▸ (Compile.eq_inf_of_isName hc hstr (hword.symm ▸ hn)).2)
  | var => cases same hs; exact ⟨rfl, fun _ => rfl, fun V M columns σ => by rw [Machine.eval]⟩
  | builtin hw =>
    cases same hs
    exact ⟨rfl, fun h => absurd hw h, fun V M columns σ => by rw [Machine.eval]⟩
  | sideEffect | aggregate =>
    cases same hs
    exact ⟨rfl, fun _ => rfl, fun V M columns σ => by rw [Machine.eval]⟩
  | field | call | sign | subscript | op | conditional => cases hs

end Awk.Expr

namespace Compile

open Awk (Category Const Expr Key Machine)
open Awk.Expr (HandsOn)
open GroupProgram.Draft (noColumns)
open Syntax (Literal Stmt isInternal)

/-! ### Names of helpers -/

/-- What is assigned in the shape of a name is lowered as it stands. -/
theorem Entry.lowered_of_word {C : Const → Prop} {U : String → Prop}
    {E : List (String × String × Nat)} {name : String} {e : Expr} {cs : List Char}
    (h : Entry C U E name (.assign name e)) (hs : e.shape = .word cs) : e.Lowered C := by
  cases h with
  | source _ hv => exact hv
  | helper hb =>
    cases hb with
    | held _ _ hv => exact hv
    | split => cases hs

/-! ### Scopes without columns -/

theorem handsOn_target {column target target' : String} {e : Expr}
    (h : HandsOn column (.assign target e)) : HandsOn column (.assign target' e) := by
  cases h with
  | field => exact .field
  | joined => exact .joined
  | through hb => exact .through hb

/-- Where there are no columns, what hands one on is a variable. -/
def Passing (s : State) (e : Expr) : Prop :=
  s.scope.schema = noColumns → ∀ column, HandsOn column (.assign "" e) →
    ∃ m b, e = .var m b ∧ (m, b) ∈ s.scope.bindings

/-- A scope without columns that has grown from some bindings by helpers. Those that hand a column
    on are copies of variables. -/
structure Followed (old : List (String × Expr)) (s : State) : Prop where
  schema : s.scope.schema = noColumns
  copied : ∀ n b, (n, b) ∈ s.scope.bindings → (n, b) ∈ old ∨ isGenerated n = true ∧
    ∀ column, HandsOn column b → ∃ m b', b = .assign n (.var m b') ∧ (m, b') ∈ s.scope.bindings

section

variable {old : List (String × Expr)} {s : State} {e b : Expr} {name : String}

theorem Passing.grows {s' : State} (h : Passing s e) (hg : s.Grows s') : Passing s' e := by
  intro hs column hc
  obtain ⟨m, b, rfl, hm⟩ := h (hg.schema ▸ hs) column hc
  exact ⟨m, b, rfl, hg.scope.subset hm⟩

theorem Followed.bound (h : Followed old s) (hn : isGenerated name = true)
    (hb : ∀ column, HandsOn column b → ∃ m b', b = .assign name (.var m b') ∧
      (m, b') ∈ s.scope.bindings) : Followed old (s.bound name b) := by
  refine ⟨h.schema, fun n c hm => ?_⟩
  have before {p : String × Expr} (hp : p ∈ s.scope.bindings) :
      p ∈ (s.bound name b).scope.bindings := List.mem_append_left _ hp
  rcases List.mem_append.1 hm with hm | hm
  · refine (h.copied n c hm).imp_right fun ⟨hg, hc⟩ => ⟨hg, fun column hh => ?_⟩
    obtain ⟨m, b', heq, hm⟩ := hc column hh
    exact ⟨m, b', heq, before hm⟩
  · cases List.mem_singleton.1 hm
    refine .inr ⟨hn, fun column hh => ?_⟩
    obtain ⟨m, b', heq, hm⟩ := hb column hh
    exact ⟨m, b', heq, before hm⟩

theorem Followed.furnishes : Furnishes (Followed old) Passing where
  grows hg h := h.grows hg
  named _ _ h := ⟨h.schema, h.copied⟩
  bound hi _ hb := by
    refine hi.bound hb.isGenerated fun column hc => ?_
    cases hb with
    | held _ _ hv =>
      obtain ⟨m, b, rfl, hm⟩ := hv hi.schema column (handsOn_target hc)
      exact ⟨m, b, rfl, hm⟩
    | split | line => cases hc
  held _ _ hb _ _ _ := ⟨_, _, rfl, hb⟩
  element _ _ _ _ _ _ _ hc := by cases hc
  line _ _ _ _ _ hc := by cases hc

theorem closed_passing : Closed Literal.Spelt (Followed old) Passing where
  grows hg h := h.grows hg
  routines _ h := ⟨h.schema, h.copied⟩
  string := Literal.spelt_string
  digit := Literal.spelt_digit
  const _ _ _ _ hc := by cases hc
  field hf hs := by
    obtain ⟨i, type, hi, -⟩ := Scope.field?_cases hf
    rw [hs] at hi
    cases hi
  var _ _ hm _ _ _ := ⟨_, _, rfl, hm⟩
  word _ _ _ hc := by cases hc
  call _ _ _ _ _ hc := by cases hc
  sign _ _ _ _ hc := by cases hc
  subscript _ _ _ _ hc := by cases hc
  op _ ha hs column hc := by
    -- a column that is joined to a text would have to be a variable
    cases hc
    obtain ⟨m, b, heq, -⟩ := ha _ List.mem_cons_self hs column .field
    cases heq
  conditional _ _ _ _ _ hc := by cases hc
  helper hs hs' hv := Followed.furnishes.helper ⟨hs, hs'⟩ hv
  split hd hv := Followed.furnishes.split hd hv
  shell hc := Followed.furnishes.shell hc

/-- An aggregate hands nothing on. -/
theorem closedRows_passing (c : Category) :
    ClosedRows Literal.Spelt (Followed old) (fun s => Followed old s.flip) Passing
      (fun _ _ => True) c where
  rows := closed_kept Literal.spelt_string Literal.spelt_digit (fun h => ⟨h.schema, h.copied⟩)
    (fun _ _ _ _ h => ⟨h.schema, h.copied⟩) fun _ _ _ h => ⟨h.schema, h.copied⟩
  flip _ := Iff.rfl
  accumulate := by
    intro s a t args _ _
    refine (lands_nameFor fun h => ⟨h.schema, h.copied⟩).bind fun name s₁ _ _ _ =>
      lands_pure fun _ => ?_
    exact fun _ _ hc => by cases hc

end

/-! ### Values of keys -/

namespace GroupProgram.Draft

/-- An expression over the helpers of keys that has the value of a column, perhaps joined to an
    empty text. -/
inductive Reaches (B : List (String × Expr)) (p : Nat) : Expr → Prop
  | field {name type} : Reaches B p (.field name p type)
  | joined {name type} : Reaches B p (.op .concat [.field name p type, .const (.str "")])
  | through {m e v} : (m, .assign m v) ∈ B → e.shape = .word m.toList → Reaches B p v →
      Reaches B p e

section

variable {B B' : List (String × Expr)} {p : Nat} {e v : Expr}

theorem Reaches.mono (h : Reaches B p e) (hB : B ⊆ B') : Reaches B' p e := by
  induction h with
  | field => exact .field
  | joined => exact .joined
  | through hm hs _ ih => exact .through (hB hm) hs ih

theorem shape_field (hv : v.Lowered Const.Written)
    (hs : v.shape = .field (toString p).toList) : ∃ name type, v = .field name p type := by
  cases hv with
  | @const c => cases c <;> cases hs
  | @field name q type =>
    have hq := congrArg (Nat.ofDigitChars 10 · 0) (Awk.Shape.field.inj hs)
    simp only [Number.ofDigitChars_toString] at hq
    exact ⟨name, type, by rw [hq]⟩
  | _ => cases hs

theorem shape_string {t : String} (hv : v.Lowered Const.Written) (hs : v.shape = .string t.toList) :
    v = .const (.str t) := by
  cases hv with
  | @const c =>
    cases c with
    | str s => rw [String.toList_inj.1 (Awk.Shape.string.inj hs)]
    | _ => cases hs
  | _ => cases hs

/-- Expressions over the helpers of keys that hand a column on have its value. -/
theorem reaches_of_handsOn {n : Namer} (hB : Ordered n.entries B) {column target : String}
    (h : HandsOn column (.assign target e)) (hv : Value B e) (hc : Columned schema e) :
    ∃ i, schema.fieldIndex? column = some i ∧ Reaches B (i + 1) e := by
  generalize hb : Expr.assign target e = b at h
  induction h generalizing target e with
  | field =>
    cases hb
    obtain ⟨i, hi, rfl⟩ := hc _ (Expr.mem_nodes_self _) _ _ _ rfl
    exact ⟨i, hi, .field⟩
  | @joined _ position type =>
    cases hb
    have hm : Expr.field column position type ∈
        (Expr.op .concat [.field column position type, .const (.str "")]).nodes := by
      simp [Expr.nodes, Expr.nodesAll]
    obtain ⟨i, hi, rfl⟩ := hc _ hm _ _ _ rfl
    exact ⟨i, hi, .joined⟩
  | through hh ih =>
    cases hb
    cases hv with
    | var hm =>
      rcases (hB.origin hm).parts with ⟨v, rfl, hv⟩ | ⟨array, v, d, -, -, rfl, -, -⟩ | ⟨c, rfl, -⟩
      · have hcolumned : Columned schema v := fun x hx => hc x (by simp [Expr.nodes, hx])
        obtain ⟨i, hi, hr⟩ := ih hv hcolumned rfl
        exact ⟨i, hi, .through hm rfl hr⟩
      · cases hh
      · cases hh

/-- What keys of the shape of such an expression compare has the value as well. -/
theorem Reaches.grouped (h : Reaches B p e) (hv : v.Lowered Const.Written)
    (hs : v.shape = e.shape) (hB : ∀ m b, (m, b) ∈ B → Syntax.isName m = true ∧ m ≠ "inf") :
    Reaches B p (grouped v) := by
  cases h with
  | field =>
    obtain ⟨name, type, rfl⟩ := shape_field hv hs
    exact .joined
  | joined =>
    cases hv with
    | @const c => cases c <;> cases hs
    | @op o args _ ha =>
      obtain ⟨rfl, hargs⟩ := Awk.Shape.op.inj hs
      obtain ⟨a, t, rfl, hf, ht⟩ : ∃ a t, args = [a, t] ∧ a.shape = .field (toString p).toList ∧
          t.shape = .string "".toList := by
        match args with
        | [] => simp [Expr.shapes] at hargs
        | [_] => simp [Expr.shapes] at hargs
        | _ :: _ :: _ :: _ => simp [Expr.shapes] at hargs
        | [a, t] =>
          simp only [Expr.shapes, Expr.shape, List.cons.injEq, and_true] at hargs
          exact ⟨a, t, rfl, hargs.1, hargs.2⟩
      obtain ⟨name, type, rfl⟩ := shape_field (ha a List.mem_cons_self) hf
      obtain rfl := shape_string (ha t (by simp)) ht
      exact .joined
    | _ => cases hs
  | @through m e w hm he hw =>
    obtain ⟨hn, hinf⟩ := hB m _ hm
    have hfield := (hv.of_word (hs.trans he) hn hinf).1
    rw [Draft.grouped, hfield]
    exact .through hm (hs.trans he) hw

end

/-! ### Drafts -/

/-- Names that have the value of a column while a group is printed: keys that hold it, and copies. -/
inductive Copies (d : Draft) (p : Nat) : String → Prop
  | key {k} : k ∈ d.keys → Reaches d.keyScope.bindings p k.value → Copies d p k.name
  | copy {n m e} : (n, .assign n e) ∈ d.outScope.bindings → isInternal n = false →
      Syntax.isName m = true → e.shape = .word m.toList → Copies d p m → Copies d p n

/-- What has been taken in stays. -/
structure Grown (d d' : Draft) : Prop where
  key : d.keyScope.bindings ⊆ d'.keyScope.bindings
  keys : d.keys ⊆ d'.keys
  out : d.outScope.bindings ⊆ d'.outScope.bindings

/-- What hands a column on in a scope has its value. -/
def Bears (schema : Schema) (d : Draft) (sc : Scope) : Prop :=
  ∀ n b column, (n, b) ∈ sc.bindings → HandsOn column b →
    ∃ i, schema.fieldIndex? column = some i ∧ d.Copies (i + 1) n

/-- A draft whose columns can be followed to the outputs. -/
structure Traced (schema : Schema) (d : Draft) : Prop where
  source : d.keyScope.schema = schema
  columned : ∀ b ∈ d.keyScope.bindings, Columned schema b.2
  keys : ∀ k ∈ d.keys, ∃ v, ∃ i : Nat, k.name = "__key" ++ toString i ∧
    ("__key", v.text, i) ∈ d.namer.entries ∧ v.Lowered Const.Written ∧ k.value = grouped v
  plain : ∀ c, (d.scopeOf c).schema = noColumns
  distinct : d.outScope.names.Nodup
  scopes : ∀ c, Bears schema d (d.scopeOf c)
  out : Bears schema d d.outScope

variable {schema : Schema} {d d' : Draft} {stmt : Stmt} {U : String → Prop}
variable {outputAll : Bool} {value : Expr} {state : State} {c : Category}

theorem AddsKey.grown {i j : Nat} (h : AddsKey outputAll d stmt d' value state i j) : d.Grown d' :=
  ⟨h.key ▸ h.grows.scope.subset, h.subset_keys.1, h.outputs.1⟩

theorem AddsStatement.grown {name : String} (h : AddsStatement c d stmt d' name value state) :
    d.Grown d' :=
  ⟨h.key ▸ List.Subset.refl _, h.keys ▸ List.Subset.refl _, h.outputs.1⟩

theorem Copies.mono {p : Nat} {n : String} (h : d.Copies p n) (hg : d.Grown d') : d'.Copies p n := by
  induction h with
  | key hk hr => exact .key (hg.keys hk) (hr.mono hg.key)
  | copy hm hi hn hs _ ih => exact .copy (hg.out hm) hi hn hs ih

theorem Bears.mono {sc : Scope} (h : Bears schema d sc) (hg : d.Grown d') : Bears schema d' sc := by
  intro n b column hm hh
  obtain ⟨i, hi, hc⟩ := h n b column hm hh
  exact ⟨i, hi, hc.mono hg⟩

theorem traced_start (schema : Schema) : (start schema).Traced schema := by
  have nothing {sc : Scope} (h : sc.bindings = []) : Bears schema (start schema) sc := by
    intro n b column hm
    rw [h] at hm
    cases hm
  refine ⟨rfl, nofun, nofun, fun c => ?_, List.nodup_nil, fun c => ?_, nothing rfl⟩
  · cases c <;> rfl
  · cases c <;> exact nothing rfl

/-! ### Columns can be followed -/

/-- One more statement of the key. -/
theorem Traced.addKey (h : d.Traced schema) (hg : d'.Grounded) (hh : d'.Hygienic Const.Written U)
    (hg₀ : d.Grounded) (hw : stmt.WellFormed Literal.Spelt)
    (hn : ∀ n, keyName? outputAll stmt = some n → isInternal n = false)
    (hr : addKey outputAll d stmt = .ok d') : d'.Traced schema := by
  obtain ⟨value, state, i, j, hk⟩ := addKey_eq_ok hr
  have he := wellFormed_stmtExpr hw
  obtain ⟨hs, -, hcolumned⟩ := closed_columned.lowerRow he d.keyState
    (show d.keyState.Columned from fun b hb => h.source.symm ▸ h.columned b hb) value state hk.lower
  obtain ⟨-, -, hlowered⟩ := (closed_lowered tolerant_sound admits_spelt).lowerRow he d.keyState
    hg₀.namer value state hk.lower
  obtain ⟨-, -, hvalue⟩ := (closed_value Literal.spelt_string Literal.spelt_digit).lowerRow he
    d.keyState ⟨hg₀.namer, hg₀.key⟩ value state hk.lower
  have hgrown := hk.grown
  have hsource : state.scope.schema = schema := hk.grows.schema.trans h.source
  have hnamed : ∀ k ∈ d'.keys, ∃ v, ∃ i : Nat, k.name = "__key" ++ toString i ∧
      ("__key", v.text, i) ∈ d'.namer.entries ∧ v.Lowered Const.Written ∧ k.value = grouped v := by
    intro k hm
    rcases hk.mem_keys hm with hm | rfl
    · obtain ⟨v, j, hj, hv, hrest⟩ := h.keys k hm
      exact ⟨v, j, hj, hk.entries.subset hv, hrest⟩
    · exact ⟨value, i, rfl, hk.entry, hlowered, rfl⟩
  -- the key of the name compares a value of the same text, and so of the same shape
  have hvalue_copies : ∀ column, HandsOn column (.assign ("__key" ++ toString i) value) →
      ∃ p, schema.fieldIndex? column = some p ∧ d'.Copies (p + 1) ("__key" ++ toString i) := by
    intro column hc
    rw [hsource] at hcolumned
    rw [← hk.key] at hvalue
    obtain ⟨p, hp, hreach⟩ := reaches_of_handsOn hg.key hc hvalue hcolumned
    obtain ⟨-, k, hkm, hkn⟩ := hk.subset_keys
    obtain ⟨v, j, hj, hv, hvl, hkv⟩ := hnamed k hkm
    obtain ⟨-, rfl⟩ := stem_number_inj (by decide) (by decide) (hj.symm.trans hkn)
    have hshape := hvl.shape_eq (fun _ h => h) hlowered (hg.namer.key_inj hv hk.entry)
    refine ⟨p, hp, hkn ▸ .key hkm (hkv ▸ hreach.grouped hvl hshape fun m b hm => ?_)⟩
    have hhelper := hh.key.helper hm
    exact ⟨hhelper.isName, ne_inf_of_isGenerated hhelper.isGenerated⟩
  obtain ⟨hscopes, hout⟩ := hk.spread (Q := fun p => ∀ column, HandsOn column p.2 →
      ∃ i, schema.fieldIndex? column = some i ∧ d'.Copies (i + 1) p.1)
    (fun c p hp column => (h.scopes c).mono hgrown p.1 p.2 column hp)
    (fun p hp column => h.out.mono hgrown p.1 p.2 column hp) hvalue_copies
    (fun name b hname hb hm column hc => by
      cases hc with
      | through hc =>
        obtain ⟨p, hp, hcopies⟩ := hb column hc
        exact ⟨p, hp, .copy hm (hn name hname) (isName_number (by decide) i) rfl hcopies⟩)
  obtain ⟨-, hdistinct, hschema⟩ := hk.outputs
  refine ⟨hk.key ▸ hsource, fun b hb => ?_, hnamed, fun c => (hschema c).trans (h.plain c),
    hdistinct h.distinct, fun c n b column hm => hscopes c (n, b) hm column,
    fun n b column hm => hout (n, b) hm column⟩
  rw [hk.key] at hb
  exact hsource ▸ hs b hb

/-- One more statement about groups or the stream. -/
theorem Traced.addStatement (h : d.Traced schema) (hh : d'.Hygienic Const.Written U)
    (hU : ∀ n, U n → isGenerated n = false) (hw : stmt.WellFormed Literal.Spelt)
    (hn : ∀ n, boundName? stmt = some n → isInternal n = false) {source : String}
    (hr : addStatement c source d stmt = .ok d') : d'.Traced schema := by
  obtain ⟨name, v, state, ha⟩ := addStatement_eq_ok hr
  have hi : Followed (d.scopeOf c).bindings (d.stateOf c) := ⟨h.plain c, fun n b hm => .inl hm⟩
  obtain ⟨hs, hgrows, hv⟩ := closed_passing.lower (fun x _ => closedRows_passing x) _
    (wellFormed_stmtExpr hw) (d.stateOf c) hi v state ha.lower
  have hgrown := ha.grown
  have hsub : state.scope.bindings ⊆ (d'.scopeOf c).bindings := Scope.subset_bind ha.own
  obtain ⟨-, hdistinct, hnames, hlast⟩ := ha.outputs
  have hstate : ∀ b column, HandsOn column b → ∀ n, (n, b) ∈ state.scope.bindings →
      ∃ i, schema.fieldIndex? column = some i ∧ d'.Copies (i + 1) n := by
    intro b column hc
    induction hc with
    | field =>
      intro n hm
      rcases hs.copied n _ hm with hold | ⟨-, hcopy⟩
      · exact (h.scopes c).mono hgrown n _ column hold .field
      · obtain ⟨m, b', heq, -⟩ := hcopy column .field
        cases heq
    | joined =>
      intro n hm
      rcases hs.copied n _ hm with hold | ⟨-, hcopy⟩
      · exact (h.scopes c).mono hgrown n _ column hold .joined
      · obtain ⟨m, b', heq, -⟩ := hcopy column .joined
        cases heq
    | @through target m b hc ih =>
      intro n hm
      by_cases hold : (n, .assign target (.var m b)) ∈ (d.scopeOf c).bindings
      · exact (h.scopes c).mono hgrown n _ column hold (.through hc)
      obtain ⟨hgen, hcopy⟩ := (hs.copied n _ hm).resolve_left hold
      obtain ⟨m, b', heq, hm'⟩ := hcopy column (.through hc)
      cases heq
      obtain ⟨i, hi, hcopies⟩ := ih m hm'
      -- whatever is bound for the outputs under the name has the same text
      obtain ⟨b₂, hmem⟩ : ∃ b₂, (target, b₂) ∈ d'.outScope.bindings := by
        simpa [Scope.names] using hnames _ hm hold
      have hhelper := (hh.scopes c target _ (hsub hm)).of_isGenerated hU hgen
      have hhelper' := (hh.out target b₂ hmem).of_isGenerated hU hgen
      have halike := hhelper.alike (fun _ h => h) hh.namer hhelper' hhelper.mem_writes
        hhelper'.mem_writes
      cases halike with
      | assign hv hw ht =>
        refine ⟨i, hi, .copy hmem (isInternal_of_isGenerated hgen) ?_
          (hw.shape_eq (fun _ h => h) hv ht.symm) hcopies⟩
        cases hv with
        | var hn => exact hn
  have hstatement : ∀ column, HandsOn column (.assign name v) →
      ∃ i, schema.fieldIndex? column = some i ∧ d'.Copies (i + 1) name := by
    intro column hc
    obtain ⟨m, b, rfl, hm⟩ := hv hs.schema column (handsOn_target hc)
    cases hc with
    | through hc =>
      obtain ⟨i, hi, hcopies⟩ := hstate b column hc m hm
      refine ⟨i, hi, .copy hlast (hn name ha.bound) ?_ rfl hcopies⟩
      cases (hh.out name _ hlast).lowered_of_word rfl with
      | var hm => exact hm
  obtain ⟨hscopes, hout⟩ := ha.spread (Q := fun p => ∀ column, HandsOn column p.2 →
      ∃ i, schema.fieldIndex? column = some i ∧ d'.Copies (i + 1) p.1)
    (fun c p hp column => (h.scopes c).mono hgrown p.1 p.2 column hp)
    (fun p hp column => h.out.mono hgrown p.1 p.2 column hp)
    (fun p hp column hc => hstate p.2 column hc p.1 hp) hstatement
  refine ⟨ha.key ▸ h.source, ha.key ▸ h.columned, fun k hk => ?_,
    fun x => (ha.schema_scopeOf x).trans (h.plain x), hdistinct h.distinct,
    fun x n b column hm => hscopes x (n, b) hm column, fun n b column hm => hout (n, b) hm column⟩
  rw [ha.keys] at hk
  obtain ⟨v, j, hj, hv, hrest⟩ := h.keys k hk
  exact ⟨v, j, hj, ha.namer ▸ hgrows.namer.subset hv, hrest⟩

end GroupProgram.Draft

/-- In every draft of sources that bind no names of the compiler's own, columns can be followed. -/
theorem GroupProgram.traced_draft {schema : Schema} {key : Option String}
    {aggregates : List (Category × String)} {options : Options} {d : Draft}
    (h : draft schema key aggregates options = .ok d)
    (hn : ∀ n ∈ boundNames key aggregates options,
      isInternal n = false ∧ isGenerated n = false) :
    d.Traced schema := by
  generalize hbound : boundNames key aggregates options = bound at hn
  have hU : ∀ n, n ∈ bound ∨ isInternal n = true → isGenerated n = false := fun n hu =>
    hu.elim (fun hm => (hn n hm).2) free_internal
  refine (draft_induct (Q := fun d _ => (d.Grounded ∧ d.Hygienic Const.Written fun n =>
      n ∈ bound ∨ isInternal n = true) ∧ d.Traced schema) h
    ⟨⟨Draft.grounded_start schema, Draft.hygienic_start schema⟩, Draft.traced_start schema⟩
    (fun stmt hstmt d d' _ hq hr => ?_) fun p hp stmt hstmt d d' _ hq hr => ?_).2
  · have hw := wellFormed_of_mem_statements hstmt
    have hnames : ∀ n, keyName? (options.outputAllKeys && key.isSome) stmt = some n → n ∈ bound :=
      fun n hname => hbound ▸ List.mem_append_left _ (List.mem_filterMap.2 ⟨stmt, hstmt, hname⟩)
    have hg := hq.1.1.addKey hw hr
    obtain ⟨hh, -⟩ := hq.1.2.addKey admits_spelt (fun _ h => .inr h) hw
      (fun n hname => .inl (hnames n hname)) hr
    exact ⟨⟨hg, hh⟩, hq.2.addKey hg hh hq.1.1 hw (fun n hname => (hn n (hnames n hname)).1) hr⟩
  · have hw := wellFormed_of_mem_statements hstmt
    have hnames : ∀ n, boundName? stmt = some n → n ∈ bound := fun n hname =>
      hbound ▸ List.mem_append_right _ (List.mem_flatMap.2
        ⟨p, hp, List.mem_filterMap.2 ⟨stmt, hstmt, hname⟩⟩)
    have hh := hq.1.2.takesIn admits_spelt hw (fun n hname => .inl (hnames n hname)) hr
    exact ⟨⟨hq.1.1.addStatement hw hr, hh⟩,
      hq.2.addStatement hh hU hw (fun n hname => (hn n (hnames n hname)).1) hr⟩

end Compile

end RowAwk
