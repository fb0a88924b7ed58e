import RowAwk.Proofs.Scopes
import RowAwk.Proofs.Steps
import RowAwk.Proofs.Traces

/-!
What a statement adds to the draft of a grouping program.

A statement of the key is lowered in the scope of the keys; a name that it is printed under, and the
variable of its key, are bound for the outputs. A statement about groups or the stream is lowered in
the scope of its category. What it binds there, helpers included, is bound for the outputs as well,
and its aggregates bind helpers among the rows.

    key:        keyScope ◀── helpers                 outScope ◀── __key, name
    statement:  its scope ◀── helpers, name          outScope ◀── helpers, name
                rowScope ◀── helpers of arguments

`AddsKey` and `AddsStatement` say all that such a step does. A property of bindings that they add
spreads from the scopes before to those after.
-/

open List

namespace RowAwk.Compile

open Awk (Category Expr Key)
open Syntax (Literal Stmt)
open Scope

namespace GroupProgram

/-- The name that a statement of the key is printed under. -/
def keyName? (outputAll : Bool) : Stmt → Option String
  | .assign target _ => some target.text
  | .value e => if outputAll then e.asName? else none

namespace Draft

/-- The state in which statements of the key are lowered. -/
def keyState (d : Draft) : State := ⟨d.keyScope, d.rowScope, d.namer, d.routines⟩

/-- The state in which statements about groups or the stream are lowered. -/
def stateOf (d : Draft) (category : Category) : State :=
  ⟨d.scopeOf category, d.rowScope, d.namer, d.routines⟩

/-- What a key compares: columns are taken as texts. -/
def grouped (v : Expr) : Expr := if v.isField then .op .concat [v, .string ""] else v

/-- The names of the keys of a group. -/
def IsKey (d : Draft) (x : String) : Prop := ∃ k ∈ d.keys, k.name = x

variable {outputAll : Bool} {d d' : Draft} {stmt : Stmt} {keyName rowName name : String}
variable {value : Expr} {state : State} {i j : Nat}

theorem keyParts_eq_ok {name : Option String} {e : Syntax.Expr}
    (h : keyParts outputAll stmt = .ok (name, e)) :
    name = keyName? outputAll stmt ∧ e = stmtExpr stmt := by
  cases stmt with
  | assign target e =>
    cases h
    exact ⟨rfl, rfl⟩
  | value e =>
    cases outputAll with
    | false =>
      cases h
      exact ⟨rfl, rfl⟩
    | true =>
      cases hn : e.asName? with
      | none => simp [keyParts, hn] at h
      | some n =>
        simp only [keyParts, hn] at h
        cases h
        exact ⟨by simp [keyName?, hn], rfl⟩

/-! ### Grouping by a key -/

theorem groupBy_eq (d : Draft) (keyName rowName : String) (value : Expr) :
    d.groupBy keyName rowName value = { d with keys := (d.groupBy keyName rowName value).keys } := by
  rw [groupBy]
  split <;> rfl

theorem keys_groupBy_congr {d₁ : Draft} (h : d₁.keys = d.keys) :
    (d₁.groupBy keyName rowName value).keys = (d.groupBy keyName rowName value).keys := by
  rw [groupBy, groupBy, h]
  split
  · exact h
  · rfl

/-- The keys are the same, and one of them has the name, or there is one more. -/
theorem keys_groupBy (d : Draft) (keyName rowName : String) (value : Expr) :
    ((d.groupBy keyName rowName value).keys = d.keys ∧ ∃ k ∈ d.keys, k.name = keyName) ∨
      ((d.groupBy keyName rowName value).keys = d.keys ++ [⟨keyName, rowName, grouped value⟩] ∧
        ∀ k ∈ d.keys, k.name ≠ keyName) := by
  rw [groupBy]
  split
  · rename_i hany
    obtain ⟨k, hk, hname⟩ := any_eq_true.1 hany
    exact .inl ⟨rfl, k, hk, by simpa using hname⟩
  · rename_i hany
    refine .inr ⟨rfl, fun k hk hname => hany ?_⟩
    exact any_eq_true.2 ⟨k, hk, by simpa using hname⟩

/-! ### Statements of the key -/

theorem isInternal_key (i : Nat) : Syntax.isInternal ("__key" ++ toString i) = true := by
  rw [Syntax.isInternal, String.toList_append]
  rfl

/-- The variable of a key is bound already, or is bound behind all others. -/
inductive BindsKey (sc : Scope) (keyName : String) (value : Expr) : Scope → Expr → Prop
  | old {b} : sc.binding? keyName = some b → BindsKey sc keyName value sc b
  | new {sc'} : sc.bind keyName (.assign keyName value) none = .ok sc' →
      BindsKey sc keyName value sc' (.assign keyName value)

/-- What is bound to print a key under a name, if it has one. -/
inductive PrintsKey (d d' : Draft) (keyName : String) (value : Expr) : Option String → Prop
  | unnamed : d'.outScope = d.outScope → d'.groupScope = d.groupScope → d'.named = d.named →
      PrintsKey d d' keyName value none
  | named {name sc b} : BindsKey d.outScope keyName value sc b →
      sc.bind name (.assign name (.var keyName b)) (some d.named) = .ok d'.outScope →
      d.groupScope.bind name (.assign name (.var keyName b)) none = .ok d'.groupScope →
      d'.named = d.named + 1 → PrintsKey d d' keyName value (some name)

/-- What a statement of the key does. Its value has the key with the number `i`, and in each row
    the one with the number `j`. -/
structure AddsKey (outputAll : Bool) (d : Draft) (stmt : Stmt) (d' : Draft) (value : Expr)
    (state : State) (i j : Nat) : Prop where
  lower : (Lowering.lower none (stmtExpr stmt)).run d.keyState = .ok (value, state)
  grows : d.keyState.Grows state
  key : d'.keyScope = state.scope
  row : d'.rowScope = d.rowScope
  stream : d'.streamScope = d.streamScope
  routines : d'.routines = state.routines
  namer : d'.namer = ((state.namer.nameFor "__key" value.text).2.nameFor "__row_key" value.text).2
  name : (state.namer.nameFor "__key" value.text).1 = "__key" ++ toString i
  rowName : ((state.namer.nameFor "__key" value.text).2.nameFor "__row_key" value.text).1
    = "__row_key" ++ toString j
  entry : ("__key", value.text, i) ∈ d'.namer.entries
  rowEntry : ("__row_key", value.text, j) ∈ d'.namer.entries
  keys : d'.keys = (d.groupBy ("__key" ++ toString i) ("__row_key" ++ toString j) value).keys
  prints : PrintsKey d d' ("__key" ++ toString i) value (keyName? outputAll stmt)

theorem nameKey_eq_ok (hr : d.nameKey keyName name value = .ok d') :
    (d'.keyScope = d.keyScope ∧ d'.rowScope = d.rowScope ∧ d'.streamScope = d.streamScope ∧
      d'.namer = d.namer ∧ d'.routines = d.routines ∧ d'.keys = d.keys) ∧
      PrintsKey d d' keyName value (some name) := by
  obtain ⟨⟨d₁, b⟩, hb, hr⟩ := except_bind_eq_ok.1 hr
  obtain ⟨out, ho, hr⟩ := except_bind_eq_ok.1 hr
  obtain ⟨group, hg, hr⟩ := except_bind_eq_ok.1 hr
  cases hr
  rw [bindKey] at hb
  cases hk : d.outScope.binding? keyName with
  | some b' =>
    simp only [hk] at hb
    cases hb
    exact ⟨⟨rfl, rfl, rfl, rfl, rfl, rfl⟩, .named (.old hk) ho hg rfl⟩
  | none =>
    simp only [hk] at hb
    obtain ⟨out', ho', hb⟩ := except_bind_eq_ok.1 hb
    cases hb
    exact ⟨⟨rfl, rfl, rfl, rfl, rfl, rfl⟩, .named (.new ho') ho hg rfl⟩

theorem addKey_eq_ok (hr : addKey outputAll d stmt = .ok d') :
    ∃ value state i j, AddsKey outputAll d stmt d' value state i j := by
  rw [addKey] at hr
  obtain ⟨⟨name, e⟩, hparts, hr⟩ := except_bind_eq_ok.1 hr
  obtain ⟨hname, rfl⟩ := keyParts_eq_ok hparts
  obtain ⟨⟨value, state⟩, hlower, hr⟩ := except_bind_eq_ok.1 hr
  dsimp only at hr
  obtain ⟨i, hi, hentry⟩ := state.namer.nameFor_fst "__key" value.text
  obtain ⟨j, hj, hrow⟩ :=
    (state.namer.nameFor "__key" value.text).2.nameFor_fst "__row_key" value.text
  have hentry := (Namer.starts_nameFor _ "__row_key" value.text).subset hentry
  have hgrows : d.keyState.Grows state := Lowering.grows_lower hlower
  rw [hi, hj] at hr
  refine ⟨value, state, i, j, ?_⟩
  cases name with
  | none =>
    cases hr
    rw [groupBy_eq]
    exact ⟨hlower, hgrows, rfl, rfl, rfl, rfl, rfl, hi, hj, hentry, hrow, keys_groupBy_congr rfl,
      hname ▸ .unnamed rfl rfl rfl⟩
  | some name =>
    obtain ⟨d₂, hd₂, hr⟩ := except_bind_eq_ok.1 hr
    obtain ⟨⟨hkey, hrows, hstream, hnamer, hroutines, hkeys⟩, hprints⟩ := nameKey_eq_ok hd₂
    cases hr
    rw [groupBy_eq]
    refine ⟨hlower, hgrows, hkey, hrows, hstream, hroutines, hnamer, hi, hj, hnamer ▸ hentry,
      hnamer ▸ hrow, keys_groupBy_congr hkeys, hname ▸ ?_⟩
    cases hprints with
    | named hb ho hg hn => exact .named hb ho hg hn

namespace AddsKey

variable (h : AddsKey outputAll d stmt d' value state i j)

include h

theorem starts : state.namer.entries <+: d'.namer.entries := by
  rw [h.namer]
  exact (Namer.starts_nameFor _ _ _).trans (Namer.starts_nameFor _ _ _)

theorem entries : d.namer.entries <+: d'.namer.entries := h.grows.namer.trans h.starts

theorem sound (hs : state.namer.Sound) : d'.namer.Sound := by
  rw [h.namer]
  exact (hs.nameFor _ _).nameFor _ _

theorem mem_keys {k : Key} (hk : k ∈ d'.keys) :
    k ∈ d.keys ∨ k = ⟨"__key" ++ toString i, "__row_key" ++ toString j, grouped value⟩ := by
  rw [h.keys] at hk
  rcases d.keys_groupBy ("__key" ++ toString i) ("__row_key" ++ toString j) value with
    ⟨hkeys, -⟩ | ⟨hkeys, -⟩
  · exact .inl (hkeys ▸ hk)
  · rw [hkeys] at hk
    exact (mem_append.1 hk).imp_right mem_singleton.1

theorem subset_keys : d.keys ⊆ d'.keys ∧ ∃ k ∈ d'.keys, k.name = "__key" ++ toString i := by
  rw [h.keys]
  rcases d.keys_groupBy ("__key" ++ toString i) ("__row_key" ++ toString j) value with
    ⟨hkeys, hk⟩ | ⟨hkeys, -⟩
  · rw [hkeys]
    exact ⟨List.Subset.refl _, hk⟩
  · rw [hkeys]
    exact ⟨subset_append_left _ _, _, mem_append_right _ mem_cons_self, rfl⟩

/-- What all scopes had bound, the variable of the key and the name it is printed under: a property
    of these is one of all bindings. -/
theorem spread {Q : String × Expr → Prop} (hscopes : ∀ c, ∀ p ∈ (d.scopeOf c).bindings, Q p)
    (hout : ∀ p ∈ d.outScope.bindings, Q p)
    (hown : Q ("__key" ++ toString i, .assign ("__key" ++ toString i) value))
    (hnamed : ∀ name b, keyName? outputAll stmt = some name → Q ("__key" ++ toString i, b) →
      (name, .assign name (.var ("__key" ++ toString i) b)) ∈ d'.outScope.bindings →
      Q (name, .assign name (.var ("__key" ++ toString i) b))) :
    (∀ c, ∀ p ∈ (d'.scopeOf c).bindings, Q p) ∧ ∀ p ∈ d'.outScope.bindings, Q p := by
  have hstream : ∀ p ∈ d'.streamScope.bindings, Q p := by
    rw [h.stream]
    exact hscopes .stream
  suffices hrest : (∀ p ∈ d'.groupScope.bindings, Q p) ∧ ∀ p ∈ d'.outScope.bindings, Q p from
    ⟨fun c => by cases c; exacts [hrest.1, hstream], hrest.2⟩
  have hprints := h.prints
  generalize hname : keyName? outputAll stmt = name? at hprints
  cases hprints with
  | unnamed ho hg _ => exact ⟨hg ▸ hscopes .group, ho ▸ hout⟩
  | @named name sc b hb ho hg =>
    obtain ⟨hsc, hkey⟩ : (∀ p ∈ sc.bindings, Q p) ∧ Q ("__key" ++ toString i, b) := by
      cases hb with
      | old hk => exact ⟨hout, hout _ (mem_of_binding? hk)⟩
      | new hk => exact ⟨forall_bind hk hout hown, hown⟩
    have hprinted := hnamed name b hname hkey (mem_bind_self ho)
    exact ⟨forall_bind hg (hscopes .group) hprinted, forall_bind ho hsc hprinted⟩

/-- Nothing is unbound, and no name is bound twice. -/
theorem outputs : d.outScope.bindings ⊆ d'.outScope.bindings ∧
    (d.outScope.names.Nodup → d'.outScope.names.Nodup) ∧
    ∀ c, (d'.scopeOf c).schema = (d.scopeOf c).schema := by
  have hstream : (d'.scopeOf .stream).schema = (d.scopeOf .stream).schema := by
    rw [scopeOf, scopeOf, h.stream]
  suffices hrest : d.outScope.bindings ⊆ d'.outScope.bindings ∧
      (d.outScope.names.Nodup → d'.outScope.names.Nodup) ∧
      d'.groupScope.schema = d.groupScope.schema from
    ⟨hrest.1, hrest.2.1, fun c => by cases c; exacts [hrest.2.2, hstream]⟩
  have hprints := h.prints
  generalize keyName? outputAll stmt = name? at hprints
  cases hprints with
  | unnamed ho hg _ => exact ⟨ho ▸ List.Subset.refl _, ho ▸ id, hg ▸ rfl⟩
  | named hb ho hg =>
    refine ⟨List.Subset.trans ?_ (subset_bind ho), fun hn => nodup_bind ho ?_, schema_bind hg⟩
    · cases hb with
      | old _ => exact List.Subset.refl _
      | new hk => exact subset_bind hk
    · cases hb with
      | old _ => exact hn
      | new hk => exact nodup_bind hk hn

end AddsKey

/-! ### Statements about groups and the stream -/

/-- What a statement about groups or the stream does. A name that is bound for the stream is known
    to groups as well. -/
structure AddsStatement (c : Category) (d : Draft) (stmt : Stmt) (d' : Draft) (name : String)
    (value : Expr) (state : State) : Prop where
  lower : (Lowering.lower (some c) (stmtExpr stmt)).run (d.stateOf c) = .ok (value, state)
  binds : (Lowering.binding (some c) stmt).run (d.stateOf c)
    = .ok ((name, .assign name value), state)
  bound : boundName? stmt = some name
  grows : (d.stateOf c).Grows state
  key : d'.keyScope = d.keyScope
  row : d'.rowScope = state.rows
  namer : d'.namer = state.namer
  routines : d'.routines = state.routines
  keys : d'.keys = d.keys
  out : ∃ sc, bindMissing d.outScope
      (state.scope.bindings.drop (d.scopeOf c).bindings.length) = .ok sc ∧
    sc.bind name (.assign name value) none = .ok d'.outScope
  own : state.scope.bind name (.assign name value) none = .ok (d'.scopeOf c)
  group : c = .stream → d.groupScope.bind name (.assign name value) none = .ok d'.groupScope
  stream : c = .group → d'.streamScope = d.streamScope

theorem addStatement_eq_ok {c : Category} {source : String}
    (hr : addStatement c source d stmt = .ok d') :
    ∃ name value state, AddsStatement c d stmt d' name value state := by
  rw [addStatement] at hr
  obtain ⟨⟨⟨name, statement⟩, state⟩, hbinds, hr⟩ := except_bind_eq_ok.1 hr
  obtain ⟨out₁, hout₁, hr⟩ := except_bind_eq_ok.1 hr
  obtain ⟨scope, hscope, hr⟩ := except_bind_eq_ok.1 hr
  obtain ⟨out, hout, hr⟩ := except_bind_eq_ok.1 hr
  have hbinds : (Lowering.binding (some c) stmt).run (d.stateOf c) = _ := noting_eq_ok.1 hbinds
  obtain ⟨_, value, hname, heq, hlower⟩ := Lowering.binding_eq_ok hbinds
  cases heq
  have hgrows := Lowering.grows_lower hlower
  refine ⟨name, value, state, ?_⟩
  cases c with
  | group =>
    cases hr
    exact ⟨hlower, hbinds, hname, hgrows, rfl, rfl, rfl, rfl, rfl, ⟨out₁, hout₁, hout⟩, hscope,
      (fun h => by cases h), fun _ => rfl⟩
  | stream =>
    obtain ⟨group, hgroup, hr⟩ := except_bind_eq_ok.1 hr
    cases hr
    exact ⟨hlower, hbinds, hname, hgrows, rfl, rfl, rfl, rfl, rfl, ⟨out₁, hout₁, hout⟩, hscope,
      fun _ => hgroup, fun h => by cases h⟩

theorem mem_bindMissing {bs : List (String × Expr)} {s s' : Scope} (h : bindMissing s bs = .ok s')
    {b : String × Expr} (hb : b ∈ s'.bindings) : b ∈ s.bindings ∨ b ∈ bs := by
  induction bs generalizing s with
  | nil =>
    cases h
    exact .inl hb
  | cons p bs ih =>
    obtain ⟨name, statement⟩ := p
    rw [bindMissing] at h
    split at h
    · exact (ih h).imp_right (mem_cons_of_mem _)
    · obtain ⟨s₁, hs₁, h⟩ := except_bind_eq_ok.1 h
      rcases ih h with hb | hb
      · rcases (mem_bind hs₁).1 hb with hb | rfl
        · exact .inl hb
        · exact .inr mem_cons_self
      · exact .inr (mem_cons_of_mem _ hb)

theorem grows_bindMissing {new : List (String × Expr)} {sc sc' : Scope}
    (h : bindMissing sc new = .ok sc') :
    sc.bindings ⊆ sc'.bindings ∧ new.map Prod.fst ⊆ sc'.names ∧
      (sc.names.Nodup → sc'.names.Nodup) := by
  induction new generalizing sc with
  | nil =>
    cases h
    exact ⟨List.Subset.refl _, nil_subset _, id⟩
  | cons p new ih =>
    rw [bindMissing] at h
    split at h
    · rename_i hvar
      obtain ⟨hsub, hnew, hn⟩ := ih h
      refine ⟨hsub, cons_subset.2 ⟨?_, hnew⟩, hn⟩
      exact map_subset _ hsub (mem_names_iff.2 hvar)
    · obtain ⟨sc₁, hsc₁, h⟩ := except_bind_eq_ok.1 h
      obtain ⟨hsub, hnew, hn⟩ := ih h
      refine ⟨List.Subset.trans (subset_bind hsc₁) hsub, cons_subset.2 ⟨?_, hnew⟩,
        fun h => hn (nodup_bind hsc₁ h)⟩
      exact mem_map.2 ⟨_, hsub (mem_bind_self hsc₁), rfl⟩

namespace AddsStatement

variable {c : Category} (h : AddsStatement c d stmt d' name value state)

include h

variable {Q : String × Expr → Prop}

/-- What the scopes had bound, helpers, and the name of the statement: a property of these is one of
    all that the scopes bind. -/
theorem forall_scopeOf (hscopes : ∀ c, ∀ p ∈ (d.scopeOf c).bindings, Q p)
    (hstate : ∀ p ∈ state.scope.bindings, Q p) (hnew : Q (name, .assign name value))
    (x : Category) : ∀ p ∈ (d'.scopeOf x).bindings, Q p := by
  have hown := forall_bind h.own hstate hnew
  cases c with
  | group =>
    cases x with
    | group => exact hown
    | stream =>
      rw [scopeOf, h.stream rfl]
      exact hscopes .stream
  | stream =>
    cases x with
    | group => exact forall_bind (h.group rfl) (hscopes .group) hnew
    | stream => exact hown

theorem spread (hscopes : ∀ c, ∀ p ∈ (d.scopeOf c).bindings, Q p)
    (hout : ∀ p ∈ d.outScope.bindings, Q p) (hstate : ∀ p ∈ state.scope.bindings, Q p)
    (hnew : Q (name, .assign name value)) :
    (∀ c, ∀ p ∈ (d'.scopeOf c).bindings, Q p) ∧ ∀ p ∈ d'.outScope.bindings, Q p := by
  refine ⟨h.forall_scopeOf hscopes hstate hnew, ?_⟩
  obtain ⟨sc, hsc, ho⟩ := h.out
  refine forall_bind ho (fun p hp => ?_) hnew
  rcases mem_bindMissing hsc hp with hp | hp
  · exact hout p hp
  · exact hstate p (mem_of_mem_drop hp)

/-- Nothing is unbound, and whatever is new in a scope is bound for the outputs. -/
theorem outputs : d.outScope.bindings ⊆ d'.outScope.bindings ∧
    (d.outScope.names.Nodup → d'.outScope.names.Nodup) ∧
    (∀ p ∈ state.scope.bindings, p ∉ (d.scopeOf c).bindings → p.1 ∈ d'.outScope.names) ∧
    (name, .assign name value) ∈ d'.outScope.bindings := by
  obtain ⟨sc, hsc, ho⟩ := h.out
  obtain ⟨hsub, hnew, hn⟩ := grows_bindMissing hsc
  refine ⟨List.Subset.trans hsub (subset_bind ho), fun h => nodup_bind ho (hn h),
    fun p hp hold => ?_, mem_bind_self ho⟩
  obtain ⟨more, hmore⟩ := h.grows.scope
  have hmore : (d.scopeOf c).bindings ++ more = state.scope.bindings := hmore
  rw [← hmore, drop_left] at hnew
  rw [← hmore] at hp
  refine (mem_names_bind ho).2 (.inl (hnew (mem_map_of_mem ?_)))
  exact (mem_append.1 hp).resolve_left hold

theorem subset_scopeOf (x : Category) : (d.scopeOf x).bindings ⊆ (d'.scopeOf x).bindings := by
  have hown : (d.scopeOf c).bindings ⊆ (d'.scopeOf c).bindings :=
    List.Subset.trans h.grows.scope.subset (subset_bind h.own)
  cases c with
  | group =>
    cases x with
    | group => exact hown
    | stream =>
      rw [scopeOf, scopeOf, h.stream rfl]
      exact List.Subset.refl _
  | stream =>
    cases x with
    | group => exact subset_bind (h.group rfl)
    | stream => exact hown

theorem schema_scopeOf (x : Category) : (d'.scopeOf x).schema = (d.scopeOf x).schema := by
  have hown : (d'.scopeOf c).schema = (d.scopeOf c).schema :=
    (schema_bind h.own).trans h.grows.schema
  cases c with
  | group =>
    cases x with
    | group => exact hown
    | stream => rw [scopeOf, scopeOf, h.stream rfl]
  | stream =>
    cases x with
    | group => exact schema_bind (h.group rfl)
    | stream => exact hown

end AddsStatement

end Draft

theorem compile_eq_ok {schema : Schema} {key : Option String}
    {aggregates : List (Category × String)} {options : Options} {c : Compiled}
    (h : compile schema key aggregates options = .ok c) :
    ∃ d projection derived, draft schema key aggregates options = .ok d ∧
      Projection.of d.outScope none schema.order = .ok projection ∧
      projection.schema none schema.metadata = .ok derived ∧
      c = ⟨d.program options projection.block, derived⟩ := by
  obtain ⟨d, hd, h⟩ := except_bind_eq_ok.1 h
  obtain ⟨projection, hp, h⟩ := except_bind_eq_ok.1 h
  obtain ⟨derived, hderived, h⟩ := except_bind_eq_ok.1 h
  cases h
  exact ⟨d, projection, derived, hd, hp, hderived, rfl⟩

end GroupProgram

end RowAwk.Compile
