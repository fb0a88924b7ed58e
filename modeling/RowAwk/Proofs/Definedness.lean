import RowAwk.Proofs.Lookups

/-!
No program looks up a variable that it has not set.

What is computed for a filter or for printing is closed under referring to others, and computed in
the order in which it was bound. So every variable is computed before it is looked up, in the same
pass; only the keys of groups and the accumulators last from one pass to the next.

    _abs0 = ($1 - 1);  if(_abs0 > 2)  { y = (_abs0 + 1);  print(y,(y * 2)) }

Two kinds of names are left out. Names with two underscores are taken for those of the compiler and
never computed, also where a source has bound them; and where a source has bound a name of the form
`_spcnt0`, it is taken for the number of parts of a text that is never split.
-/

open List

namespace RowAwk.Compile

open Awk (Accumulator Block Category Const Expr Fold Head Key Line Program Secures Sure There)
open Awk.Expr (mem_lookupsAll mem_varNames)
open Syntax (Literal Stmt isInternal)

/-! ### Projections -/

variable {name : String}

theorem isInternal_of_shown (h : Syntax.isHidden name = false) : isInternal name = false := by
  rw [Syntax.isHidden] at h
  rw [isInternal]
  cases hn : name.toList with
  | nil => rfl
  | cons c cs =>
    rw [hn] at h
    simp only [List.isPrefixOf, Bool.and_true] at h
    simp [List.isPrefixOf, h]

namespace Projection

variable {A : Accumulator → Prop} {X K : String → Prop} {E : List (String × String × Nat)}
variable {s : Scope} {filter : Option Expr} {order : List Schema.Order} {p : Projection} {nr : Nat}

theorem secures_computeLine {statements : List Expr} {T : String → Prop}
    (hs : Sure K (statements.map Awk.Step.of))
    (hT : ∀ x, T x → There K (statements.map Awk.Step.of) x) :
    Secures nr K (computeLine statements) T := by
  cases statements with
  | nil =>
    refine .nil fun x hx => ?_
    rcases hT x hx with hx | ⟨s, hs, -⟩
    · exact hx
    · cases hs
  | cons b bs => exact .line hs hT

theorem wanted_not_internal {exprs : List Expr} {computed : List String} {name : String}
    (h : wanted exprs computed name = true) : isInternal name = false := by
  cases hi : isInternal name with
  | true => simp [wanted, hi] at h
  | false => rfl

/-- A scope whose bindings are in order, with all at hand that they look up besides each other. -/
structure Ready (A : Accumulator → Prop) (X : String → Prop) (E : List (String × String × Nat))
    (s : Scope) (K : String → Prop) : Prop where
  laid : Laid A X E [] s.bindings
  sets : ∀ q ∈ s.bindings, ∀ x, Goes E q.1 x → x ∈ writes q.2 ∨ X x
  given : ∀ x, X x → K x
  accumulators : ∀ q ∈ s.bindings, ∀ a args, .aggregate a args ∈ q.2.nodes → A a → K a.name

/-- A filter over a scope: it looks up no accumulators, and with a variable it has those that the
    variable refers to. -/
structure Filters (A : Accumulator → Prop) (X : String → Prop) (E : List (String × String × Nat))
    (s : Scope) (e : Expr) : Prop where
  refers : Refers A X E s.names e
  accumulators : ∀ a args, .aggregate a args ∈ e.nodes → ¬A a
  closed : ∀ q ∈ s.bindings, q.1 ∈ e.varNames → q.2.varNames ⊆ e.varNames

namespace Ready

theorem mono (h : Ready A X E s K) {K' : String → Prop} (hK : ∀ x, K x → K' x) : Ready A X E s K' :=
  ⟨h.laid, h.sets, fun x hx => hK x (h.given x hx), fun q hq a args hm ha =>
    hK _ (h.accumulators q hq a args hm ha)⟩

variable {q : String × Expr}

theorem there (h : Ready A X E s K) {chosen : String → Bool} (hq : q ∈ s.bindings)
    (hc : chosen q.1 = true) {x : String} (hx : Goes E q.1 x) :
    There K (computes chosen s.bindings) x :=
  there_computes h.given h.sets hq hc hx

/-- The variables of a filter are computed in order. -/
theorem sure_early (h : Ready A X E s K) {early : List Expr}
    (hf : ∀ e ∈ early, Filters A X E s e) : Sure K (computes (wanted early []) s.bindings) := by
  refine h.laid.sure (fun _ => False) h.given h.accumulators h.sets
    (fun _ _ => wanted_not_internal) (fun q hq hc n hn hi => .inl ?_) (fun _ _ h => h.elim) nofun
  obtain ⟨e, he, hme⟩ := mem_flatMap.1 ((wanted_iff (wanted_not_internal hc)).1 hc).1
  exact (wanted_iff hi).2 ⟨mem_flatMap.2 ⟨e, he, (hf e he).closed q hq hme hn⟩, by simp⟩

variable {computed : List String}

/-- The variables of all bindings are computed in order, after those that are there already. -/
theorem sure_late (h : Ready A X E s K) (hc : ∀ q ∈ s.bindings, q.1 ∈ computed →
      isInternal q.1 = false → ∀ x, Goes E q.1 x → K x) :
    Sure K (computes (wanted (s.bindings.map Prod.snd) computed) s.bindings) := by
  refine h.laid.sure (fun n => n ∈ computed ∧ isInternal n = false) h.given h.accumulators
    h.sets (fun _ _ => wanted_not_internal) (fun q hq _ n hn hi => ?_)
    (fun q hq hm => hc q hq hm.1 hm.2) nofun
  by_cases hne : n ∈ computed
  · exact .inr ⟨hne, hi⟩
  · refine .inl ((wanted_iff hi).2 ⟨mem_flatMap.2 ⟨q.2, ?_, hn⟩, hne⟩)
    exact mem_map_of_mem hq

/-- What is printed for an output is there once the variables of all bindings are. -/
theorem printed_there (h : Ready A X E s K) (hc : ∀ q ∈ s.bindings,
      q.1 ∈ computed → isInternal q.1 = false → ∀ x, Goes E q.1 x → K x)
    (hall : (s.bindings.map Prod.snd).flatMap Expr.varNames ⊆ computed) (hq : q ∈ outputs s) :
    ∀ x ∈ (printed computed q.1 q.2).lookups, K x := by
  intro x hx
  obtain ⟨hq, hshown⟩ := mem_filter.1 hq
  have hi := isInternal_of_shown (show Syntax.isHidden q.1 = false by simpa using hshown)
  rw [printed] at hx
  split at hx
  · rename_i hm
    obtain rfl := mem_singleton.1 hx
    exact hc q hq (contains_iff_mem.1 hm) hi _ .self
  · rw [Awk.Expr.lookups_boundValue] at hx
    refine (h.laid.refers hq hi).there h.given (h.accumulators q hq) (fun n hn hv hi => ?_) x hx
    obtain ⟨q', hq', rfl⟩ := mem_map.1 hn
    exact hc q' hq' (hall (mem_flatMap.2 ⟨q.2, mem_map_of_mem hq, hv⟩)) hi

end Ready

/-- A projection finds what it looks up: what its filter needs is computed before it, and what is
    printed needs is computed before that. -/
theorem secures (h : Ready A X E s K) (hf : ∀ e ∈ filter, Filters A X E s e)
    (hp : Projection.of s filter order = .ok p) : Secures nr K p.block K := by
  rw [Projection.of] at hp
  split at hp
  · cases hp
  cases hp
  dsimp only
  have hsure := h.sure_early fun e he => hf e (Option.mem_toList.1 he)
  generalize hK₁ : There K (computes (wanted filter.toList []) s.bindings) = K₁
  have hold₁ : ∀ x, K x → K₁ x := fun x hx => hK₁ ▸ .inl hx
  have hearly : ∀ q ∈ s.bindings, q.1 ∈ filter.toList.flatMap Expr.varNames →
      isInternal q.1 = false → ∀ x, Goes E q.1 x → K₁ x := by
    intro q hq hm hi x hx
    rw [← hK₁]
    exact h.there hq ((wanted_iff hi).2 ⟨hm, by simp⟩) hx
  have hbefore : Secures nr K (computeLine (needed s filter.toList [])) K₁ :=
    secures_computeLine hsure fun x hx => hK₁ ▸ hx
  have hready₁ := h.mono hold₁
  have hsure := hready₁.sure_late hearly
  generalize hK₂ : There K₁ (computes (wanted (s.bindings.map Prod.snd)
    (filter.toList.flatMap Expr.varNames)) s.bindings) = K₂
  have hold₂ : ∀ x, K₁ x → K₂ x := fun x hx => hK₂ ▸ .inl hx
  have hall : ∀ q ∈ s.bindings,
      q.1 ∈ (filter.toList ++ s.bindings.map Prod.snd).flatMap Expr.varNames →
      isInternal q.1 = false → ∀ x, Goes E q.1 x → K₂ x := by
    intro q hq hm hi x hx
    rw [flatMap_append, mem_append] at hm
    by_cases hne : q.1 ∈ filter.toList.flatMap Expr.varNames
    · exact hold₂ x (hearly q hq hne hi x hx)
    · rw [← hK₂]
      exact hready₁.there hq ((wanted_iff hi).2 ⟨hm.resolve_left hne, hne⟩) hx
  have hafter : Secures nr K₁ (computeLine (needed s (s.bindings.map Prod.snd)
      (filter.toList.flatMap Expr.varNames))) K₂ :=
    secures_computeLine hsure fun x hx => hK₂ ▸ hx
  have hprint : Secures nr K₂ [.line (.print ((outputs s).map fun q =>
      printed ((filter.toList ++ s.bindings.map Prod.snd).flatMap Expr.varNames) q.1 q.2))] K := by
    refine .line (Awk.sure_of_forall fun step hstep x hx => ?_)
      fun x hx => .inl (hold₂ x (hold₁ x hx))
    obtain rfl := mem_singleton.1 hstep
    obtain ⟨v, hv, hx⟩ := mem_lookupsAll.1 hx
    obtain ⟨q, hq, rfl⟩ := mem_map.1 hv
    refine (hready₁.mono hold₂).printed_there hall ?_ hq x hx
    rw [flatMap_append]
    exact subset_append_right _ _
  have hbody := hafter.append hprint
  cases filter with
  | none => exact hbefore.append hbody
  | some test =>
    refine hbefore.append (.head ?_ (fun _ => hbody) fun _ => hold₁)
    obtain ⟨hr, hno, -⟩ := hf test rfl
    refine hr.there hready₁.given (fun a args hm ha => absurd ha (hno a args hm)) ?_
    intro n hn hv hi
    obtain ⟨q, hq, rfl⟩ := mem_map.1 hn
    exact hearly q hq (by simpa using hv) hi

end Projection

/-! ### Row programs -/

/-- Names that may be looked up without having been set, where sources bind some names. -/
def Loose (bound : List String) (x : String) : Prop :=
  (isInternal x = true ∧ x ∈ bound) ∨
    ∃ i j : Nat, x = "_split" ++ toString j ∧ "_spcnt" ++ toString i ∈ bound

/-- A state whose scope binds each name once, to a statement whose variables it binds as well. -/
structure Rooted (s : State) : Prop where
  nodup : s.scope.names.Nodup
  varsIn : ∀ q ∈ s.scope.bindings, VarsIn s.scope.bindings q.2

theorem Rooted.bound {s : State} (h : Rooted s) {b : Expr} (hn : s.scope.binding? name = none)
    (hb : VarsIn s.scope.bindings b) : Rooted (s.bound name b) := by
  have hB := (s.grows_bound name b).scope.subset
  refine ⟨?_, fun q hq => ?_⟩
  · rw [Scope.names, State.bound, map_append, nodup_append']
    refine ⟨h.nodup, nodup_singleton _, fun m hm hm' => ?_⟩
    obtain rfl := mem_singleton.1 hm'
    exact Scope.not_mem_of_binding? hn hm
  · rcases mem_append.1 hq with hq | hq
    · exact (h.varsIn q hq).mono hB
    · obtain rfl := mem_singleton.1 hq
      exact hb.mono hB

theorem spreading_rooted :
    Spreading (fun s x => ∀ n b, x = .var n b → (n, b) ∈ s.scope.bindings) Rooted where
  grows hg hx n b heq := hg.scope.subset (hx n b heq)
  routines _ h := ⟨h.nodup, h.varsIn⟩
  named _ _ h := ⟨h.nodup, h.varsIn⟩
  field _ _ _ := nofun
  other hx _ _ n b heq := absurd heq (hx n b)
  var hi hm := by
    refine Awk.Expr.everyNode_var ?_ (varsIn_iff.1 (hi.varsIn _ hm))
    rintro n b ⟨⟩
    exact hm
  bound hi hn hb := hi.bound hn (varsIn_iff.2 hb)

theorem closed_rooted : Closed Literal.Spelt Rooted fun s e => VarsIn s.scope.bindings e := by
  simp only [varsIn_iff]
  exact spreading_rooted.closed Literal.spelt_string Literal.spelt_digit

/-- An expression over a scope has with a variable those that the variable refers to. -/
theorem Rooted.varNames_subset {s : State} (h : Rooted s) {e : Expr}
    (he : VarsIn s.scope.bindings e) {q : String × Expr} (hq : q ∈ s.scope.bindings)
    (hm : q.1 ∈ e.varNames) : q.2.varNames ⊆ e.varNames := by
  obtain ⟨b, hb⟩ := mem_varNames.1 hm
  have heq := inj_on_of_nodup_map h.nodup (he q.1 b hb) hq rfl
  rw [← heq]
  exact Awk.Expr.varNames_subset hb

namespace RowProgram

variable {schema : Schema}
variable {N : String → Prop} {filters maps : List String}

theorem Binds.both {I J : State → Prop} {K L : State → Expr → Prop} (h : Binds I K N)
    (h' : Binds J L N) : Binds (fun s => I s ∧ J s) (fun s e => K s e ∧ L s e) N :=
  fun s name v hn hb hv hi => ⟨h s name v hn hb hv.1 hi.1, h' s name v hn hb hv.2 hi.2⟩

theorem binds_arranged {X : String → Prop} (hX : ∀ n, N n → isInternal n = true → X n) :
    Binds (Arranged NoAccumulator X [])
      (fun s e => Refers NoAccumulator X s.namer.entries s.scope.names e) N :=
  fun _ name _ hn _ hv hi => hi.bound (refers_assign hv) (hX name hn)

theorem binds_rooted : Binds Rooted (fun s e => VarsIn s.scope.bindings e) N := by
  intro s name v _ hb hv hi
  refine hi.bound hb (varsIn_iff.2 (Awk.Expr.everyNode_assign.2 ⟨?_, varsIn_iff.1 hv⟩))
  rintro n b ⟨⟩

theorem rooted_lowerAll {filter : Option Expr} {state : State}
    (h : (lowerAll schema filters maps).run (.start schema) = .ok (filter, state)) :
    Rooted state ∧ ∀ e ∈ filter, VarsIn state.scope.bindings e := by
  have hstart : Rooted (.start schema) := ⟨nodup_nil, nofun⟩
  obtain ⟨hrooted, -, hf⟩ := (binds_rooted (N := fun _ => True)).lowerAll closed_rooted
    (fun _ _ => trivial) hstart filter state h
  exact ⟨hrooted, hf⟩

theorem defines {c : Compiled} (hc : compile schema filters maps = .ok c) :
    c.program.Defines (Loose (boundNames schema maps)) := by
  obtain ⟨filter, state, projection, derived, hl, hp, -, rfl⟩ := compile_eq_ok hc
  generalize hbound : boundNames schema maps = bound
  have harranged : Closed Literal.Spelt (Arranged NoAccumulator (Loose bound) []) fun s e =>
      Refers NoAccumulator (Loose bound) s.namer.entries s.scope.names e :=
    closed_arranged Literal.spelt_string Literal.spelt_digit
  have hclosed := (closed_lowered (C := Const.Written)
    (Hygienic.tolerant (U := fun n => n ∈ bound) (V := Nobody)) admits_spelt).both harranged
  have hbinds := (binds_hygienic (C := Const.Written) (U := fun n => n ∈ bound) (V := Nobody)).both
    (binds_arranged (X := Loose bound) fun n hn hi => .inl ⟨hi, hn⟩)
  have hstart : Arranged NoAccumulator (Loose bound) [] (.start schema) :=
    ⟨⟨[], rfl, trivial⟩, nofun⟩
  obtain ⟨⟨hh, harranged⟩, -, hf⟩ := hbinds.lowerAll hclosed (fun n hn => hbound ▸ hn)
    ⟨hygienic_start schema, hstart⟩ filter state hl
  obtain ⟨hrooted, hv⟩ := rooted_lowerAll hl
  obtain ⟨new, hnew, hlaid⟩ := harranged.laid
  rw [nil_append] at hnew
  rw [map_nil, ← hnew] at hlaid
  have hsets : ∀ q ∈ state.scope.bindings, ∀ x, Goes state.namer.entries q.1 x →
      x ∈ writes q.2 ∨ Loose bound x := fun q hq x hx =>
    ((hh.scope q.1 q.2 hq).sets hh.namer hx).imp_right .inr
  refine Program.defines_of_secures (G := fun _ => False) (H := fun _ => False)
    (.line ⟨nofun, trivial⟩ fun x hx => hx.elim) (fun nr => ?_) (fun nr => .nil fun x hx => hx.elim)
    fun x hx => (hx.elim id id).elim
  refine (Projection.secures ⟨hlaid, hsets, fun x hx => .inl hx, fun _ _ _ _ _ h => h.elim⟩
    (fun e he => ?_) hp).imp (fun x hx => hx) fun x hx => hx.elim
  exact ⟨(hf e he).2, fun _ _ _ h => h, fun q hq hm => hrooted.varNames_subset (hv e he) hq hm⟩

end RowProgram

/-! ### Drafts of grouping programs -/

namespace GroupProgram

/-- All accumulators. -/
def AnyAccumulator (_ : Accumulator) : Prop := True

namespace Draft

variable {print : Block Line Head}

/-- A draft whose outputs are in order; what it has bound for groups and the stream is bound for
    the outputs as well, by the same names. -/
structure Orderly (X : String → Prop) (d : Draft) : Prop where
  out : Laid AnyAccumulator X d.namer.entries [] d.outScope.bindings
  names : ∀ c, (d.scopeOf c).names ⊆ d.outScope.names
  internal : ∀ c, ∀ n ∈ (d.scopeOf c).names, isInternal n = true → X n

/-- Names that an output may look up without being computed for it: loose ones, and keys. -/
def Given (bound : List String) (d : Draft) (x : String) : Prop :=
  Loose bound x ∨ ∃ k ∈ d.keys, k.name = x

variable {X X' : String → Prop} {bound : List String} {d d' : Draft} {stmt : Stmt}

theorem orderly_start (schema : Schema) : (start schema).Orderly X := by
  refine ⟨trivial, fun c => ?_, fun c => ?_⟩
  · cases c <;> exact nofun
  · cases c <;> exact nofun

/-- The order stays where nothing is bound. -/
theorem Orderly.grow (h : d.Orderly X) (hout : d'.outScope = d.outScope)
    (hscopes : ∀ c, d'.scopeOf c = d.scopeOf c) (hE : d.namer.entries ⊆ d'.namer.entries)
    (hX : ∀ x, X x → X' x) : d'.Orderly X' := by
  refine ⟨?_, fun c => ?_, fun c n hn hi => ?_⟩
  · rw [hout]
    exact h.out.mono hX hE (List.Subset.refl _)
  · rw [hout, hscopes]
    exact h.names c
  · rw [hscopes] at hn
    exact hX n (h.internal c n hn hi)

variable {A : Accumulator → Prop} {E : List (String × String × Nat)} {sc' : Scope}

/-- The variable of a key takes its place behind all others. -/
theorem laid_bindsKey {sc : Scope} (h : Laid A X E [] sc.bindings) {i : Nat} {value b : Expr}
    (hb : BindsKey sc ("__key" ++ toString i) value sc' b) :
    Laid A X E [] sc'.bindings ∧ sc.names ⊆ sc'.names := by
  cases hb with
  | old _ => exact ⟨h, List.Subset.refl _⟩
  | new hb =>
    refine ⟨?_, fun n hm => (Scope.mem_names_bind hb).2 (.inl hm)⟩
    obtain ⟨-, rfl⟩ := Scope.bind_eq_ok.1 hb
    refine h.snoc fun hi => ?_
    rw [isInternal_key] at hi
    cases hi

/-- One more statement of the key. -/
theorem Orderly.addKey (h : d.Orderly (d.Given bound))
    {outputAll : Bool} (hn : ∀ n, keyName? outputAll stmt = some n → n ∈ bound)
    (hr : addKey outputAll d stmt = .ok d') : d'.Orderly (d'.Given bound) := by
  obtain ⟨value, state, i, j, hk⟩ := addKey_eq_ok hr
  obtain ⟨hsub, hkey⟩ := hk.subset_keys
  have hX (x : String) (hx : d.Given bound x) : d'.Given bound x :=
    hx.imp_right (.imp fun k hk => hk.imp_left (hsub ·))
  have hE := hk.entries.subset
  have hprints := hk.prints
  generalize hname : keyName? outputAll stmt = name? at hprints
  cases hprints with
  | unnamed ho hg _ => exact h.grow ho (fun c => by cases c; exacts [hg, hk.stream]) hE hX
  | named hb ho hg =>
    obtain ⟨hlaid, hnames⟩ := laid_bindsKey (h.out.mono hX hE (List.Subset.refl _)) hb
    obtain ⟨pre, post, hpre, hpost⟩ := Scope.bind_splits ho
    refine ⟨?_, fun c n hm => (Scope.mem_names_bind ho).2 ?_, fun c n hm hi => ?_⟩
    · rw [hpre] at hlaid
      rw [hpost]
      exact hlaid.insert fun x hx => .given (mem_singleton.1 hx ▸ .inr hkey)
    · cases c with
      | group => exact ((Scope.mem_names_bind hg).1 hm).imp_left (hnames <| h.names .group ·)
      | stream =>
        rw [scopeOf, hk.stream] at hm
        exact .inl (hnames (h.names .stream hm))
    · cases c with
      | group =>
        rcases (Scope.mem_names_bind hg).1 hm with hm | rfl
        · exact hX n (h.internal .group n hm hi)
        · exact .inl (.inl ⟨hi, hn n hname⟩)
      | stream =>
        rw [scopeOf, hk.stream] at hm
        exact hX n (h.internal .stream n hm hi)

/-- Binding the names that a scope lacks keeps the order, if they stand in order themselves. -/
theorem laid_bindMissing {new : List (String × Expr)} {sc : Scope} (h : Laid A X E [] sc.bindings)
    (hnew : Laid A X E sc.names new) (hr : bindMissing sc new = .ok sc') :
    Laid A X E [] sc'.bindings := by
  induction new generalizing sc with
  | nil =>
    cases hr
    exact h
  | cons p new ih =>
    obtain ⟨name, b⟩ := p
    obtain ⟨hb, hnew⟩ := hnew
    rw [bindMissing] at hr
    split at hr
    · rename_i hvar
      refine ih h (hnew.mono (fun _ h => h) (List.Subset.refl _) (append_subset.2
        ⟨List.Subset.refl _, ?_⟩)) hr
      simpa using Scope.mem_names_iff.2 hvar
    · obtain ⟨sc₁, hsc₁, hr⟩ := except_bind_eq_ok.1 hr
      obtain ⟨-, rfl⟩ := Scope.bind_eq_ok.1 hsc₁
      exact ih (h.snoc hb) (by simpa [Scope.names] using hnew) hr

/-- One more statement about groups or the stream. -/
theorem Orderly.addStatement (h : d.Orderly (d.Given bound)) (hw : stmt.WellFormed Literal.Spelt)
    (hn : ∀ n, boundName? stmt = some n → n ∈ bound) {c : Category} {source : String}
    (hr : addStatement c source d stmt = .ok d') : d'.Orderly (d'.Given bound) := by
  obtain ⟨name, value, state, ha⟩ := addStatement_eq_ok hr
  have hi : Arranged AnyAccumulator (d.Given bound) (d.scopeOf c).bindings (d.stateOf c) :=
    ⟨⟨[], (append_nil _).symm, trivial⟩, h.internal c⟩
  obtain ⟨hs, hg, hv⟩ := (closed_arranged Literal.spelt_string Literal.spelt_digit).lower
    (fun x _ => closedRows_arranged (fun _ => trivial) x) _ (wellFormed_stmtExpr hw) (d.stateOf c) hi
    value state ha.lower
  obtain ⟨new, hnew, hlaid⟩ := hs.laid
  obtain ⟨out₁, hout₁, hout⟩ := ha.out
  rw [hnew, drop_left] at hout₁
  obtain ⟨hsub, hsub', -⟩ := grows_bindMissing hout₁
  have hnames : state.scope.names ⊆ out₁.names := by
    rw [Scope.names, hnew, map_append]
    exact append_subset.2 ⟨List.Subset.trans (h.names c) (map_subset _ hsub), hsub'⟩
  have hout_names {n : String} (hm : n ∈ out₁.names) : n ∈ d'.outScope.names :=
    (Scope.mem_names_bind hout).2 (.inl hm)
  have hgiven : d'.Given bound = d.Given bound := by
    unfold Given
    rw [ha.keys]
  rw [hgiven]
  refine ⟨?_, fun x n hm => ?_, fun x n hm => ?_⟩
  · have hlaid₁ := laid_bindMissing (h.out.mono (fun _ h => h) hg.namer.subset (List.Subset.refl _))
      (hlaid.mono (fun _ h => h) (List.Subset.refl _) (h.names c)) hout₁
    obtain ⟨-, hout⟩ := Scope.bind_eq_ok.1 hout
    rw [ha.namer, hout]
    exact hlaid₁.snoc fun _ => refers_assign (hv.mono (fun _ h => h) (List.Subset.refl _) hnames)
  · obtain ⟨p, hp, rfl⟩ := mem_map.1 hm
    refine ha.forall_scopeOf (Q := fun p => p.1 ∈ d'.outScope.names) (fun c p hp => ?_)
      (fun p hp => hout_names (hnames (mem_map_of_mem hp)))
      ((Scope.mem_names_bind hout).2 (.inr rfl)) x p hp
    exact hout_names (map_subset _ hsub (h.names c (mem_map_of_mem hp)))
  · obtain ⟨p, hp, rfl⟩ := mem_map.1 hm
    exact ha.forall_scopeOf (Q := fun p => isInternal p.1 = true → d.Given bound p.1)
      (fun c p hp => h.internal c p.1 (mem_map_of_mem hp))
      (fun p hp => hs.names p.1 (mem_map_of_mem hp))
      (fun hi => .inl (.inl ⟨hi, hn name ha.bound⟩)) x p hp

/-! ### The parts of a grouping program -/

variable {C : Const → Prop} {U K : String → Prop} {nr : Nat}

/-- What the head of a row computes: what goes with the variables of keys and rows. -/
def Prepared (d : Draft) (x : String) : Prop :=
  ∃ n ∈ d.keyScope.names ++ d.rowScope.names, Goes d.namer.entries n x

/-- What a program has set up before the first row: its accumulators. -/
def SetUp (d : Draft) (x : String) : Prop := ∃ f ∈ d.folds, f.accumulator.name = x

theorem helpers_steps (d : Draft) :
    (d.helpers.flatMap fun s => (Line.prepare s).steps)
      = computes (fun _ => true) d.keyScope.bindings
        ++ computes (fun n => !d.keyScope.hasVar n) d.rowScope.bindings := by
  simp [helpers, computes, Line.steps, ← map_eq_flatMap]

/-- The head of a row computes the variables of keys and rows. -/
theorem secures_helpers (hg : d.Grounded) (hh : d.Hygienic C U) :
    Secures nr K (d.helpers.map fun s => .line (.prepare s)) fun x => K x ∨ d.Prepared x := by
  have sets {sc : Scope} (h : sc.Hygienic C Nobody d.namer.entries) :
      ∀ q ∈ sc.bindings, ∀ x, Goes d.namer.entries q.1 x → x ∈ writes q.2 ∨ Nobody x :=
    fun q hq x hx => ((h q.1 q.2 hq).sets hg.namer hx).imp_right fun ⟨_, _, _, hu⟩ => hu
  have nobody {K : String → Prop} : ∀ x, Nobody x → K x := fun _ h => h.elim
  generalize hK₁ : There K (computes (fun _ => true) d.keyScope.bindings) = K₁
  have hkeys : ∀ n ∈ d.keyScope.names, ∀ x, Goes d.namer.entries n x → K₁ x := by
    intro n hn x hx
    obtain ⟨q, hq, rfl⟩ := mem_map.1 hn
    rw [← hK₁]
    exact there_computes nobody (sets hh.key) hq rfl hx
  intro path hw
  rw [hw.lines, helpers_steps]
  refine ⟨?_, fun x hx => ?_⟩
  · rw [Awk.sure_append, hK₁]
    constructor
    · exact hg.key.laid.sure (fun _ => False) nobody (fun _ _ _ _ _ h => h.elim)
        (sets hh.key) (fun q hq _ => (hg.key.origin hq).notInternal) (fun _ _ _ _ _ _ => .inl rfl)
        (fun _ _ h => h.elim) nofun
    · -- a variable of the rows that the keys have as well is there already
      refine hg.row.laid.sure (fun n => d.keyScope.hasVar n = true) nobody
        (fun _ _ _ _ _ h => h.elim) (sets hh.row) (fun q hq _ => (hg.row.origin hq).notInternal)
        (fun _ _ _ n _ _ => ?_) (fun q _ hv => hkeys q.1 (Scope.mem_names_iff.2 hv)) nofun
      cases d.keyScope.hasVar n <;> simp
  · rw [Awk.there_append, hK₁]
    have hold {x : String} (hx : K₁ x) :
        There K₁ (computes (fun n => !d.keyScope.hasVar n) d.rowScope.bindings) x := .inl hx
    rcases hx with hx | ⟨n, hn, hx⟩
    · exact hold (hK₁ ▸ .inl hx)
    rcases mem_append.1 hn with hn | hn
    · exact hold (hkeys n hn x hx)
    · cases hv : d.keyScope.hasVar n with
      | true => exact hold (hkeys n (Scope.mem_names_iff.2 hv) x hx)
      | false =>
        obtain ⟨q, hq, rfl⟩ := mem_map.1 hn
        exact there_computes nobody (sets hh.row) hq (by simp [hv]) hx

/-- Keys and arguments of aggregates look up what the head of a row has computed. -/
theorem Grounded.taken_prepared (h : d.Grounded) {e : Expr}
    (he : e ∈ d.keys.map Key.value ++ d.folds.flatMap Fold.args) :
    ∀ x ∈ e.lookups, d.Prepared x := by
  have prepared {sc : Scope} (hB : Ordered d.namer.entries sc.bindings) (hv : Value sc.bindings e)
      (hsc : sc.names ⊆ d.keyScope.names ++ d.rowScope.names) : ∀ x ∈ e.lookups, d.Prepared x :=
    (hv.refers hB).there (fun _ h => h.elim) (fun _ _ _ h => h.elim)
      fun n hn _ _ x hx => ⟨n, hsc hn, hx⟩
  rcases h.taken_value he with hv | hv
  · exact prepared h.key hv (subset_append_left _ _)
  · exact prepared h.row hv (subset_append_right _ _)

/-- Before the rows the accumulators are set up. -/
theorem secures_start : Secures nr K (d.program options print).start d.SetUp := by
  have hsep : Secures nr K [.line .separator] fun _ => False :=
    .line ⟨nofun, trivial⟩ fun x hx => hx.elim
  have init (folds : List Fold) {K : String → Prop} : Secures nr K (initLines folds) fun x =>
      K x ∨ ∃ f ∈ folds, f.accumulator.name = x :=
    (Secures.lines Line.init (by simp [Line.steps])).imp (fun x hx => hx) fun x hx =>
      hx.imp_right fun ⟨f, hf, hx⟩ => ⟨f, hf, by simp [Line.steps, hx]⟩
  refine ((hsep.append (init d.groupFolds)).append (init d.streamFolds)).imp (fun x hx => hx) ?_
  rintro x ⟨f, hf, rfl⟩
  rcases mem_append.1 hf with hf | hf
  · exact .inl (.inr ⟨f, hf, rfl⟩)
  · exact .inr ⟨f, hf, rfl⟩

/-- Finishing and printing a group changes nothing of what is there. -/
theorem secures_flush (hK : ∀ x, d.SetUp x → K x) (hprint : Secures nr K print K) :
    Secures nr K (finishLines (d.groupFolds ++ d.streamFolds) ++ print) K := by
  have hfinish : Secures nr K (finishLines (d.groupFolds ++ d.streamFolds)) K := by
    refine (Secures.lines Line.finish fun f hf s hs x hx => ?_).imp (fun x hx => hx)
      fun x hx => .inl hx
    obtain rfl := mem_singleton.1 hs
    obtain rfl := mem_singleton.1 hx
    exact hK _ ⟨f, mem_of_mem_filter hf, rfl⟩
  exact hfinish.append hprint

/-- The variables and keys of a row are computed. -/
theorem secures_rowKeys (hg : d.Grounded) (hh : d.Hygienic C U) :
    Secures nr K (d.helpers.map (fun s => .line (.prepare s)) ++ d.keys.map fun k => .line (.rowKey k))
      fun x => (K x ∨ d.Prepared x) ∨ ∃ k ∈ d.keys, k.rowName = x := by
  refine (secures_helpers hg hh).append ?_
  refine (Secures.lines Line.rowKey fun k hk s hs x hx => ?_).imp (fun x hx => hx) fun x hx =>
    hx.imp_right fun ⟨k, hk, hx⟩ => ⟨k, hk, _, mem_singleton.2 rfl, ?_⟩
  · obtain rfl := mem_singleton.1 hs
    exact .inr (hg.taken_prepared (mem_append_left _ (mem_map_of_mem hk)) x hx)
  · exact hx ▸ mem_writes_assign k.rowName k.value

/-- The keys of a row become those of the group. -/
theorem secures_takeOver (hK : ∀ k ∈ d.keys, K k.rowName) :
    Secures nr K (d.keys.map fun k => .line (.takeOver k)) fun x => K x ∨ d.IsKey x := by
  refine (Secures.lines Line.takeOver fun k hk s hs x hx => ?_).imp (fun x hx => hx) fun x hx =>
    hx.imp_right fun ⟨k, hk, hx⟩ => ⟨k, hk, _, mem_singleton.2 rfl, ?_⟩
  · obtain rfl := mem_singleton.1 hs
    obtain rfl := mem_singleton.1 hx
    exact hK k hk
  · exact hx ▸ mem_writes_assign k.name (.var k.rowName k.compute)

theorem secures_update (hg : d.Grounded) (hK : ∀ x, d.SetUp x ∨ d.Prepared x → K x)
    {folds : List Fold} (hf : folds ⊆ d.folds) : Secures nr K (updateLines folds) K := by
  refine (Secures.lines Line.update fun f hm s hs x hx => hK x ?_).imp (fun x hx => hx)
    fun x hx => .inl hx
  obtain rfl := mem_singleton.1 hs
  rcases mem_cons.1 hx with rfl | hx
  · exact .inl ⟨f, hf hm, rfl⟩
  · obtain ⟨e, he, hx⟩ := mem_lookupsAll.1 hx
    refine .inr (hg.taken_prepared (mem_append_right _ ?_) x hx)
    exact mem_flatMap.2 ⟨f, hf hm, he⟩

/-- A row computes its variables and keys, takes the keys over on the first row or prints the group
    that has ended, and updates the accumulators. -/
theorem secures_row (hg : d.Grounded) (hh : d.Hygienic C U)
    (hK : ∀ x, d.SetUp x ∨ nr ≠ 1 ∧ d.IsKey x → K x)
    (hprint : ∀ K' : String → Prop, (∀ x, K x ∨ d.IsKey x → K' x) → Secures nr K' print K') :
    Secures nr K (d.program options print).row d.IsKey := by
  generalize hK₁ : (fun x => (K x ∨ d.Prepared x) ∨ ∃ k ∈ d.keys, k.rowName = x) = K₁
  have hkeys : Secures nr K (d.helpers.map (fun s => .line (.prepare s)) ++
      d.keys.map fun k => .line (.rowKey k)) K₁ := hK₁ ▸ secures_rowKeys hg hh
  have hrow : ∀ k ∈ d.keys, K₁ k.rowName := fun k hk => hK₁ ▸ .inr ⟨k, hk, rfl⟩
  have hold : ∀ x, K x ∨ d.Prepared x → K₁ x := fun x hx => hK₁ ▸ .inl hx
  have hfirst : Secures nr K₁ [.head .firstRow (d.keys.map fun k => .line (.takeOver k))] fun x =>
      K₁ x ∨ d.IsKey x :=
    .head nofun (fun _ => secures_takeOver hrow) fun hskip x hx =>
      hx.elim id fun hx => hold x (.inl (hK x (.inr ⟨hskip, hx⟩)))
  generalize hK₂ : (fun x => K₁ x ∨ d.IsKey x) = K₂ at hfirst
  have hold₂ : ∀ x, K₁ x ∨ d.IsKey x → K₂ x := fun x hx => hK₂ ▸ hx
  have hset : ∀ x, d.SetUp x → K₂ x := fun x hx => hold₂ x (.inl (hold x (.inl (hK x (.inl hx)))))
  have hflush : Secures nr K₂ (finishLines (d.groupFolds ++ d.streamFolds) ++ print) K₂ :=
    secures_flush hset (hprint K₂ fun x hx => hold₂ x (hx.imp_left fun hx => hold x (.inl hx)))
  have hlater {change : Block Line Head} (hchange : Secures nr K₂ change K₂) :
      Secures nr K₂ [.head .laterRow [.head (.keyChanged d.keys) change]] K₂ := by
    refine .head nofun (fun _ => .head (fun x hx => ?_) (fun _ => hchange) fun _ x hx => hx)
      fun _ x hx => hx
    obtain ⟨k, hk, hx⟩ := mem_flatMap.1 hx
    rcases mem_cons.1 hx with rfl | hx
    · exact hold₂ _ (.inr ⟨k, hk, rfl⟩)
    · exact mem_singleton.1 hx ▸ hold₂ _ (.inl (hrow k hk))
  have hinit : Secures nr K₂ (initLines d.groupFolds) K₂ :=
    (Secures.lines Line.init (by simp [Line.steps])).imp (fun x hx => hx) fun x hx => .inl hx
  have htake : Secures nr K₂ (d.keys.map fun k => .line (.takeOver k)) K₂ :=
    (secures_takeOver fun k hk => hold₂ _ (.inl (hrow k hk))).imp (fun x hx => hx) fun x hx => .inl hx
  have hnothing : Secures nr K₂ [] K₂ := .nil fun x hx => hx
  have hupdate : ∀ x, d.SetUp x ∨ d.Prepared x → K₂ x := fun x hx =>
    hx.elim (hset x) fun hx => hold₂ x (.inl (hold x (.inr hx)))
  have hgroups : Secures nr K₂ (updateLines d.groupFolds) K₂ :=
    secures_update hg hupdate (subset_append_left _ _)
  have hstreams : Secures nr K₂ (updateLines d.streamFolds) K₂ :=
    secures_update hg hupdate (subset_append_right _ _)
  cases he : options.exposeGroups with
  | true =>
    have hchange := hlater ((hnothing.append htake).append hinit)
    have hall := ((((hkeys.append (hfirst.append hchange)).append hgroups).append hstreams).append
      hflush).imp (fun x hx => hx) fun x hx => hold₂ x (.inr hx)
    simpa [program, he] using hall
  | false =>
    have hchange := hlater ((hflush.append htake).append hinit)
    have hall := ((((hkeys.append (hfirst.append hchange)).append hgroups).append hstreams).append
      hnothing).imp (fun x hx => hx) fun x hx => hold₂ x (.inr hx)
    simpa [program, he] using hall

/-- At the end the last group is printed, if there were rows. -/
theorem secures_finish (hK : ∀ x, d.SetUp x → K x) (hprint : nr ≠ 0 → Secures nr K print K) :
    Secures nr K (d.program options print).finish K := by
  unfold program
  dsimp only
  split
  · exact .nil fun x hx => hx
  · exact .head nofun (fun hrun => secures_flush hK (hprint hrun)) fun _ x hx => hx

end Draft

/-! ### Compiled grouping programs -/

variable {schema : Schema} {key : Option String} {aggregates : List (Category × String)}
variable {options : Options}

theorem orderly_draft {d : Draft} (h : draft schema key aggregates options = .ok d) :
    d.Orderly (d.Given (boundNames key aggregates options)) ∧
      d.Hygienic Const.Written fun n =>
        n ∈ boundNames key aggregates options ∨ isInternal n = true := by
  refine draft_induct (Q := fun d _ => d.Orderly (d.Given (boundNames key aggregates options)) ∧
    d.Hygienic Const.Written fun n =>
      n ∈ boundNames key aggregates options ∨ isInternal n = true) h
    ⟨Draft.orderly_start schema, Draft.hygienic_start schema⟩
    (fun stmt hstmt d d' _ hq hr => ?_) fun p hp stmt hstmt d d' _ hq hr => ?_
  · have hw := wellFormed_of_mem_statements hstmt
    have hn : ∀ n, keyName? (options.outputAllKeys && key.isSome) stmt = some n →
        n ∈ boundNames key aggregates options := fun n hname =>
      mem_append_left _ (mem_filterMap.2 ⟨stmt, hstmt, hname⟩)
    exact ⟨hq.1.addKey hn hr, (hq.2.addKey admits_spelt (fun _ h => .inr h) hw
      (fun n hname => .inl (hn n hname)) hr).1⟩
  · have hw := wellFormed_of_mem_statements hstmt
    have hn : ∀ n, boundName? stmt = some n → n ∈ boundNames key aggregates options :=
      fun n hname => mem_append_right _ (mem_flatMap.2
        ⟨p, hp, mem_filterMap.2 ⟨stmt, hstmt, hname⟩⟩)
    exact ⟨hq.1.addStatement hw hn hr, hq.2.takesIn admits_spelt hw
      (fun n hname => .inl (hn n hname)) hr⟩

theorem Draft.Lawful.lasting {d : Draft} (h : d.Lawful) {x : String}
    (hx : d.SetUp x ∨ d.IsKey x) : Program.Lasting x := by
  rcases hx with ⟨f, hf, rfl⟩ | ⟨k, hk, rfl⟩
  · obtain ⟨c, -, i, hi⟩ := h.of_mem_folds hf
    exact ⟨c.stem, by cases c <;> decide, i, hi⟩
  · obtain ⟨-, i, -, hi, -⟩ := h.keys.named k hk
    exact ⟨"__key", by decide, i, hi⟩

theorem defines {c : Compiled} (hc : compile schema key aggregates options = .ok c) :
    c.program.Defines (Loose (boundNames key aggregates options)) := by
  obtain ⟨d, projection, derived, hd, hp, -, rfl⟩ := compile_eq_ok hc
  have hground := grounded_draft hd
  obtain ⟨hlawful, -⟩ := lawful_draft hd
  obtain ⟨horder, hh⟩ := orderly_draft hd
  generalize hbound : boundNames key aggregates options = bound at horder hh
  have hsets : ∀ q ∈ d.outScope.bindings, ∀ x, Goes d.namer.entries q.1 x →
      x ∈ writes q.2 ∨ d.Given bound x := by
    intro q hq x hx
    refine ((hh.out q.1 q.2 hq).sets hh.namer hx).imp_right ?_
    rintro ⟨i, j, rfl, hu | hu⟩
    · exact .inl (.inr ⟨i, j, rfl, hu⟩)
    · rw [isInternal_number (by decide)] at hu
      cases hu
  have hprint {nr : Nat} {K : String → Prop} (hK : ∀ x, Loose bound x ∨ d.SetUp x ∨ d.IsKey x →
      K x) : Secures nr K projection.block K := by
    refine Projection.secures ⟨horder.out, hsets, fun x hx => hK x (hx.imp_right .inr),
      fun q hq a args hm _ => hK _ (.inr (.inl ?_))⟩ (fun e he => by cases he) hp
    obtain ⟨f, hf, hname⟩ := hlawful.exists_fold hq (mem_aggregates.2 hm)
    refine ⟨f, mem_append.2 ?_, hname⟩
    cases hcat : a.category with
    | group =>
      rw [hcat] at hf
      exact .inl hf
    | stream =>
      rw [hcat] at hf
      exact .inr hf
  refine Program.defines_of_secures (G := d.SetUp) (H := d.IsKey) Draft.secures_start
    (fun nr => Draft.secures_row hground hh (fun x hx => .inr (hx.imp_right ?_)) fun K hK => ?_)
    (fun nr => (Draft.secures_finish (fun x hx => .inr (.inl hx)) fun hne => ?_).imp
      (fun x hx => hx) fun x hx => hx.elim) fun x hx => hlawful.lasting hx
  · exact fun ⟨hne, hx⟩ => ⟨by omega, hx⟩
  · exact hprint fun x hx => hK x (by tauto)
  · exact hprint fun x hx => hx.imp_right fun hx => hx.imp_right fun hx => ⟨hne, hx⟩

end GroupProgram

/-! ### Compiled programs -/

/-- Nothing is loose where sources bind no names of the compiler's own. -/
theorem loose_eq_false {bound : List String}
    (h : ∀ n ∈ bound, isInternal n = false ∧ isGenerated n = false) :
    Loose bound = fun _ => False := by
  funext x
  refine eq_false ?_
  rintro (⟨hi, hm⟩ | ⟨i, j, -, hm⟩)
  · rw [(h x hm).1] at hi
    cases hi
  · have hg := (h _ hm).2
    rw [isGenerated_number (by decide)] at hg
    cases hg

/-- In every run of a compiled program, whatever a filter, a computed statement or a printed value
    looks up has been set: a variable by a statement before it in the same pass, an accumulator
    before the rows, the key of a group on a row before. The only exceptions are names with two
    underscores that a source has bound, and arrays of parts where a source has bound a name of the
    form that their sizes have. -/
theorem lookups_follow_sets (schema : Schema) :
    (∀ filters maps c, RowProgram.compile schema filters maps = .ok c →
      c.program.Defines (Loose (RowProgram.boundNames schema maps))) ∧
    ∀ key aggregates options c,
      GroupProgram.compile schema key aggregates options = .ok c →
      c.program.Defines (Loose (GroupProgram.boundNames key aggregates options)) :=
  ⟨fun _ _ _ => RowProgram.defines, fun _ _ _ _ => GroupProgram.defines⟩

open RowProgram (twoColumns) in
/-- A filter that shares a variable with the outputs, a split, a key that is printed, and
    accumulators of groups and the stream. -/
theorem lookups_follow_sets_twoColumns :
    (∃ c, RowProgram.compile twoColumns ["abs(a + 1) > b"]
        ["x = abs(a + 1) * 2; _y = x - b; z = _y + x; n = unjoin(',', a, 1)"] = .ok c ∧
      (∃ passes, c.program.Run passes ∧ passes.length = 5) ∧ c.program.Defines fun _ => False) ∧
    ∃ c, GroupProgram.compile twoColumns (some "k = abs(NR - 1)")
        [(.group, "y = abs(NR - 1) + sum(max(b, abs(NR - 1))); z = y + 1"),
          (.stream, "m = median(b); w = m + m")] {} = .ok c ∧
      (∃ passes, c.program.Run passes ∧ passes.length = 5) ∧ c.program.Defines fun _ => False := by
  constructor
  · refine exists_ok_of (by decide +kernel) fun c hc => ⟨c.program.exists_run 3, ?_⟩
    have h := (lookups_follow_sets _).1 _ _ c hc
    rw [loose_eq_false] at h
    · exact h
    · decide +kernel
  · refine exists_ok_of (by decide +kernel) fun c hc => ⟨c.program.exists_run 3, ?_⟩
    have h := (lookups_follow_sets _).2 _ _ _ c hc
    rw [loose_eq_false] at h
    · exact h
    · decide +kernel

/-- The program does nothing but print one value, in which `n` is all that is looked up. -/
def onlyPrints (p : Program Line Head) (n : String) : Bool :=
  match p.start, p.row, p.finish with
  | [.line .separator], [.line (.print [value])], [] => value.lookups == [n]
  | _, _, _ => false

open RowProgram (twoColumns) in
/-- A name with two underscores is looked up, but never computed: `__x = a + 1; y = __x + 1` only
    prints `(__x + 1)`. -/
theorem bound_name_never_set :
    ∃ c passes, RowProgram.compile twoColumns [] ["__x = a + 1; y = __x + 1"] = .ok c ∧
      c.program.Run passes ∧ (∃ q ∈ passes, ∃ s ∈ q, "__x" ∈ s.lookups) ∧
      ∀ q ∈ passes, ∀ s ∈ q, "__x" ∉ s.sets := by
  obtain ⟨c, hc, hp⟩ : ∃ c, RowProgram.compile twoColumns [] ["__x = a + 1; y = __x + 1"] = .ok c ∧
      onlyPrints c.program "__x" = true := by decide +kernel
  obtain ⟨⟨routines, start, row, finish⟩, schema⟩ := c
  unfold onlyPrints at hp
  split at hp
  · rename_i value hstart hrow hfinish
    cases hstart
    cases hrow
    cases hfinish
    have hlookups : value.lookups = ["__x"] := by simpa using hp
    refine ⟨_, [Line.separator.steps ++ [], (Line.print [value]).steps ++ [], []], hc,
      ⟨_, [(Line.print [value]).steps ++ []], [], rfl, .line .nil, ?_, .nil⟩, ?_, ?_⟩
    · intro i row hi
      obtain ⟨hlt, rfl⟩ := List.getElem?_eq_some_iff.1 hi
      obtain rfl : i = 0 := by simpa using hlt
      exact .line .nil
    · refine ⟨(Line.print [value]).steps ++ [], by simp, ⟨Expr.lookupsAll [value], []⟩, ?_, ?_⟩
      · simp [Line.steps]
      · simp [Awk.Expr.lookupsAll, hlookups]
    · simp [Line.steps]
  · cases hp

end RowAwk.Compile
