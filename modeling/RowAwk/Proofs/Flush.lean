import RowAwk.Proofs.Frames
import RowAwk.Proofs.Hygiene
import RowAwk.Proofs.Sources

/-!
Printing a group leaves the row alone.

On the first row of a new group the last group is printed between computing the variables of the
row and using them. What is printed may need variables of the same names: the scopes of keys, rows
and outputs have one namer. A name that both set is a helper, with one text in all scopes, so it is
set to what it is already. What keys and aggregates compute from the row is what it would be had
nothing been printed.

    _abs0 = (NR - 1);                     the row
    …  _abs0 = (NR - 1); print(_abs0);    the group before it
    __grp_0 += _abs0                      the row again

A source that binds the name of a helper is not refused, and its value is taken for that of the row.
-/

open List

namespace RowAwk

/-! ### The lines of a block -/

namespace Awk

mutual

/-- What the lines of an item give, in the order in which they stand. -/
def Item.gather {α : Type} (f : Line → List α) : Item Line Head → List α
  | .line l => f l
  | .block items => Block.gather f items
  | .head _ items => Block.gather f items

def Block.gather {α : Type} (f : Line → List α) : Block Line Head → List α
  | [] => []
  | item :: items => item.gather f ++ Block.gather f items

end

/-- The variables that a line prepares for the row. -/
def Line.prepared : Line → List Expr
  | .prepare statement => [statement]
  | _ => []

/-- The variables that a line computes for printing. -/
def Line.computed : Line → List Expr
  | .compute statements => statements
  | _ => []

/-- The expressions that a line takes from the row: keys, and arguments of aggregates. -/
def Line.taken : Line → List Expr
  | .rowKey key => [key.value]
  | .update fold => fold.args
  | _ => []

/-- The variables that a block prepares for the row. -/
def Block.prepared (block : Block Line Head) : List Expr := block.gather Line.prepared

/-- The expressions that a block takes from the row. -/
def Block.taken (block : Block Line Head) : List Expr := block.gather Line.taken

namespace Block

mutual

theorem computed_eq_gather : ∀ block : Block Line Head,
    computed block = gather Line.computed block
  | [] => by rw [computed, gather]
  | item :: items => by
    rw [computed, gather, item_computed_eq_gather item, computed_eq_gather items]

theorem item_computed_eq_gather : ∀ item : Item Line Head,
    item.computed = item.gather Line.computed
  | .line l => by cases l <;> rfl
  | .block items | .head _ items => by rw [Item.computed, Item.gather, computed_eq_gather items]

end

variable {α : Type} {f : Line → List α}

theorem gather_append (a b : Block Line Head) : gather f (a ++ b) = gather f a ++ gather f b := by
  induction a with
  | nil => rfl
  | cons item items ih => rw [cons_append, gather, gather, ih, append_assoc]

theorem gather_lines {β : Type} (line : β → Line) (bs : List β) :
    gather f (bs.map fun b => .line (line b)) = bs.flatMap fun b => f (line b) := by
  induction bs with
  | nil => rfl
  | cons b bs ih => rw [map_cons, gather, Item.gather, ih, flatMap_cons]

end Block

end Awk

namespace Compile

open Awk (Accumulator Block Category Const Expr Fold Head Item Key Line Machine Store integers)
open Awk.Block
open GroupProgram (Never Tallied Tallies Tallying closed_tallied)
open Syntax (Literal Stmt)

/-! ### Arguments are values of the row -/

/-- The arguments of an accumulator are values over the bindings of a scope. -/
def Over (sc : Scope) (_ : Accumulator) (args : List Expr) : Prop :=
  ∀ x ∈ args, Value sc.bindings x

theorem Over.mono {sc sc' : Scope} (hs : sc.bindings ⊆ sc'.bindings) {a : Accumulator}
    {args : List Expr} (h : Over sc a args) : Over sc' a args :=
  fun x hx => (h x hx).mono hs

theorem tallies_over_mono {sc rows rows' : Scope} (hs : rows.bindings ⊆ rows'.bindings)
    (h : Tallies (Over rows) sc) : Tallies (Over rows') sc :=
  fun b hb => (h b hb).imp fun _ _ => Over.mono hs

/-- The rows of a state are bound in order, and the accumulators in its scope take values of rows. -/
structure Grounded (s : State) : Prop where
  rows : Scoped s.flip
  scope : Tallies (Over s.rows) s.scope

section

variable {P : Literal → Prop} {I : State → Prop}

/-- An invariant that naming for the library and binding keep is kept by all that lowering does. -/
theorem closed_kept (hstring : ∀ v, P (.string v)) (hdigit : ∀ d ∈ ["0", "1", "2"], P (.number d))
    (hroutines : ∀ {s routines}, I s → I { s with routines })
    (hnamed : ∀ s stem key, stem ∈ libraryStems → I s → I (s.named stem key))
    (hbound : ∀ s name b, I s → I (s.bound name b)) : Closed P I fun _ _ => True := by
  have hosts : Hosts I fun _ _ => True :=
    ⟨fun _ _ => trivial, fun key => hnamed _ _ key, fun hi _ _ => hbound _ _ _ hi⟩
  constructor <;> try exact fun _ => trivial
  case routines => exact fun _ => hroutines
  case string => exact hstring
  case digit => exact hdigit
  case helper => exact fun hs hs' hv => (hosts.hold ⟨hs, hs'⟩ hv).imp fun _ _ _ _ _ => trivial
  case split =>
    exact fun hd hv => (hosts.part hd hv).imp fun _ _ _ _ _ => ⟨trivial, fun _ _ => trivial⟩
  case shell => exact fun hc => (hosts.fetch hc).imp fun _ _ _ _ _ => trivial
  all_goals intros; trivial

theorem tallying_grounded : Tallying (fun s => Over s.rows) Grounded where
  grows hg h := h.mono hg.rows.subset
  routines _ h := ⟨⟨h.rows.namer, h.rows.bindings⟩, h.scope⟩
  named stem key h := ⟨h.rows.named stem key, h.scope⟩
  tallies h := h.scope
  bound h hb := ⟨⟨h.rows.namer, h.rows.bindings⟩,
    forall_mem_append.2 ⟨h.scope, forall_mem_singleton.2 hb⟩⟩

theorem closed_grounded : Closed Literal.Spelt Grounded fun s e => Tallied (Over s.rows) e :=
  tallying_grounded.closed Literal.spelt_string Literal.spelt_digit

/-- What aggregates take are values of the row, as it is when they are lowered and ever after. -/
theorem closedRows_grounded (c : Category) :
    ClosedRows Literal.Spelt Grounded (fun s => Scoped s ∧ Tallies (Over s.scope) s.rows)
      (fun s e => Tallied (Over s.rows) e) (fun s e => Value s.scope.bindings e ∧ True) c where
  rows := by
    refine (closed_value Literal.spelt_string Literal.spelt_digit).both
      (closed_kept Literal.spelt_string Literal.spelt_digit (fun h => h) (fun _ _ _ _ h => h) ?_)
    exact fun s name b h => tallies_over_mono (s.grows_bound name b).scope.subset h
  flip _ := ⟨fun h => ⟨h.rows, h.scope⟩, fun h => ⟨h.1, h.2⟩⟩
  accumulate _ ha := by
    refine (lands_nameFor (tallying_grounded.named _ _)).bind fun name s₁ hg _ _ =>
      lands_pure fun _ => Expr.everyNode_aggregate.2 ?_
    rintro b bs ⟨⟩
    exact fun x hx => (ha x hx).1.mono hg.rows.subset

end

/-! ### Drafts -/

namespace GroupProgram.Draft

/-- A draft whose keys and arguments of aggregates are values over the bindings of keys and rows,
    which are in order. -/
structure Grounded (d : Draft) : Prop where
  namer : d.namer.Sound
  key : Ordered d.namer.entries d.keyScope.bindings
  row : Ordered d.namer.entries d.rowScope.bindings
  keyed : Tallies Never d.keyScope
  keys : ∀ k ∈ d.keys, Value d.keyScope.bindings k.value
  scopes : ∀ c, Tallies (Over d.rowScope) (d.scopeOf c)
  out : Tallies (Over d.rowScope) d.outScope

variable {d d' : Draft} {stmt : Stmt}

theorem grounded_start (schema : Schema) : (start schema).Grounded := by
  refine ⟨Namer.sound_empty, .nil, .nil, nofun, nofun, fun c => ?_, nofun⟩
  cases c <;> exact nofun

theorem Grounded.addKey (h : d.Grounded) (hw : stmt.WellFormed Literal.Spelt) {outputAll : Bool}
    (hr : addKey outputAll d stmt = .ok d') : d'.Grounded := by
  obtain ⟨value, state, i, j, hk⟩ := addKey_eq_ok hr
  have he := wellFormed_stmtExpr hw
  obtain ⟨hs, hg, hv⟩ := (closed_value Literal.spelt_string Literal.spelt_digit).lowerRow he
    d.keyState ⟨h.namer, h.key⟩ value state hk.lower
  obtain ⟨hkept, -, hnever⟩ := (closed_tallied Never fun _ _ => True).lowerRow he d.keyState
    ⟨h.namer, h.keyed, fun _ _ _ _ _ _ _ => trivial⟩ value state hk.lower
  have hnever : Tallied (Over d'.rowScope) value := hnever.imp fun _ _ h => h.elim
  obtain ⟨hscopes, hout⟩ := hk.spread (Q := fun p => Tallied (Over d'.rowScope) p.2)
    (hk.row ▸ h.scopes) (hk.row ▸ h.out) (hnever.assign _)
    fun name _ _ hb _ => (Tallied.var hb _).assign name
  refine ⟨hk.sound hs.namer, ?_, ?_, hk.key ▸ hkept.scope, fun k hm => ?_, hscopes, hout⟩
  · rw [hk.key]
    exact hs.bindings.mono hk.starts.subset
  · rw [hk.row]
    exact h.row.mono hk.entries.subset
  · rw [hk.key]
    rcases hk.mem_keys hm with hm | rfl
    · exact (h.keys k hm).mono hg.scope.subset
    · show Value _ (grouped value)
      rw [grouped]
      split
      · exact .op (by decide) (by simpa using ⟨hv, .const⟩)
      · exact hv

theorem Grounded.addStatement (h : d.Grounded) (hw : stmt.WellFormed Literal.Spelt) {c : Category}
    {source : String} (hr : addStatement c source d stmt = .ok d') : d'.Grounded := by
  obtain ⟨name, value, state, ha⟩ := addStatement_eq_ok hr
  obtain ⟨hs, hg, hv⟩ := closed_grounded.lower (fun x _ => closedRows_grounded x) _
    (wellFormed_stmtExpr hw) (d.stateOf c) ⟨⟨h.namer, h.row⟩, h.scopes c⟩ value state ha.lower
  have hrows : d.rowScope.bindings ⊆ state.rows.bindings := hg.rows.subset
  obtain ⟨hscopes, hout⟩ := ha.spread (Q := fun p => Tallied (Over state.rows) p.2)
    (fun c => tallies_over_mono hrows (h.scopes c)) (tallies_over_mono hrows h.out) hs.scope
    (hv.assign name)
  rw [← ha.row] at hscopes hout
  refine ⟨ha.namer ▸ hs.rows.namer, ?_, ?_, ha.key ▸ h.keyed, ?_, hscopes, hout⟩
  · rw [ha.namer, ha.key]
    exact h.key.mono hg.namer.subset
  · rw [ha.namer, ha.row]
    exact hs.rows.bindings
  · rw [ha.keys, ha.key]
    exact h.keys

end GroupProgram.Draft

theorem GroupProgram.grounded_draft {schema : Schema} {key : Option String}
    {aggregates : List (Category × String)} {options : Options} {d : Draft}
    (h : draft schema key aggregates options = .ok d) : d.Grounded :=
  draft_induct (Q := fun d _ => d.Grounded) h (Draft.grounded_start schema)
    (fun _ hstmt _ _ _ hd hr => hd.addKey (wellFormed_of_mem_statements hstmt) hr)
    fun _ _ _ hstmt _ _ _ hd hr => hd.addStatement (wellFormed_of_mem_statements hstmt) hr

/-! ### The head of a row -/

section

variable {n : Namer} {B : List (String × Expr)} {bs : List Expr}

/-- Bindings in order are in stages, also behind statements that have set some of them before. -/
theorem Ordered.staged (hn : n.Sound) (hbs : Staged bs) (kept : String → Bool)
    (hB : Ordered n.entries B)
    (hnew : ∀ m b, (m, b) ∈ B → kept m = true → ∀ x ∈ writes b, ¬Known bs x)
    (hold : ∀ m b, (m, b) ∈ B → kept m = false → ∀ x ∈ writes b, Known bs x) :
    Staged (bs ++ (B.filter fun p => kept p.1).map Prod.snd) ∧
      ∀ p ∈ B, ∀ x ∈ writes p.2,
        Known (bs ++ (B.filter fun p => kept p.1).map Prod.snd) x := by
  induction hB with
  | nil => exact ⟨by simpa using hbs, nofun⟩
  | @snoc B name b hB hname ho ih =>
    have before {p : String × Expr} (hp : p ∈ B) : p ∈ B ++ [(name, b)] :=
      mem_append_left _ hp
    have last : (name, b) ∈ B ++ [(name, b)] := mem_append_right _ mem_cons_self
    obtain ⟨hs, hk⟩ := ih (fun m c hm => hnew m c (before hm)) fun m c hm => hold m c (before hm)
    have hinputs : ∀ x ∈ inputs b, Known (bs ++ (B.filter fun p => kept p.1).map Prod.snd) x := by
      intro x hx
      rcases ho.inputs_known hB x hx with hw | ⟨c, hc, hx⟩
      · exact .inl hw
      · obtain ⟨p, hp, rfl⟩ := mem_map.1 hc
        exact hk p hp x hx
    cases hkept : kept name with
    | false =>
      have same : ((B ++ [(name, b)]).filter fun p => kept p.1) = B.filter fun p => kept p.1 := by
        simp [filter_append, hkept]
      rw [same]
      refine ⟨hs, fun p hp x hx => ?_⟩
      rcases mem_append.1 hp with hp | hp
      · exact hk p hp x hx
      · obtain rfl := mem_singleton.1 hp
        exact (hold name b last hkept x hx).mono (subset_append_left _ _)
    | true =>
      have next : bs ++ ((B ++ [(name, b)]).filter fun p => kept p.1).map Prod.snd
          = bs ++ (B.filter fun p => kept p.1).map Prod.snd ++ [b] := by
        simp [filter_append, hkept]
      rw [next]
      refine ⟨hs.snoc hinputs fun x hx hknown => ?_, fun p hp x hx => ?_⟩
      · -- neither what stands before nor another binding sets this name
        rcases hknown with hw | ⟨c, hc, hxc⟩
        · exact ho.writes_not_awk hx hw
        rcases mem_append.1 hc with hc | hc
        · exact hnew name b last hkept x hx (.of_mem hc hxc)
        · obtain ⟨⟨m, _⟩, hp, rfl⟩ := mem_map.1 hc
          have hm := mem_of_mem_filter hp
          refine ho.disjoint hn (hB.origin hm) ?_ hx hxc
          rintro rfl
          exact hname (mem_map.2 ⟨_, hm, rfl⟩)
      · rcases mem_append.1 hp with hp | hp
        · exact (hk p hp x hx).mono (subset_append_left _ _)
        · obtain rfl := mem_singleton.1 hp
          exact .of_mem (mem_append_right _ mem_cons_self) hx

theorem Helper.writes_isGenerated {K : Expr → Prop} (hK : ∀ e, K e → e.splitting? = none)
    {name x : String} {b : Expr} (h : Helper K n.entries name b) (hx : x ∈ Compile.writes b) :
    Compile.isGenerated x = true := by
  rcases h.writes hK hx with rfl | ⟨-, -, j, -, rfl, -⟩
  · exact h.isGenerated
  · exact isGenerated_number (by decide) j

end

/-- A scope in which no source binds names has helpers only. -/
theorem Scope.Hygienic.helper {C : Const → Prop} {E : List (String × String × Nat)} {sc : Scope}
    (h : sc.Hygienic C Nobody E) {name : String} {b : Expr} (hm : (name, b) ∈ sc.bindings) :
    Helper (Expr.Lowered C) E name b := by
  cases h name b hm with
  | source hn _ => exact hn.elim
  | helper hb => exact hb

namespace GroupProgram

namespace Draft

variable {C : Const → Prop} {U : String → Prop} {d : Draft} {b c : Expr} {name x : String}

/-- The statements at the head of a row are helpers. -/
theorem Hygienic.helper (h : d.Hygienic C U) (hb : b ∈ d.helpers) :
    ∃ name, Helper (Expr.Lowered C) d.namer.entries name b := by
  obtain ⟨⟨name, b⟩, hm, rfl⟩ := mem_map.1 hb
  rcases mem_append.1 hm with hm | hm
  · exact ⟨name, h.key.helper hm⟩
  · exact ⟨name, h.row.helper (mem_of_mem_filter hm)⟩

theorem Hygienic.isGenerated (h : d.Hygienic C U) (hb : b ∈ d.helpers) (hx : x ∈ writes b) :
    isGenerated x = true := by
  obtain ⟨name, hb⟩ := h.helper hb
  exact hb.writes_isGenerated (fun _ h => h.splitting?) hx

/-- What the head of a row and a statement for the outputs both set is a helper in both. -/
theorem Hygienic.alike (h : d.Hygienic C U) (hC : ∀ c, C c → c.Written)
    (hU : ∀ n, U n → Compile.isGenerated n = false) (hb : b ∈ d.helpers)
    (hc : (name, c) ∈ d.outScope.bindings) (hx : x ∈ writes b) (hy : x ∈ writes c) :
    Alike (Expr.Lowered C) c b := by
  cases h.out name c hc with
  | source hu hv =>
    rw [writes, hv.splitting?, mem_singleton] at hy
    have hg := h.isGenerated hb hx
    rw [hy, hU name hu] at hg
    cases hg
  | helper hc =>
    obtain ⟨m, hb⟩ := h.helper hb
    exact hc.alike hC h.namer hb hy hx

theorem Hygienic.writes_not_awk (h : d.Hygienic C U) (hU : ∀ n, U n → n ∉ awkVariables)
    (hc : (name, c) ∈ d.outScope.bindings) (hx : x ∈ writes c) : x ∉ awkVariables := by
  cases h.out name c hc with
  | source hu hv =>
    rw [writes, hv.splitting?, mem_singleton] at hx
    rw [hx]
    exact hU name hu
  | helper hc =>
    have hg := hc.writes_isGenerated (fun _ h => h.splitting?) hx
    have key : ∀ w ∈ awkVariables, Compile.isGenerated w = false := by decide
    intro hw
    rw [key x hw] at hg
    cases hg

/-- The head of a row is in stages, and sets all variables of keys and rows. -/
theorem Grounded.staged (h : d.Grounded) (hC : ∀ c, C c → c.Written) (hh : d.Hygienic C U) :
    Staged d.helpers ∧ (∀ p ∈ d.keyScope.bindings, ∀ x ∈ writes p.2, Known d.helpers x) ∧
      ∀ p ∈ d.rowScope.bindings, ∀ x ∈ writes p.2, Known d.helpers x := by
  obtain ⟨hkey, hkeys⟩ := h.key.staged h.namer .nil (fun _ => true)
    (fun m b hm _ x hx hk => by
      rcases hk with hw | ⟨c, hc, -⟩
      · exact (h.key.origin hm).writes_not_awk hx hw
      · cases hc)
    (fun m b hm hf => by cases hf)
  simp only [nil_append, filter_true] at hkey hkeys
  obtain ⟨hrow, hrows⟩ := h.row.staged h.namer hkey (fun m => !d.keyScope.hasVar m)
    (fun m b hm hkept x hx hk => by
      -- the name is not bound among the keys
      rw [Bool.not_eq_true', Scope.hasVar, Option.isSome_eq_false_iff,
        Option.isNone_iff_eq_none] at hkept
      rcases hk with hw | ⟨c, hc, hxc⟩
      · exact (h.row.origin hm).writes_not_awk hx hw
      · obtain ⟨⟨m', c⟩, hmc, rfl⟩ := mem_map.1 hc
        refine (h.row.origin hm).disjoint h.namer (h.key.origin hmc) ?_ hx hxc
        rintro rfl
        exact Scope.not_mem_of_binding? hkept (mem_map.2 ⟨_, hmc, rfl⟩))
    (fun m b hm hkept x hx => by
      -- the name is bound among the keys to a statement of the same text
      rw [Bool.not_eq_false', Scope.hasVar] at hkept
      obtain ⟨c, hc⟩ := Option.isSome_iff_exists.1 hkept
      have hmc := Scope.mem_of_binding? hc
      have halike := (hh.row.helper hm).alike hC h.namer (hh.key.helper hmc)
        (h.row.origin hm).mem_writes (h.key.origin hmc).mem_writes
      exact hkeys _ hmc x (halike.writes_eq ▸ hx))
  have heq : d.keyScope.bindings.map Prod.snd ++
      (d.rowScope.bindings.filter fun p => !d.keyScope.hasVar p.1).map Prod.snd = d.helpers := by
    rw [helpers, map_append]
  rw [heq] at hrow hrows
  refine ⟨hrow, fun p hp x hx => (hkeys p hp x hx).mono ?_, hrows⟩
  rw [← heq]
  exact subset_append_left _ _

/-- Keys are values of their own scope, and arguments of aggregates values of the rows. -/
theorem Grounded.taken_value (h : d.Grounded) {e : Expr}
    (he : e ∈ d.keys.map Key.value ++ d.folds.flatMap Fold.args) :
    Value d.keyScope.bindings e ∨ Value d.rowScope.bindings e := by
  rcases mem_append.1 he with he | he
  · obtain ⟨k, hk, rfl⟩ := mem_map.1 he
    exact .inl (h.keys k hk)
  · obtain ⟨f, hf, he⟩ := mem_flatMap.1 he
    obtain ⟨c, hf⟩ := mem_folds.1 hf
    obtain ⟨-, b, hb, ha⟩ := mem_foldsOf hf
    exact .inr (tallied_iff.1 (h.scopes c b hb) _ _ ha e he)

/-- Keys and arguments of aggregates look up what the head of a row sets. -/
theorem Grounded.taken_known (h : d.Grounded) (hC : ∀ c, C c → c.Written) (hh : d.Hygienic C U)
    {e : Expr} (he : e ∈ d.keys.map Key.value ++ d.folds.flatMap Fold.args) :
    ∀ x ∈ e.reads, Known d.helpers x := by
  obtain ⟨-, hkeys, hrows⟩ := h.staged hC hh
  have known {B : List (String × Expr)} (hB : Ordered d.namer.entries B) (hv : Value B e)
      (hset : ∀ p ∈ B, ∀ x ∈ writes p.2, Known d.helpers x) : ∀ x ∈ e.reads, Known d.helpers x := by
    intro x hx
    rcases hv.reads_known hB x hx with hw | ⟨b, hb, hx⟩
    · exact .inl hw
    · obtain ⟨p, hp, rfl⟩ := mem_map.1 hb
      exact hset p hp x hx
  rcases h.taken_value he with hv | hv
  · exact known h.key hv hkeys
  · exact known h.row hv hrows

/-! ### The lines of a program -/

section

variable {options : Options} {print : Block Line Head}

theorem flatMap_nothing {α β : Type} (l : List α) : l.flatMap (fun _ => ([] : List β)) = [] :=
  flatMap_eq_nil_iff.2 fun _ _ => rfl

theorem prepared_program (h : print.prepared = []) :
    (d.program options print).row.prepared = d.helpers := by
  rw [prepared] at h ⊢
  cases he : options.exposeGroups <;>
    simp [program, he, h, gather_append, gather_lines, gather, Item.gather,
      initLines, updateLines, finishLines, Line.prepared, flatMap_nothing]

theorem computed_program : (d.program options print).row.computed = print.computed := by
  rw [computed_eq_gather, computed_eq_gather]
  cases he : options.exposeGroups <;>
    simp [program, he, gather_append, gather_lines, gather, Item.gather,
      initLines, updateLines, finishLines, Line.computed, flatMap_nothing]

theorem taken_program (h : print.taken = []) :
    (d.program options print).row.taken
      = d.keys.map Key.value ++ d.folds.flatMap Fold.args := by
  rw [taken] at h ⊢
  cases he : options.exposeGroups <;>
    simp [program, he, h, gather_append, gather_lines, gather, Item.gather, initLines, updateLines,
      finishLines, Line.taken, flatMap_nothing, folds, ← map_eq_flatMap]

end

end Draft

/-! ### Compiled programs -/

/-- What is computed for printing is bound for the outputs, and nothing else happens there. -/
theorem block_cases {s : Scope} {order : List Schema.Order} {p : Projection}
    (h : Projection.of s none order = .ok p) :
    (∀ b ∈ p.block.computed, ∃ name, (name, b) ∈ s.bindings) ∧ p.block.prepared = [] ∧
      p.block.taken = [] := by
  rw [Projection.of] at h
  split at h
  · cases h
  cases h
  have line (f : Line → List Expr) (hf : ∀ bs, f (.compute bs) = []) (bs : List Expr) :
      gather f (Projection.computeLine bs) = [] := by
    cases bs with
    | nil => rfl
    | cons b bs => simp [Projection.computeLine, gather, Item.gather, hf]
  refine ⟨fun b hb => ?_, ?_, ?_⟩
  · simp only [Option.toList_none, Projection.computed_computeLine, computed, Awk.Item.computed,
      append_nil, Projection.needed_eq] at hb
    rcases mem_append.1 hb with hb | hb
    · obtain ⟨⟨name, b⟩, hm, rfl⟩ := mem_map.1 hb
      exact ⟨name, mem_of_mem_filter hm⟩
    · obtain ⟨⟨name, b⟩, hm, rfl⟩ := mem_map.1 hb
      exact ⟨name, mem_of_mem_filter hm⟩
  · simp [prepared, gather_append, line Line.prepared fun _ => rfl, gather,
      Item.gather, Line.prepared]
  · simp [taken, gather_append, line Line.taken fun _ => rfl, gather, Item.gather, Line.taken]

/-- The literals of the sources of a program. -/
def literals (key : Option String) (aggregates : List (Category × String)) : List Literal :=
  (key.getD "1" :: aggregates.map Prod.snd).flatMap fun source =>
    (statements source).flatMap fun stmt => (stmtExpr stmt).literals

theorem wellFormed_finite {stmt : Stmt} (hw : stmt.WellFormed Literal.Spelt)
    (hf : ∀ v ∈ (stmtExpr stmt).literals, finiteLiteral v = true) : stmt.WellFormed Finite := by
  cases stmt with
  | assign target e => exact ⟨hw.1, Syntax.Expr.WellFormed.and hw.2 hf⟩
  | value e => exact Syntax.Expr.WellFormed.and (e := e) hw hf

/-- The text of the last statement that sets a name. -/
def definition? (bs : List Expr) (name : String) : Option String :=
  ((bs.filter fun b => (writes b).contains name).getLast?).map Expr.text

/-- Names that sources may bind without touching helpers and the variables that awk sets. -/
def Harmless (name : String) : Prop := isGenerated name = false ∧ name ∉ awkVariables

instance (name : String) : Decidable (Harmless name) := inferInstanceAs (Decidable (_ ∧ _))

theorem harmless_internal {name : String} (h : Syntax.isInternal name = true) : Harmless name := by
  refine ⟨free_internal h, fun hm => ?_⟩
  have key : ∀ w ∈ awkVariables, Syntax.isInternal w = false := by decide
  rw [key name hm] at h
  cases h

theorem definition?_append {bs cs : List Expr} {x : String} (hx : ∃ b ∈ bs, x ∈ writes b)
    (h : ∀ b ∈ bs, ∀ c ∈ cs, x ∈ writes b → x ∈ writes c → b.text = c.text) :
    definition? (bs ++ cs) x = definition? bs x := by
  rw [definition?, definition?, filter_append, List.getLast?_append]
  cases hc : (cs.filter fun b => (writes b).contains x).getLast? with
  | none => rfl
  | some c =>
    obtain ⟨b, hb, hxb⟩ := hx
    have hm : b ∈ bs.filter fun b => (writes b).contains x :=
      mem_filter.2 ⟨hb, contains_iff_mem.2 hxb⟩
    cases hl : (bs.filter fun b => (writes b).contains x).getLast? with
    | none =>
      rw [List.getLast?_eq_none_iff.1 hl] at hm
      cases hm
    | some l =>
      obtain ⟨hlm, hxl⟩ := mem_filter.1 (mem_of_getLast? hl)
      obtain ⟨hcm, hxc⟩ := mem_filter.1 (mem_of_getLast? hc)
      simp only [Option.some_or, Option.map_some, Option.some.injEq]
      exact (h l hlm c hcm (contains_iff_mem.1 hxl) (contains_iff_mem.1 hxc)).symm

/-- Computing variables for the outputs leaves alone what the head of a row has set. -/
theorem Draft.Hygienic.foldl_outputs {d : Draft} (hh : d.Hygienic Const.Finite Harmless)
    (hd : d.Grounded) {V : Type} {M : Machine V} (hM : M.NumbersTruth) {columns : Nat → V}
    {σ τ : Store V} {cs : List Expr} (hcs : ∀ b ∈ cs, ∃ name, (name, b) ∈ d.outScope.bindings)
    (hτ : ∀ x, Known d.helpers x → τ x = d.helpers.foldl (M.execute columns) σ x) :
    ∀ x, Known d.helpers x →
      cs.foldl (M.execute columns) τ x = d.helpers.foldl (M.execute columns) σ x := by
  have hwritten : ∀ c : Const, c.Finite → c.Written := fun _ h => h.1
  refine foldl_execute_eq (hd.staged hwritten hh).1 hτ fun b' hb' => ?_
  obtain ⟨name, hm⟩ := hcs b' hb'
  by_cases hshared : ∃ b ∈ d.helpers, ∃ x ∈ writes b, x ∈ writes b'
  · obtain ⟨b, hb, x, hx, hy⟩ := hshared
    exact .inr ⟨b, hb, fun τ => (hh.alike hwritten (fun _ h => h.1) hb hm hx hy).execute_eq hM⟩
  · refine .inl fun x hx hk => ?_
    rcases hk with hw | ⟨b, hb, hxb⟩
    · exact hh.writes_not_awk (fun _ h => h.2) hm hx hw
    · exact hshared ⟨b, hb, x, hxb, hx⟩

/-- What sources with finite literals and harmless names come to. -/
theorem hygienic_finite {schema : Schema} {key : Option String}
    {aggregates : List (Category × String)} {options : Options} {d : Draft}
    (h : draft schema key aggregates options = .ok d)
    (hn : ∀ n ∈ boundNames key aggregates options, Harmless n)
    (hf : ∀ v ∈ literals key aggregates, finiteLiteral v = true) :
    d.Hygienic Const.Finite Harmless :=
  (hygienic_calls admits_finite (fun _ h => h.1) (fun _ => harmless_internal) h
    (fun source hs stmt hstmt => wellFormed_finite (wellFormed_of_mem_statements hstmt) fun v hv =>
      hf v (List.mem_flatMap.2 ⟨source, hs, List.mem_flatMap.2 ⟨stmt, hstmt, hv⟩⟩)) hn).1

/-- Printing a group leaves the row alone. Where no source binds a name of the form that helpers
    have, a name that is set both at the head of a row and for printing is set by statements of one
    text. So each name that the row has prepared is still defined as before; and if no source binds
    a variable of awk and all numbers are finite, keys and arguments of aggregates have the values
    that they had before, whatever has happened to names of the machinery in between. -/
theorem printing_keeps_row {schema : Schema} {key : Option String}
    {aggregates : List (Category × String)} {options : Options} {c : Compiled}
    (hc : compile schema key aggregates options = .ok c)
    (hn : ∀ n ∈ boundNames key aggregates options, isGenerated n = false) :
    (∀ b ∈ c.program.row.prepared, ∀ b' ∈ c.program.row.computed, ∀ x ∈ writes b, x ∈ writes b' →
      b.text = b'.text) ∧
    (∀ x, (∃ b ∈ c.program.row.prepared, x ∈ writes b) →
      definition? (c.program.row.prepared ++ c.program.row.computed) x
        = definition? c.program.row.prepared x) ∧
    ((∀ n ∈ boundNames key aggregates options, n ∉ awkVariables) →
      (∀ v ∈ literals key aggregates, finiteLiteral v = true) →
      ∀ (V : Type) (M : Machine V), M.NumbersTruth → ∀ (columns : Nat → V) (σ τ : Store V),
        (∀ x, isGenerated x = true ∨ x ∈ awkVariables →
          τ x = c.program.row.prepared.foldl (M.execute columns) σ x) →
        ∀ e ∈ c.program.row.taken,
          M.eval columns (c.program.row.computed.foldl (M.execute columns) τ) e
            = M.eval columns (c.program.row.prepared.foldl (M.execute columns) σ) e) := by
  obtain ⟨d, projection, derived, hd, hp, -, rfl⟩ := compile_eq_ok hc
  obtain ⟨hout, hprepared, htaken⟩ := block_cases hp
  dsimp only
  rw [Draft.prepared_program hprepared, Draft.computed_program, Draft.taken_program htaken]
  have htexts : ∀ b ∈ d.helpers, ∀ b' ∈ projection.block.computed, ∀ x ∈ writes b,
      x ∈ writes b' → b.text = b'.text := by
    obtain ⟨hh, -⟩ := hygienic_calls admits_spelt (fun _ h => h) (fun _ => free_internal) hd
      (fun _ _ _ => wellFormed_of_mem_statements) hn
    intro b hb b' hb' x hx hy
    obtain ⟨name, hm⟩ := hout b' hb'
    exact (hh.alike (fun _ h => h) (fun _ h => h) hb hm hx hy).text_eq.symm
  refine ⟨htexts, fun x hx => definition?_append hx fun b hb b' hb' => htexts b hb b' hb' x, ?_⟩
  intro hawk hfinite V M hM columns σ τ hτ e he
  have hground := grounded_draft hd
  have hh := hygienic_finite hd (fun n hm => ⟨hn n hm, hawk n hm⟩) hfinite
  refine Machine.eval_congr fun x hx => hh.foldl_outputs hground hM hout (fun x hx => hτ x ?_) x
    (hground.taken_known (fun _ h => h.1) hh he x hx)
  rcases hx with hw | ⟨b, hb, hx⟩
  · exact .inr hw
  · exact .inl (hh.isGenerated hb hx)

open RowProgram (twoColumns) in
/-- A key, the arguments of an aggregate and what is printed share a helper. -/
theorem printing_keeps_row_twoColumns :
    ∃ c, compile twoColumns (some "k = abs(NR - 1)")
        [(.group, "y = abs(NR - 1) + sum(max(b, abs(NR - 1))); z = y + 1")] {} = .ok c ∧
      c.program.row.prepared.map Expr.text
        = ["_abs0 = (NR - 1)", "_max0 = ((_abs0 < 0)?-(_abs0):_abs0)"] ∧
      c.program.row.computed.map Expr.text
        = ["_abs0 = (NR - 1)", "y = (((_abs0 < 0)?-(_abs0):_abs0) + __grp_0)"] ∧
      (∀ b ∈ c.program.row.prepared, ∀ b' ∈ c.program.row.computed, ∀ x ∈ writes b,
        x ∈ writes b' → b.text = b'.text) ∧
      (∀ x, (∃ b ∈ c.program.row.prepared, x ∈ writes b) →
        definition? (c.program.row.prepared ++ c.program.row.computed) x
          = definition? c.program.row.prepared x) ∧
      ∀ (columns : Nat → Int) (σ : Store Int), ∀ e ∈ c.program.row.taken,
        integers.eval columns (c.program.row.computed.foldl (integers.execute columns)
            (c.program.row.prepared.foldl (integers.execute columns) σ)) e
          = integers.eval columns (c.program.row.prepared.foldl (integers.execute columns) σ) e := by
  refine exists_ok_of (by decide +kernel) fun c hc => ?_
  obtain ⟨htext, hdefinition, hvalue⟩ := printing_keeps_row hc (by decide +kernel)
  refine ⟨of_ok hc (by decide +kernel), of_ok hc (by decide +kernel), htext, hdefinition,
    fun columns σ => ?_⟩
  exact hvalue (by decide +kernel) (by decide +kernel) Int integers (fun b => by cases b <;> rfl)
    columns σ _ fun x _ => rfl

open RowProgram (twoColumns) in
/-- A name that a source binds is taken for a variable of the row: `_abs0` is the key of the row, and
    a sum once the group is printed. -/
theorem printing_sets_bound_name :
    ∃ c, compile twoColumns (some "abs(a - 1)") [(.group, "_abs0 = sum(b); y = _abs0 + 1")] {}
        = .ok c ∧
      c.program.row.prepared.map (fun b => (writes b, b.text)) = [(["_abs0"], "_abs0 = ($1 - 1)")] ∧
      c.program.row.computed.map (fun b => (writes b, b.text)) = [(["_abs0"], "_abs0 = __grp_0")] := by
  decide +kernel

end GroupProgram

end Compile

end RowAwk
