import Mathlib.Logic.Relation
import RowAwk.Proofs.Definedness

/-!
Which bindings a row program computes.

A statement mentions the variables that stand in it, and each of them leads on to what its own
statement mentions. What the filter reaches in this way is computed before it; what any binding
reaches is computed after it, if it was not before.

    x = abs(a + 1); _y = x * 2; z = _y      z → _y → x → _abs0
    _x = abs(a + 1); y = b                  _x → _abs0

Only what is printed should count, but a hidden binding counts as well. In the second line nothing
that is printed needs `_abs0`, and it is computed for every row.

The compiler does not follow names through the scope: each variable carries its statement. The two
agree as long as a scope binds each name once, and its variables carry what it binds them to.
-/

open List

namespace RowAwk

open Awk (Block Const Expr Head Line)
open Syntax (isInternal)

/-! ### Mentioned names -/

namespace Awk.Expr

mutual

/-- The variables that stand in an expression itself. A name that evaluating another expression sets
    stands for that expression. -/
def mentions : Expr → List String
  | .const _ => []
  | .field _ _ _ => []
  | .var name _ => [name]
  | .builtin _ => []
  | .sideEffect _ cause => mentions cause
  | .call _ args => mentionsAll args
  | .subscript base index => mentions base ++ mentions index
  | .op _ args => mentionsAll args
  | .conditional test yes no => mentions test ++ mentions yes ++ mentions no
  | .assign _ value => mentions value
  | .aggregate _ _ => []

def mentionsAll : List Expr → List String
  | [] => []
  | e :: es => mentions e ++ mentionsAll es

end

theorem mem_varNames_var {m n : String} {b : Expr} :
    n ∈ (Expr.var m b).varNames ↔ n = m ∨ n ∈ b.varNames := by
  constructor
  · intro hn
    obtain ⟨c, hc⟩ := mem_varNames.1 hn
    rcases mem_nodes_var hc with hc | hc
    · cases hc
      exact .inl rfl
    · exact .inr (mem_varNames.2 ⟨c, hc⟩)
  · rintro (rfl | hn)
    · exact mem_varNames.2 ⟨b, mem_nodes_self _⟩
    · exact varNames_binding m b hn

end Awk.Expr

namespace Compile

open Awk.Expr (mem_nodes_self mem_varNames mem_varNames_var)

/-! ### Reached names -/

namespace Scope

/-- The statement of a bound name mentions another. -/
def Uses (s : Scope) (m n : String) : Prop := ∃ b, s.binding? m = some b ∧ n ∈ b.mentions

/-- A name is one of some others, or they lead on to it through their statements. -/
def Reached (s : Scope) (names : List String) (n : String) : Prop :=
  ∃ m ∈ names, Relation.ReflTransGen s.Uses m n

section

variable {s : Scope} {names names' : List String} {m n : String}

@[simp]
theorem reached_nil : ¬ s.Reached [] n := by simp [Reached]

@[simp]
theorem reached_append : s.Reached (names ++ names') n ↔ s.Reached names n ∨ s.Reached names' n := by
  simp [Reached, or_and_right, exists_or]

theorem reached_flatMap {α : Type} {as : List α} {f : α → List String} :
    s.Reached (as.flatMap f) n ↔ ∃ a ∈ as, s.Reached (f a) n := by
  constructor
  · rintro ⟨m, hm, hr⟩
    obtain ⟨a, ha, hm⟩ := mem_flatMap.1 hm
    exact ⟨a, ha, m, hm, hr⟩
  · rintro ⟨a, ha, m, hm, hr⟩
    exact ⟨m, mem_flatMap.2 ⟨a, ha, hm⟩, hr⟩

/-- A bound name reaches itself and what its statement reaches. -/
theorem reached_bound {b : Expr} (h : s.binding? m = some b) :
    s.Reached [m] n ↔ n = m ∨ s.Reached b.mentions n := by
  have huses (x : String) : s.Uses m x ↔ x ∈ b.mentions := by simp [Uses, h]
  simp only [Reached, mem_singleton, exists_eq_left, ← huses]
  rw [Relation.ReflTransGen.cases_head_iff, eq_comm]

theorem mem_map_fst_iff (hs : s.names.Nodup) {qs : List (String × Expr)} (hqs : qs ⊆ s.bindings)
    {q : String × Expr} (hq : q ∈ s.bindings) : q.1 ∈ qs.map Prod.fst ↔ q ∈ qs := by
  constructor
  · intro hm
    obtain ⟨q', hq', heq⟩ := mem_map.1 hm
    rwa [← inj_on_of_nodup_map hs (hqs hq') hq heq]
  · exact fun hm => mem_map.2 ⟨q, hm, rfl⟩

end

end Scope

section

attribute [local simp] Expr.mentions Expr.mentionsAll Expr.varNames Expr.nodes Expr.nodesAll
  Expr.varName?

mutual

/-- Following the names of an expression through the scope comes to the variables that are found by
    following the statements they carry. -/
theorem Rooted.reached_mentions {s : State} (h : Rooted s) {n : String} :
    ∀ {e : Expr}, VarsIn s.scope.bindings e → (s.scope.Reached e.mentions n ↔ n ∈ e.varNames)
  | .const _, _ => by simp
  | .field _ _ _, _ => by simp
  | .builtin _, _ => by simp
  | .aggregate _ _, _ => by simp
  | .var m b, he => by
    -- the scope has the same statement for the name, so both ways go on alike
    have hm := he m b (mem_nodes_self _)
    rw [Expr.mentions, Scope.reached_bound ((Scope.binding?_eq_some_iff h.nodup).2 hm),
      h.reached_mentions (h.varsIn _ hm), mem_varNames_var]
  | .sideEffect _ cause, he => by
    obtain ⟨-, hc⟩ := Expr.everyNode_sideEffect.1 (varsIn_iff.1 he)
    simp [h.reached_mentions (varsIn_iff.2 hc)]
  | .assign _ v, he => by
    obtain ⟨-, hv⟩ := Expr.everyNode_assign.1 (varsIn_iff.1 he)
    simp [h.reached_mentions (varsIn_iff.2 hv)]
  | .call _ args, he => by
    obtain ⟨-, ha⟩ := Expr.everyNode_call.1 (varsIn_iff.1 he)
    simp [h.reached_mentionsAll fun a hm => varsIn_iff.2 (ha a hm)]
  | .op _ args, he => by
    obtain ⟨-, ha⟩ := Expr.everyNode_op.1 (varsIn_iff.1 he)
    simp [h.reached_mentionsAll fun a hm => varsIn_iff.2 (ha a hm)]
  | .subscript base index, he => by
    obtain ⟨-, hb, hi⟩ := Expr.everyNode_subscript.1 (varsIn_iff.1 he)
    have ihb := h.reached_mentions (n := n) (varsIn_iff.2 hb)
    have ihi := h.reached_mentions (n := n) (varsIn_iff.2 hi)
    simp [ihb, ihi, filterMap_cons, -mem_filterMap]
  | .conditional test yes no, he => by
    obtain ⟨-, ht, hy, hn⟩ := Expr.everyNode_conditional.1 (varsIn_iff.1 he)
    have iht := h.reached_mentions (n := n) (varsIn_iff.2 ht)
    have ihy := h.reached_mentions (n := n) (varsIn_iff.2 hy)
    have ihn := h.reached_mentions (n := n) (varsIn_iff.2 hn)
    simp [iht, ihy, ihn, filterMap_cons, -mem_filterMap]

theorem Rooted.reached_mentionsAll {s : State} (h : Rooted s) {n : String} :
    ∀ {es : List Expr}, (∀ e ∈ es, VarsIn s.scope.bindings e) →
      (s.scope.Reached (Expr.mentionsAll es) n ↔ n ∈ (Expr.nodesAll es).filterMap Expr.varName?)
  | [], _ => by simp
  | e :: es, he => by
    obtain ⟨he, hes⟩ := forall_mem_cons.1 he
    have ihe := h.reached_mentions (n := n) he
    have ihes := h.reached_mentionsAll (n := n) hes
    simp [ihe, ihes, -mem_filterMap]

end

end

theorem Rooted.reached_flatMap {s : State} (h : Rooted s) {n : String} {es : List Expr}
    (he : ∀ e ∈ es, VarsIn s.scope.bindings e) :
    s.scope.Reached (es.flatMap Expr.mentions) n ↔ n ∈ es.flatMap Expr.varNames := by
  rw [Scope.reached_flatMap, mem_flatMap]
  exact exists_congr fun e => and_congr_right fun hm => h.reached_mentions (he e hm)

theorem Rooted.reached_statements {s : State} (h : Rooted s) {n : String}
    {qs : List (String × Expr)} (hqs : qs ⊆ s.scope.bindings) :
    s.scope.Reached (qs.flatMap fun q => q.2.mentions) n
      ↔ n ∈ (qs.map Prod.snd).flatMap Expr.varNames := by
  rw [← h.reached_flatMap, flatMap_map]
  intro e he
  obtain ⟨q, hq, rfl⟩ := mem_map.1 he
  exact h.varsIn q (hqs hq)

/-! ### Projections -/

namespace Projection

/-- What each row goes through: statements before the filter, and for the rows that pass further
    statements and a printed line. -/
def staged (filter : Option Expr) (before after values : List Expr) : Block Line Head :=
  let body := computeLine after ++ [.line (.print values)]
  computeLine before ++ (match filter with
    | some test => [.head (.holds test) body]
    | none => body)

theorem computed_staged (filter : Option Expr) (before after values : List Expr) :
    (staged filter before after values).computed = before ++ after := by
  cases filter <;> simp [staged, computed_computeLine, Block.computed, Awk.Item.computed]

variable {order : List Schema.Order} {p : Projection}

theorem block_of {s : Scope} {filter : Option Expr} (h : Projection.of s filter order = .ok p) :
    p.block = staged filter (needed s filter.toList [])
      (needed s (s.bindings.map Prod.snd) (filter.toList.flatMap Expr.varNames))
      ((outputs s).map fun q => printed
        ((filter.toList ++ s.bindings.map Prod.snd).flatMap Expr.varNames) q.1 q.2) := by
  rw [Projection.of] at h
  split at h
  · cases h
  · cases h
    rfl

theorem printed_congr {computed computed' : List String} {name : String} {b : Expr}
    (h : name ∈ computed ↔ name ∈ computed') :
    printed computed name b = printed computed' name b := by
  simp [printed, h]

theorem outputs_subset (s : Scope) : outputs s ⊆ s.bindings := filter_subset_self _

/-- The names that what is printed mentions. -/
def printedMentions (s : Scope) : List String := (outputs s).flatMap fun q => q.2.mentions

/-- What is computed before a filter is what it reaches, and what is computed after it is the rest
    of what the bindings reach, each in the order of the scope. -/
structure Computes (s : Scope) (filter : Option Expr) (before after : List (String × Expr)) :
    Prop where
  before_sublist : before.Sublist s.bindings
  after_sublist : after.Sublist s.bindings
  mem_before : ∀ q ∈ s.bindings, q ∈ before ↔
    s.Reached (filter.toList.flatMap Expr.mentions) q.1
  mem_after : ∀ q ∈ s.bindings, q ∈ after ↔
    q ∉ before ∧ s.Reached (s.bindings.flatMap fun p => p.2.mentions) q.1

variable {s : State} {filter : Option Expr}

theorem exists_computes (hs : Rooted s) (hf : ∀ e ∈ filter, VarsIn s.scope.bindings e)
    (hi : ∀ q ∈ s.scope.bindings, isInternal q.1 = false)
    (hp : Projection.of s.scope filter order = .ok p) :
    ∃ before after, Computes s.scope filter before after ∧
      p.block = staged filter (before.map Prod.snd) (after.map Prod.snd)
        ((outputs s.scope).map fun q => printed ((before ++ after).map Prod.fst) q.1 q.2) := by
  generalize hearly : filter.toList.flatMap Expr.varNames = early
  generalize hall : (s.scope.bindings.map Prod.snd).flatMap Expr.varNames = all
  generalize hbefore : s.scope.bindings.filter (fun q => wanted filter.toList [] q.1) = before
  generalize hafter :
    s.scope.bindings.filter (fun q => wanted (s.scope.bindings.map Prod.snd) early q.1) = after
  have mem_before : ∀ q ∈ s.scope.bindings, q ∈ before ↔ q.1 ∈ early := by
    intro q hq
    simp [← hbefore, ← hearly, hq, wanted_iff (hi q hq)]
  have mem_after : ∀ q ∈ s.scope.bindings, q ∈ after ↔ q.1 ∉ early ∧ q.1 ∈ all := by
    intro q hq
    rw [← hafter, mem_filter, wanted_iff (hi q hq), hall]
    tauto
  have before_sublist : before.Sublist s.scope.bindings := hbefore ▸ filter_sublist
  have after_sublist : after.Sublist s.scope.bindings := hafter ▸ filter_sublist
  refine ⟨before, after, ⟨before_sublist, after_sublist, fun q hq => ?_, fun q hq => ?_⟩, ?_⟩
  · rw [mem_before q hq, ← hearly, hs.reached_flatMap]
    simpa using hf
  · rw [mem_after q hq, mem_before q hq, hs.reached_statements (List.Subset.refl _), hall]
  · rw [block_of hp, needed_eq, needed_eq, hearly, hbefore, hafter, flatMap_append, hearly, hall]
    refine congrArg _ (map_congr_left fun q hq => printed_congr ?_)
    have hq := outputs_subset _ hq
    -- an output is printed by its name if it is computed on either side of the filter
    have hsubset : before ++ after ⊆ s.scope.bindings :=
      append_subset.2 ⟨before_sublist.subset, after_sublist.subset⟩
    rw [Scope.mem_map_fst_iff hs.nodup hsubset hq, mem_append, mem_append,
      mem_before q hq, mem_after q hq]
    tauto

/-- Only what is printed counts after the filter, exactly if hidden bindings reach nothing else. -/
theorem Computes.printed_only_iff {before after : List (String × Expr)}
    (h : Computes s.scope filter before after) (hs : Rooted s) :
    (∀ q ∈ s.scope.bindings, q ∈ after ↔
        q ∉ before ∧ s.scope.Reached (printedMentions s.scope) q.1) ↔
      ∀ p ∈ s.scope.bindings, Syntax.isHidden p.1 = true → ∀ n, s.scope.Reached p.2.mentions n →
        s.scope.Reached (filter.toList.flatMap Expr.mentions ++ printedMentions s.scope) n := by
  simp only [Scope.reached_append]
  constructor
  · intro hprinted p hp _ n hn
    -- what a binding reaches is bound itself
    obtain ⟨b, hb⟩ := mem_varNames.1 ((hs.reached_mentions (hs.varsIn p hp)).1 hn)
    have hq : (n, b) ∈ s.scope.bindings := hs.varsIn p hp n b hb
    by_cases hbefore : (n, b) ∈ before
    · exact .inl ((h.mem_before _ hq).1 hbefore)
    · have hafter := (h.mem_after _ hq).2 ⟨hbefore, Scope.reached_flatMap.2 ⟨p, hp, hn⟩⟩
      exact .inr ((hprinted _ hq).1 hafter).2
  · intro hhidden q hq
    rw [h.mem_after q hq, and_congr_right_iff, h.mem_before q hq]
    intro hbefore
    constructor
    · intro hr
      obtain ⟨p, hp, hr⟩ := Scope.reached_flatMap.1 hr
      cases hname : Syntax.isHidden p.1 with
      | true => exact (hhidden p hp hname q.1 hr).resolve_left hbefore
      | false =>
        refine Scope.reached_flatMap.2 ⟨p, mem_filter.2 ⟨hp, ?_⟩, hr⟩
        simp [hname]
    · intro hr
      obtain ⟨p, hp, hr⟩ := Scope.reached_flatMap.1 hr
      exact Scope.reached_flatMap.2 ⟨p, outputs_subset _ hp, hr⟩

end Projection

/-! ### Row programs -/

/-- A source binds what it names, and the compiler's own helpers have one underscore. -/
theorem Entry.notInternal {C : Const → Prop} {U : String → Prop} {E : List (String × String × Nat)}
    {name : String} {b : Expr} (h : Entry C U E name b)
    (hU : ∀ n, U n → isInternal n = false) : isInternal name = false := by
  cases h with
  | source hu _ => exact hU name hu
  | helper hb => exact isInternal_of_isGenerated hb.isGenerated

namespace RowProgram

variable {schema : Schema} {filters maps : List String}

theorem notInternal_lowerAll {filter : Option Expr} {state : State}
    (h : (lowerAll schema filters maps).run (.start schema) = .ok (filter, state))
    (hn : ∀ n ∈ boundNames schema maps, isInternal n = false) :
    ∀ q ∈ state.scope.bindings, isInternal q.1 = false := by
  have hclosed := closed_lowered (C := Const.Written)
    (Hygienic.tolerant (U := fun n => isInternal n = false) (V := Nobody)) admits_spelt
  obtain ⟨hh, -⟩ := binds_hygienic.lowerAll hclosed hn (hygienic_start schema) filter state h
  exact fun q hq => (hh.scope q.1 q.2 hq).notInternal fun _ hu => hu

/-- A row program computes what is reached, as early as it is needed. Before the filter stands
    exactly what the filter reaches, after it exactly what the bindings reach and was not computed
    before, and nothing else is computed; what is computed is printed by its name. After the filter
    only what the printed outputs reach is computed, exactly if the hidden bindings reach nothing
    that neither they nor the filter reach. -/
theorem computes_what_is_reached {c : Compiled} (hc : compile schema filters maps = .ok c)
    (hn : ∀ n ∈ boundNames schema maps, Syntax.isInternal n = false) :
    ∃ filter state before after,
      (lowerAll schema filters maps).run (.start schema) = .ok (filter, state) ∧
      c.program = ⟨state.routines, [.line .separator],
        Projection.staged filter (before.map Prod.snd) (after.map Prod.snd)
          ((Projection.outputs state.scope).map fun q =>
            Projection.printed ((before ++ after).map Prod.fst) q.1 q.2), []⟩ ∧
      Projection.Computes state.scope filter before after ∧
      ((∀ q ∈ state.scope.bindings, q ∈ after ↔
          q ∉ before ∧ state.scope.Reached (Projection.printedMentions state.scope) q.1) ↔
        ∀ p ∈ state.scope.bindings, Syntax.isHidden p.1 = true →
          ∀ n, state.scope.Reached p.2.mentions n →
            state.scope.Reached (filter.toList.flatMap Expr.mentions ++
              Projection.printedMentions state.scope) n) := by
  obtain ⟨filter, state, projection, derived, hl, hp, -, rfl⟩ := compile_eq_ok hc
  obtain ⟨hrooted, hf⟩ := rooted_lowerAll hl
  obtain ⟨before, after, hcomputes, hblock⟩ :=
    Projection.exists_computes hrooted hf (notInternal_lowerAll hl hn) hp
  exact ⟨filter, state, before, after, hl, by rw [hblock], hcomputes,
    hcomputes.printed_only_iff hrooted⟩

/-- A filter and outputs share a helper, and a split leads from one output over a hidden binding to
    another. Here only what is printed counts. -/
theorem computes_what_is_reached_twoColumns :
    ∃ c filter state before after,
      compile twoColumns ["abs(a - 1) > b"] ["x = abs(a - 1); _y = x + b; z = unjoin(',', _y, 0)"]
        = .ok c ∧
      (∀ n ∈ boundNames twoColumns ["x = abs(a - 1); _y = x + b; z = unjoin(',', _y, 0)"],
        Syntax.isInternal n = false) ∧
      (lowerAll twoColumns ["abs(a - 1) > b"]
        ["x = abs(a - 1); _y = x + b; z = unjoin(',', _y, 0)"]).run (.start twoColumns)
        = .ok (filter, state) ∧
      ((before ++ after).map Prod.snd).map Expr.text = ["_abs0 = ($1 - 1)",
        "x = ((_abs0 < 0)?-(_abs0):_abs0)", "_y = (x + $2)",
        "_spcnt0 = split(_y, _split0, \",\")"] ∧
      Projection.Computes state.scope filter before after ∧
      ∀ q ∈ state.scope.bindings, q ∈ after ↔
        q ∉ before ∧ state.scope.Reached (Projection.printedMentions state.scope) q.1 := by
  have hn : ∀ n ∈ boundNames twoColumns ["x = abs(a - 1); _y = x + b; z = unjoin(',', _y, 0)"],
      Syntax.isInternal n = false := by decide +kernel
  simp only [exists_and_left]
  refine exists_ok_of (by decide +kernel) fun c hc => ⟨hn, ?_⟩
  obtain ⟨filter, state, before, after, hl, hprogram, hcomputes, hiff⟩ :=
    computes_what_is_reached hc hn
  have hall := of_ok (P := fun r =>
    ∀ n ∈ (r.2.scope.bindings.map Prod.snd).flatMap Expr.varNames,
      n ∈ r.1.toList.flatMap Expr.varNames ∨
        n ∈ ((Projection.outputs r.2.scope).map Prod.snd).flatMap Expr.varNames)
    hl (by decide +kernel)
  obtain ⟨hrooted, hf⟩ := rooted_lowerAll hl
  refine ⟨filter, state, hl, before, after, ?_, hcomputes, hiff.2 ?_⟩
  · have hrow : c.program.row.computed = (before ++ after).map Prod.snd := by
      rw [hprogram, Projection.computed_staged, List.map_append]
    rw [← hrow]
    exact of_ok hc (by decide +kernel)
  · intro p hp _ n hr
    have hn := (hrooted.reached_statements (List.Subset.refl _)).1
      (Scope.reached_flatMap.2 ⟨p, hp, hr⟩)
    rw [Scope.reached_append, hrooted.reached_flatMap (by simpa using hf),
      Projection.printedMentions, hrooted.reached_statements (Projection.outputs_subset _)]
    exact hall n hn

/-- A hidden binding has its helper computed, though nothing that is printed reaches any binding:
    `_x = abs(a + 1); y = b` sets `_abs0` on every row and prints the second column. -/
theorem unreached_helper_computed :
    ∃ c state, compile twoColumns [] ["_x = abs(a + 1); y = b"] = .ok c ∧
      (∀ n ∈ boundNames twoColumns ["_x = abs(a + 1); y = b"], Syntax.isInternal n = false) ∧
      (lowerAll twoColumns [] ["_x = abs(a + 1); y = b"]).run (.start twoColumns)
        = .ok (none, state) ∧
      c.program.row.computed.map Expr.text = ["_abs0 = ($1 + 1)"] ∧
      state.scope.names = ["_abs0", "_x", "y"] ∧
      ∀ n, ¬ state.scope.Reached (Projection.printedMentions state.scope) n := by
  simp only [exists_and_left]
  refine exists_ok_of (by decide +kernel) fun c hc => ⟨by decide +kernel, ?_⟩
  obtain ⟨⟨filter, state⟩, hl, hnone, hnames, hmentions⟩ :
      ∃ r, (lowerAll twoColumns [] ["_x = abs(a + 1); y = b"]).run (.start twoColumns) = .ok r ∧
        r.1.isNone = true ∧ r.2.scope.names = ["_abs0", "_x", "y"] ∧
        Projection.printedMentions r.2.scope = [] := by decide +kernel
  obtain rfl := Option.isNone_iff_eq_none.1 hnone
  refine ⟨state, hl, of_ok hc (by decide +kernel), hnames, fun n => ?_⟩
  rw [hmentions]
  exact Scope.reached_nil

end RowProgram

end Compile

end RowAwk
