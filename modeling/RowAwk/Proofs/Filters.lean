import RowAwk.Proofs.Independence
import RowAwk.Proofs.Validity
import RowAwk.Proofs.Weakening

/-!
Filters leave the columns of a program as they are.

Filters are lowered after the statements, in the scope that these have bound. They bind nothing but
helpers, which are not printed, so the outputs are those of the statements.

    statements     x = abs(a - 1); y = b          outputs  x  y
    filters        abs(b) > 1; min(a, y) < 2      helpers  _abs1  _min0

A binding may be printed by its name with filters and by its value without; both have one type. A
filter can be lowered behind others if it can be lowered right after the statements, as long as the
names that it mentions are known there.
-/

open List

namespace RowAwk.Compile

open Awk (Const Expr)
open Syntax (Stmt)
open Lowering (value)
open Projection (outputs)

/-! ### Conditions one after the other -/

namespace RowProgram

variable {schema : Schema} {filters maps : List String} {s t : State}
variable {tests : List Expr}

theorem mapM_noting_eq_ok {α β : Type} {note : String} {f : α → Lower β} {as : List α}
    {bs : List β} : (as.mapM fun a => Lower.noting note (f a)).run s = .ok (bs, t) ↔
      (as.mapM f).run s = .ok (bs, t) := by
  induction as generalizing s t bs with
  | nil => rw [mapM_nil, mapM_nil]
  | cons a as ih =>
    simp only [mapM_cons, Lower.bind_eq_ok, Lower.noting_eq_ok, ih]

theorem conditions_eq_ok {source : String} :
    (conditions source).run s = .ok (tests, t) ↔
      ∃ stmts, parseSource source = .ok stmts ∧
        (stmts.mapM value).run s = .ok (tests, t) := by
  simp only [conditions, Lower.bind_eq_ok, Lower.lift_eq_ok, mapM_noting_eq_ok]
  constructor
  · rintro ⟨stmts, _, ⟨hp, rfl⟩, hr⟩
    exact ⟨stmts, hp, hr⟩
  · rintro ⟨stmts, hp, hr⟩
    exact ⟨stmts, s, ⟨hp, rfl⟩, hr⟩

/-- The sources of filters are lowered like one list of statements. -/
theorem mapM_conditions_eq_ok :
    (∃ parts, (filters.mapM conditions).run s = .ok (parts, t) ∧ parts.flatten = tests) ↔
      (∀ source ∈ filters, ∃ stmts, parseSource source = .ok stmts) ∧
        ((filters.flatMap statements).mapM value).run s = .ok (tests, t) := by
  induction filters generalizing s tests with
  | nil =>
    simp only [mapM_nil, flatMap_nil, Lower.pure_eq_ok]
    constructor
    · rintro ⟨_, ⟨rfl, rfl⟩, rfl⟩
      exact ⟨nofun, rfl, rfl⟩
    · rintro ⟨-, rfl, rfl⟩
      exact ⟨[], ⟨rfl, rfl⟩, rfl⟩
  | cons source filters ih =>
    simp only [mapM_cons, flatMap_cons, mapM_append, Lower.bind_eq_ok,
      Lower.pure_eq_ok, conditions_eq_ok, forall_mem_cons]
    constructor
    · rintro ⟨_, ⟨xs, s₁, ⟨stmts, hp, hr⟩, parts, _, hparts, rfl, rfl⟩, rfl⟩
      obtain ⟨hall, hrest⟩ := ih.1 ⟨parts, hparts, rfl⟩
      refine ⟨⟨⟨stmts, hp⟩, hall⟩, xs, s₁, ?_, _, _, hrest, rfl, rfl⟩
      rwa [statements_eq hp]
    · rintro ⟨⟨⟨stmts, hp⟩, hall⟩, xs, s₁, hr, rest, _, hrest, rfl, rfl⟩
      obtain ⟨parts, hparts, rfl⟩ := ih.2 ⟨hall, hrest⟩
      rw [statements_eq hp] at hr
      exact ⟨_, ⟨xs, s₁, ⟨stmts, hp, hr⟩, parts, _, hparts, rfl, rfl⟩, rfl⟩

/-- Statements are lowered as they are without filters, and then the filters. -/
theorem lowerAll_eq_ok {filter : Option Expr} :
    (lowerAll schema filters maps).run s = .ok (filter, t) ↔
      ∃ s₀ tests, (lowerAll schema [] maps).run s = .ok (none, s₀) ∧
        (∀ source ∈ filters, ∃ stmts, parseSource source = .ok stmts) ∧
        ((filters.flatMap statements).mapM value).run s₀ = .ok (tests, t) ∧
        filter = conjunction tests := by
  simp only [lowerAll, Lower.bind_eq_ok, Lower.pure_eq_ok, mapM_nil]
  constructor
  · rintro ⟨u, s₀, hmaps, parts, _, hparts, rfl, rfl⟩
    obtain ⟨hall, hr⟩ := mapM_conditions_eq_ok.1 ⟨parts, hparts, rfl⟩
    exact ⟨s₀, _, ⟨u, s₀, hmaps, [], s₀, ⟨rfl, rfl⟩, rfl, rfl⟩, hall, hr, rfl⟩
  · rintro ⟨_, tests, ⟨u, s₀, hmaps, _, _, ⟨rfl, rfl⟩, -, rfl⟩, hall, hr, rfl⟩
    obtain ⟨parts, hparts, rfl⟩ := mapM_conditions_eq_ok.2 ⟨hall, hr⟩
    exact ⟨u, s₀, hmaps, parts, t, hparts, rfl, rfl⟩

/-! ### Outputs -/

/-- Helpers that filters need are not printed. -/
theorem tolerant_outputs (outs : List (String × Expr)) :
    Tolerant Const.Written fun s => outputs s.scope = outs where
  routines h := h
  named _ _ h := h
  bound h hb := by
    rw [← h, outputs, State.bound, filter_append]
    simp [outputs, isHidden_of_isGenerated hb.isGenerated]

variable {stmts : List Stmt} {c : Compiled}

theorem mapM_value_cases (hw : ∀ stmt ∈ stmts, stmt.WellFormed Syntax.Literal.Spelt)
    (hr : (stmts.mapM value).run s = .ok (tests, t)) :
    outputs t.scope = outputs s.scope ∧ s.Grows t ∧
      tests.length = stmts.length := by
  have hclosed := closed_lowered (tolerant_outputs (outputs s.scope)) admits_spelt
  obtain ⟨houts, hg, hlength, -⟩ := lands_mapM (P := fun _ _ => True) (Q := fun _ _ => True)
    (fun _ _ _ _ h => h) (fun _ _ _ _ h => h)
    (fun stmt hm _ _ => (lands_value hclosed (hw stmt hm)).imp fun _ _ _ _ _ => trivial)
    (fun _ _ => trivial) rfl tests t hr
  exact ⟨houts, hg, hlength⟩

/-- The description of a program that prints some bindings. Types are those of the variables, which
    the values have as well. -/
def description (schema : Schema) (outs : List (String × Expr)) (size : Option Nat) : Schema where
  fields := outs.map fun b => ⟨b.1, (Expr.var b.1 b.2).type⟩
  order := Projection.carriedOrder (Projection.handedOn [] outs) schema.order
  size := size
  metadata := schema.metadata

theorem schema_compile (hc : compile schema filters maps = .ok c) :
    ∃ filter t, (lowerAll schema filters maps).run (.start schema) = .ok (filter, t) ∧
      c.schema = description schema (outputs t.scope)
        (if filter.isNone then schema.size else none) := by
  obtain ⟨filter, t, projection, derived, hl, hp, hd, rfl⟩ := compile_eq_ok hc
  obtain ⟨hschema, -⟩ := Projection.exists_schema hp (nodup_lowerAll hl)
    (if filter.isNone then schema.size else none) schema.metadata
  cases hschema.symm.trans hd
  refine ⟨filter, t, hl, ?_⟩
  rw [Projection.of] at hp
  split at hp
  · cases hp
  · cases hp
    simp only [type_printed, description]

/-! ### With and without filters -/

/-- A statement can be lowered as a value. -/
def Lowers (s : State) (stmt : Stmt) : Prop := ∃ r, (value stmt).run s = .ok r

/-- Each of some statements can be lowered as a value, either where it stands, or right away if it
    mentions only names that are known there. -/
def Lowerable (s : State) (stmts : List Stmt) : Prop :=
  ∀ before stmt after, stmts = before ++ stmt :: after →
    ∀ tests t, (before.mapM value).run s = .ok (tests, t) →
      Lowers t stmt ∨ Lowers s stmt ∧ ∀ n ∈ (stmtExpr stmt).names, s.scope.Resolves n

theorem Lowers.of_resolves {stmt : Stmt} (h : Lowers s stmt)
    (hn : ∀ n ∈ (stmtExpr stmt).names, t.scope.Resolves n) : Lowers t stmt := by
  obtain ⟨⟨x, s'⟩, hr⟩ := h
  cases stmt with
  | assign target e => exact absurd (Lower.noting_eq_ok.1 hr) Lower.fail_ne_ok
  | value e =>
    obtain ⟨x', t', hr', -⟩ := Lowering.repeats_lower hn s x s' hr
    exact ⟨(x', t'), hr'⟩

theorem Lowerable.run (h : Lowerable s stmts)
    (hw : ∀ stmt ∈ stmts, stmt.WellFormed Syntax.Literal.Spelt) :
    ∃ tests t, (stmts.mapM value).run s = .ok (tests, t) := by
  induction stmts using List.reverseRecOn with
  | nil => exact ⟨[], s, rfl⟩
  | append_singleton before stmt ih =>
    rw [forall_mem_append] at hw
    obtain ⟨tests, t, hr⟩ := ih (fun b st a heq => h b st (a ++ [stmt]) (by simp [heq])) hw.1
    have hlowers : Lowers t stmt := by
      rcases h before stmt [] rfl tests t hr with hl | ⟨hl, hn⟩
      · exact hl
      · exact hl.of_resolves fun n hm => (hn n hm).grows (mapM_value_cases hw.1 hr).2.1
    obtain ⟨⟨test, t'⟩, hr'⟩ := hlowers
    refine ⟨tests ++ [test], t', ?_⟩
    rw [mapM_append]
    refine Lower.bind_eq_ok.2 ⟨tests, t, hr, Lower.bind_eq_ok.2 ⟨[test], t', ?_, rfl⟩⟩
    rw [mapM_cons]
    exact Lower.bind_eq_ok.2 ⟨test, t', hr', rfl⟩

/-- Statements that have been lowered one after the other were each lowered where they stand. -/
theorem lowerable_of_run (hr : (stmts.mapM value).run s = .ok (tests, t)) : Lowerable s stmts := by
  rintro before stmt after rfl tests₁ t₁ hbefore
  rw [mapM_append] at hr
  obtain ⟨tests₂, t₂, hbefore', hr⟩ := Lower.bind_eq_ok.1 hr
  cases hbefore.symm.trans hbefore'
  rw [mapM_cons] at hr
  obtain ⟨rest, t₃, hrest, -⟩ := Lower.bind_eq_ok.1 hr
  obtain ⟨test, t₄, htest, -⟩ := Lower.bind_eq_ok.1 hrest
  exact .inl ⟨(test, t₄), htest⟩

theorem wellFormed_statements (filters : List String) :
    ∀ stmt ∈ filters.flatMap statements, stmt.WellFormed Syntax.Literal.Spelt := by
  intro stmt hm
  obtain ⟨source, -, hs⟩ := mem_flatMap.1 hm
  exact wellFormed_of_mem_statements hs

theorem conjunction_eq_none : conjunction tests = none ↔ tests = [] := by
  unfold conjunction
  split <;> simp_all

/-- A program that compiles with filters compiles without them. -/
theorem compile_without (hc : compile schema filters maps = .ok c) :
    ∃ c₀ s₀, compile schema [] maps = .ok c₀ ∧
      (lowerAll schema [] maps).run (.start schema) = .ok (none, s₀) ∧
      (∀ source ∈ filters, ∃ stmts, parseSource source = .ok stmts) ∧
      Lowerable s₀ (filters.flatMap statements) ∧
      c₀.schema.size = schema.size ∧ c₀.schema.metadata = schema.metadata ∧
      c.schema = { c₀.schema with
        size := if filters.flatMap statements = [] then schema.size else none } := by
  obtain ⟨filter, t, hl, hschema⟩ := schema_compile hc
  obtain ⟨filter', t', hl', hne⟩ := exists_compile_iff.1 ⟨c, hc⟩
  cases hl.symm.trans hl'
  obtain ⟨s₀, tests, hl₀, hall, hr, rfl⟩ := lowerAll_eq_ok.1 hl
  obtain ⟨houts, -, hlength⟩ := mapM_value_cases (wellFormed_statements filters) hr
  rw [houts] at hne hschema
  obtain ⟨c₀, hc₀⟩ := exists_compile_iff.2 ⟨none, s₀, hl₀, hne⟩
  obtain ⟨filter₀, t₀, hl₀', hschema₀⟩ := schema_compile hc₀
  cases hl₀.symm.trans hl₀'
  have hnone : (conjunction tests).isNone = true ↔ filters.flatMap statements = [] := by
    rw [Option.isNone_iff_eq_none, conjunction_eq_none, ← length_eq_zero_iff, hlength,
      length_eq_zero_iff]
  refine ⟨c₀, s₀, hc₀, hl₀, hall, lowerable_of_run hr, by rw [hschema₀]; rfl, by rw [hschema₀]; rfl,
    ?_⟩
  rw [hschema, hschema₀]
  simp only [hnone, description]

/-- Filters that can be lowered can be added. -/
theorem compile_with {c₀ : Compiled} {s₀ : State} (hc₀ : compile schema [] maps = .ok c₀)
    (hl₀ : (lowerAll schema [] maps).run (.start schema) = .ok (none, s₀))
    (hall : ∀ source ∈ filters, ∃ stmts, parseSource source = .ok stmts)
    (hlowerable : Lowerable s₀ (filters.flatMap statements)) :
    ∃ c, compile schema filters maps = .ok c := by
  have hw := wellFormed_statements filters
  obtain ⟨filter₀, t₀, hl₀', hne⟩ := exists_compile_iff.1 ⟨c₀, hc₀⟩
  cases hl₀.symm.trans hl₀'
  obtain ⟨tests, t, hr⟩ := hlowerable.run hw
  refine exists_compile_iff.2 ⟨conjunction tests, t, ?_, ?_⟩
  · exact lowerAll_eq_ok.2 ⟨s₀, tests, hl₀, hall, hr, rfl⟩
  · rwa [(mapM_value_cases hw hr).1]

/-- Filters do not change what is printed. A program that compiles with filters compiles without
    them, and has the same description then, but for its size: that is the size of the input if no
    filter holds a statement, and else it is not known. It compiles with filters exactly if it does
    without them, the filters can be read, and all their statements can be lowered as values. -/
theorem filters_keep_columns (schema : Schema) (filters maps : List String) :
    (∀ c, compile schema filters maps = .ok c →
      ∃ c₀, compile schema [] maps = .ok c₀ ∧
        c₀.schema.size = schema.size ∧ c₀.schema.metadata = schema.metadata ∧
        c.schema = { c₀.schema with
          size := if filters.flatMap statements = [] then schema.size else none }) ∧
    ((∃ c, compile schema filters maps = .ok c) ↔
      ∃ c₀ s₀, compile schema [] maps = .ok c₀ ∧
        (lowerAll schema [] maps).run (.start schema) = .ok (none, s₀) ∧
        (∀ source ∈ filters, ∃ stmts, parseSource source = .ok stmts) ∧
        Lowerable s₀ (filters.flatMap statements)) := by
  refine ⟨fun c hc => ?_, ⟨fun ⟨c, hc⟩ => ?_, fun ⟨c₀, s₀, hc₀, hl₀, hall, hlowerable⟩ => ?_⟩⟩
  · obtain ⟨c₀, s₀, hc₀, -, -, -, hsame⟩ := compile_without hc
    exact ⟨c₀, hc₀, hsame⟩
  · obtain ⟨c₀, s₀, hc₀, hl₀, hall, hlowerable, -⟩ := compile_without hc
    exact ⟨c₀, s₀, hc₀, hl₀, hall, hlowerable⟩
  · exact compile_with hc₀ hl₀ hall hlowerable

/-- Filters that share a helper with a statement and number others of their own. -/
theorem filters_keep_columns_twoColumns :
    ∃ c₀ s₀ c, compile twoColumns [] ["x = abs(b - 2); y = strip(a)"] = .ok c₀ ∧
      (lowerAll twoColumns [] ["x = abs(b - 2); y = strip(a)"]).run (.start twoColumns)
        = .ok (none, s₀) ∧
      Lowerable s₀
        (["abs(b - 2) > 1; min(a, x) < 2", "strptime('%Y', y) > NR"].flatMap statements) ∧
      compile twoColumns ["abs(b - 2) > 1; min(a, x) < 2", "strptime('%Y', y) > NR"]
        ["x = abs(b - 2); y = strip(a)"] = .ok c ∧
      c.schema = { c₀.schema with size := none } := by
  obtain ⟨c₀, hc₀⟩ := exists_eq_ok (x := compile twoColumns [] ["x = abs(b - 2); y = strip(a)"])
    (by decide +kernel)
  obtain ⟨⟨filter, s₀⟩, hl₀, hnone, h⟩ :
      ∃ r, (lowerAll twoColumns [] ["x = abs(b - 2); y = strip(a)"]).run (.start twoColumns) = .ok r ∧
        r.1.isNone = true ∧ ∀ stmt ∈
          ["abs(b - 2) > 1; min(a, x) < 2", "strptime('%Y', y) > NR"].flatMap statements,
            ((Lowering.value stmt).run r.2).toBool = true ∧
              ∀ n ∈ (stmtExpr stmt).names, r.2.scope.Resolves n := by decide +kernel
  obtain rfl := Option.isNone_iff_eq_none.1 hnone
  have hlowerable : Lowerable s₀
      (["abs(b - 2) > 1; min(a, x) < 2", "strptime('%Y', y) > NR"].flatMap statements) := by
    intro before stmt after heq tests t _
    obtain ⟨hlowers, hn⟩ := h stmt (heq ▸ List.mem_append_right before List.mem_cons_self)
    exact .inr ⟨exists_eq_ok hlowers, hn⟩
  obtain ⟨hfirst, hiff⟩ := filters_keep_columns twoColumns
    ["abs(b - 2) > 1; min(a, x) < 2", "strptime('%Y', y) > NR"] ["x = abs(b - 2); y = strip(a)"]
  have hread : ∀ source ∈ ["abs(b - 2) > 1; min(a, x) < 2", "strptime('%Y', y) > NR"],
      (parseSource source).toBool = true := by decide +kernel
  obtain ⟨c, hc⟩ := hiff.2
    ⟨c₀, s₀, hc₀, hl₀, fun source hm => exists_eq_ok (hread source hm), hlowerable⟩
  obtain ⟨c₁, hc₁, -, -, hsame⟩ := hfirst c hc
  cases hc₀.symm.trans hc₁
  refine ⟨c₀, s₀, c, hc₀, hl₀, hlowerable, hc, hsame.trans ?_⟩
  rw [if_neg (by decide +kernel)]

end RowProgram

end RowAwk.Compile
