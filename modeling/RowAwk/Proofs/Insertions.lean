import RowAwk.Proofs.Steps

/-!
Lowering beside further columns.

A scope may bind some of its columns under their own names. What is lowered in it does not notice:
a name of a column stands for the column, bound or not, and helpers have names that start with an
underscore.

    x = abs(a + 1)                    min(b, x) > 1   ──▶   _min0
    x = abs(a + 1); a = a; b = b      min(b, x) > 1   ──▶   _min0

So an expression that can be lowered without them is lowered to the same one beside them, and the
same helpers are bound on the way.
-/

namespace RowAwk.Compile

open Awk (Expr)

/-- Two states that differ in bindings of columns, which the second one has after the first few
    bindings. -/
structure Inserted (first columns : List (String × Expr)) (s s' : State) : Prop where
  isColumn : ∀ b ∈ columns, (s.scope.field? b.1).isSome = true ∧ Syntax.isHidden b.1 = false
  split : ∃ more, s.scope.bindings = first ++ more ∧
    s' = { s with scope := ⟨s.scope.schema, first ++ columns ++ more⟩ }

namespace Inserted

variable {first columns : List (String × Expr)} {s s' : State}

theorem field? (h : Inserted first columns s s') (name : String) :
    s'.scope.field? name = s.scope.field? name := by
  obtain ⟨more, -, rfl⟩ := h.split
  rfl

theorem namer (h : Inserted first columns s s') : s'.namer = s.namer := by
  obtain ⟨more, -, rfl⟩ := h.split
  rfl

/-- Other names are bound alike. -/
theorem binding? (h : Inserted first columns s s') {name : String}
    (hn : s.scope.field? name = none ∨ Syntax.isHidden name = true) :
    s'.scope.binding? name = s.scope.binding? name := by
  obtain ⟨more, hmore, rfl⟩ := h.split
  have hnone : (columns.find? fun b => b.1 == name) = none := by
    rw [List.find?_eq_none]
    rintro b hb heq
    obtain ⟨hfield, hshown⟩ := h.isColumn b hb
    rw [beq_iff_eq.1 heq] at hfield hshown
    rcases hn with hn | hn
    · rw [hn] at hfield
      cases hfield
    · rw [hn] at hshown
      cases hshown
  rw [Scope.binding?, Scope.binding?, hmore]
  simp only [List.find?_append, hnone, Option.or_none]

theorem named (h : Inserted first columns s s') (stem key : String) :
    Inserted first columns (s.named stem key) (s'.named stem key) := by
  obtain ⟨more, hmore, rfl⟩ := h.split
  exact ⟨h.isColumn, more, hmore, rfl⟩

theorem required (h : Inserted first columns s s') (r : Awk.Routine) :
    Inserted first columns { s with routines := r.require s.routines }
      { s' with routines := r.require s'.routines } := by
  obtain ⟨more, hmore, rfl⟩ := h.split
  exact ⟨h.isColumn, more, hmore, rfl⟩

theorem bound (h : Inserted first columns s s') (name : String) (b : Expr) :
    Inserted first columns (s.bound name b) (s'.bound name b) := by
  obtain ⟨more, hmore, rfl⟩ := h.split
  refine ⟨h.isColumn, more ++ [(name, b)], ?_, ?_⟩
  · rw [State.bound, hmore, List.append_assoc]
  · simp only [State.bound, List.append_assoc]

end Inserted

/-! ### Steps beside further columns -/

/-- Whatever a lowering gives, it gives beside further columns as well. -/
def Unmoved (first columns : List (String × Expr)) {α : Type} (m : Lower α) : Prop :=
  ∀ s s' a t, Inserted first columns s s' → m.run s = .ok (a, t) →
    ∃ t', m.run s' = .ok (a, t') ∧ Inserted first columns t t'

section

variable {first columns : List (String × Expr)}

/-- A helper is found beside the columns exactly if it is without them. -/
theorem unmoved_bindHelper {name : String} (hn : Syntax.isHidden name = true) (b : Expr) :
    Unmoved first columns (Lower.bindHelper name b) := by
  intro s s' e t h hr
  have hbinding := h.binding? (.inr hn)
  rcases Lower.bindHelper_cases hr with ⟨c, hc, rfl, rfl⟩ | ⟨hnone, rfl, rfl⟩
  · refine ⟨s', Lower.bind_eq_ok.2 ⟨s', s', rfl, ?_⟩, h⟩
    simp only [Scope.var?, hbinding, hc]
    rfl
  · refine ⟨s'.bound name b, Lower.bind_eq_ok.2 ⟨s', s', rfl, ?_⟩, h.bound name b⟩
    simp only [Scope.var?, hbinding, hnone]
    exact Lower.bind_eq_ok.2 ⟨(), _, Lower.run_bind_eq_ok.2 ⟨hbinding.trans hnone, rfl⟩, rfl⟩

/-- A name stands for what it stood for: the columns that are bound are columns anyway. -/
theorem unmoved_resolve (name : String) : Unmoved first columns (Lowering.resolve name) := by
  intro s s' e t h hr
  have hfield := h.field? name
  refine ⟨s', Lower.bind_eq_ok.2 ⟨s', s', rfl, ?_⟩, ?_⟩
  · obtain ⟨-, ⟨hf, hi⟩ | ⟨hf, b, hb, rfl⟩ | ⟨hf, hb, hw, rfl⟩⟩ := Lower.resolve_cases hr
    · simp only [hfield, hf, hi]
      rfl
    · simp only [hfield, hf, Scope.var?, h.binding? (.inl hf), hb]
      rfl
    · simp only [hfield, hf, Scope.var?, h.binding? (.inl hf), hb, Option.map_none,
        List.contains_iff_mem.2 hw, if_true]
      rfl
  · obtain ⟨rfl, -⟩ := Lower.resolve_cases hr
    exact h

/-- No step of a lowering notices the columns, so no lowering does. -/
theorem ofSteps_unmoved : Lower.OfSteps (Unmoved first columns) where
  pure a s s' b t hs hr := by
    obtain ⟨rfl, rfl⟩ := Lower.pure_eq_ok.1 hr
    exact ⟨s', Lower.pure_eq_ok.2 ⟨rfl, rfl⟩, hs⟩
  fail _ _ _ _ _ _ hr := absurd hr Lower.fail_ne_ok
  noting _ h s s' a t hs hr := by
    obtain ⟨t', hr', ht⟩ := h s s' a t hs (Lower.noting_eq_ok.1 hr)
    exact ⟨t', Lower.noting_eq_ok.2 hr', ht⟩
  bind hm hf s s' b u hs hr := by
    obtain ⟨a, t, ha, hb⟩ := Lower.bind_eq_ok.1 hr
    obtain ⟨t', ha', ht⟩ := hm s s' a t hs ha
    obtain ⟨u', hb', hu⟩ := hf a ⟨s, t, ha⟩ t t' b u ht hb
    exact ⟨u', Lower.bind_eq_ok.2 ⟨a, t', ha', hb'⟩, hu⟩
  nameFor stem key s s' name t h hr := by
    obtain ⟨rfl, rfl⟩ := Lower.nameFor_eq_ok.1 hr
    refine ⟨_, Lower.nameFor_eq_ok.2 ⟨?_, rfl⟩, h.named stem key⟩
    rw [h.namer]
  require r s s' u t h hr := by
    obtain rfl := Lower.require_eq_ok.1 hr
    exact ⟨_, Lower.require_eq_ok.2 rfl, h.required r⟩
  bindHelper statement hn := unmoved_bindHelper hn statement
  resolve := unmoved_resolve

end

end RowAwk.Compile
