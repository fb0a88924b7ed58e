import RowAwk.Proofs.Lower

/-!
Names that are bound in a scope.

A scope is the list of its names with their statements, in the order of the outputs. One more name
goes somewhere between the others, and only if it is not there yet, so that each name stands once
and is looked up with its own statement.
-/

open List

namespace RowAwk.Compile.Scope

open Awk (Expr)

variable {sc sc' : Scope} {name n : String} {b : Expr} {position : Option Nat}

/-! ### Binding one name -/

theorem bind_splits (h : sc.bind name b position = .ok sc') :
    ∃ pre post, sc.bindings = pre ++ post ∧ sc'.bindings = pre ++ (name, b) :: post := by
  rw [bind] at h
  split at h
  · cases h
  · cases h
    exact ⟨_, _, (take_append_drop (position.getD sc.bindings.length) _).symm, rfl⟩

theorem schema_bind (h : sc.bind name b position = .ok sc') : sc'.schema = sc.schema := by
  rw [bind] at h
  split at h
  · cases h
  · cases h
    rfl

theorem subset_bind (h : sc.bind name b position = .ok sc') : sc.bindings ⊆ sc'.bindings :=
  fun _ hm => (mem_bind h).2 (.inl hm)

theorem mem_bind_self (h : sc.bind name b position = .ok sc') : (name, b) ∈ sc'.bindings :=
  (mem_bind h).2 (.inr rfl)

theorem forall_bind {Q : String × Expr → Prop} (h : sc.bind name b position = .ok sc')
    (hsc : ∀ p ∈ sc.bindings, Q p) (hb : Q (name, b)) : ∀ p ∈ sc'.bindings, Q p := by
  intro p hp
  rcases (mem_bind h).1 hp with hp | rfl
  · exact hsc p hp
  · exact hb

theorem mem_names_bind (h : sc.bind name b position = .ok sc') :
    n ∈ sc'.names ↔ n ∈ sc.names ∨ n = name := by
  obtain ⟨pre, post, hsc, hsc'⟩ := bind_splits h
  simp only [names, hsc, hsc', map_append, map_cons, mem_append, mem_cons]
  tauto

theorem mem_names_iff : n ∈ sc.names ↔ sc.hasVar n = true := by
  rw [hasVar, Option.isSome_iff_exists]
  constructor
  · intro hm
    cases hb : sc.binding? n with
    | none => exact absurd hm (not_mem_of_binding? hb)
    | some b => exact ⟨b, rfl⟩
  · rintro ⟨b, hb⟩
    exact mem_map.2 ⟨_, mem_of_binding? hb, rfl⟩

theorem nodup_bind (h : sc.bind name b position = .ok sc') (hn : sc.names.Nodup) :
    sc'.names.Nodup := by
  have hname : name ∉ sc.names := by
    rw [bind] at h
    split at h
    · cases h
    · rename_i hvar
      exact fun hm => hvar (mem_names_iff.1 hm)
  obtain ⟨pre, post, hsc, hsc'⟩ := bind_splits h
  rw [names, hsc, map_append] at hn hname
  rw [names, hsc', map_append, map_cons]
  exact nodup_middle.2 (nodup_cons.2 ⟨hname, hn⟩)

/-- Where each name is bound once, a binding is what its name is bound to. -/
theorem binding?_eq_some_iff (hs : sc.names.Nodup) :
    sc.binding? n = some b ↔ (n, b) ∈ sc.bindings := by
  refine ⟨mem_of_binding?, fun hm => ?_⟩
  obtain ⟨c, hc⟩ := Option.isSome_iff_exists.1 (mem_names_iff.1 (mem_map_of_mem hm))
  rw [hc, (Prod.mk.inj (inj_on_of_nodup_map hs (mem_of_binding? hc) hm rfl)).2]

end RowAwk.Compile.Scope
