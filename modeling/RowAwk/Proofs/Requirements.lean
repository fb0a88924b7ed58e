import RowAwk.Proofs.Calls

/-!
Which functions a program brings along.

A call of the library may need a function that awk lacks. The functions that are needed are kept in
one order, each once, together with the functions they call in turn. So it does not matter in which
order and how often they are required:

    crc32, map_from_file, crc32      ──▶      crc32, hash_id_map, map_from_file

The calls that compiling expands are the only ones that require something, and a program brings
along what all of them come to.
-/

namespace RowAwk

namespace Awk.Routine

/-- The functions that some requirements add to those that are needed. -/
def requireAll (needed : List Routine) (rs : List Routine) : List Routine :=
  rs.foldl (fun needed r => r.require needed) needed

theorem requireAll_append (needed rs more : List Routine) :
    requireAll needed (rs ++ more) = requireAll (requireAll needed rs) more :=
  List.foldl_append

/-- From nothing, requirements come to what they name and what that calls, in the order of all. -/
theorem requireAll_nil_eq (rs : List Routine) :
    requireAll [] rs = all.filter fun s => rs.any fun r => s = r ∨ s ∈ r.dependencies := by
  induction rs using List.reverseRecOn with
  | nil => rfl
  | append_singleton rs r ih =>
    rw [requireAll_append, ih]
    refine List.filter_congr fun s _ => ?_
    rw [Bool.eq_iff_iff]
    simp [mem_all]

variable {s : Routine} {rs : List Routine}

theorem mem_requireAll : s ∈ requireAll [] rs ↔ ∃ r ∈ rs, s = r ∨ s ∈ r.dependencies := by
  simp [requireAll_nil_eq, mem_all]

/-- Neither the order nor the number of requirements matters. -/
theorem requireAll_congr {rs' : List Routine} (h : ∀ r, r ∈ rs ↔ r ∈ rs') :
    requireAll [] rs = requireAll [] rs' := by
  rw [requireAll_nil_eq, requireAll_nil_eq]
  refine List.filter_congr fun s _ => ?_
  rw [Bool.eq_iff_iff, List.any_eq_true, List.any_eq_true]
  simp only [h]

theorem sublist_requireAll (rs : List Routine) : (requireAll [] rs).Sublist all := by
  rw [requireAll_nil_eq]
  exact List.filter_sublist

/-- What is required brings along what it calls. -/
theorem dependencies_requireAll (h : s ∈ requireAll [] rs) : s.dependencies ⊆ requireAll [] rs := by
  have hflat : ∀ r s : Routine, s ∈ r.dependencies → s.dependencies = [] := by
    intro r s
    cases r <;> cases s <;> decide
  intro d hd
  obtain ⟨r, hr, rfl | hs⟩ := mem_requireAll.1 h
  · exact mem_requireAll.2 ⟨s, hr, .inr hd⟩
  · rw [hflat r s hs] at hd
    cases hd

end Awk.Routine

namespace Compile

open Awk (Category Expr Routine)
open Awk.Routine
open Syntax (Stmt)

/-- The function that a call needs. -/
def Call.routine? : Call → Option Routine
  | .library function .. => Routine.ofName? function.name
  | .aggregate .. => none

/-- The functions that some calls need, one for each call that needs one. -/
def requirements (cs : List Call) : List Routine := cs.filterMap Call.routine?

theorem requirements_append (cs ds : List Call) :
    requirements (cs ++ ds) = requirements cs ++ requirements ds :=
  List.filterMap_append

/-! ### Computations that require nothing -/

section

variable {α β : Type} {needed : List Routine} {s : State}

/-- So many functions are needed. -/
def Needs (needed : List Routine) (s : State) : Prop := s.routines = needed

/-- Naming and binding helpers require nothing, and so does what is put together from them. -/
theorem ofBindings_needs :
    Lower.OfBindings fun m => ∀ needed s, Lands (Needs needed) s m fun _ _ => True where
  pure _ _ _ := lands_pure fun _ => trivial
  fail _ _ _ := lands_fail
  bind hm hf needed s hi b u hr := by
    obtain ⟨a, t, ha, hb⟩ := Lower.bind_eq_ok.1 hr
    obtain ⟨ht, hg, -⟩ := hm needed s hi a t ha
    obtain ⟨hu, hg', -⟩ := hf a ⟨s, t, ha⟩ needed t ht b u hb
    exact ⟨hu, hg.trans hg', trivial⟩
  nameFor _ _ _ _ := (lands_nameFor fun h => h).imp fun _ _ _ _ _ => trivial
  bindHelper _ _ _ _ := (lands_bindHelper fun h _ => h).imp fun _ _ _ _ _ => trivial

/-- What follows a requirement needs nothing else. -/
theorem routines_require {r : Routine} {m : Lower α} {a : α} {s' : State}
    (hm : Lands (Needs (r.require s.routines)) { s with routines := r.require s.routines } m
      fun _ _ => True)
    (h : (Lower.require r >>= fun _ => m).run s = .ok (a, s')) :
    s'.routines = r.require s.routines := by
  obtain ⟨u, t, ht, h⟩ := Lower.bind_eq_ok.1 h
  obtain rfl := Lower.require_eq_ok.1 ht
  exact (hm rfl a s' h).1

/-- A call of the library requires the function of its name, if there is one. -/
theorem routines_expand {f : Function} {b : Bound Expr} {x : Expr} {s' : State}
    (h : (Library.expand f b).run s = .ok (x, s')) :
    s'.routines = requireAll s.routines (Routine.ofName? f.name).toList := by
  have kept (hn : Routine.ofName? f.name = none) :
      s'.routines = requireAll s.routines (Routine.ofName? f.name).toList := by
    rw [hn]
    refine (Library.ofBindings_expand ofBindings_needs f (fun r hr => ?_) b _ s rfl x s' h).1
    rw [hn] at hr
    cases hr
  have holds {stem : String} (hs : Syntax.isHidden stem = true) (v : Expr) :=
    ofBindings_needs.helper hs v
  have lookUp {r : Routine} {args : List Expr} (h : (Library.lookUp r args).run s = .ok (x, s')) :
      s'.routines = r.require s.routines := by
    refine routines_require (m := do
      let args ← args.mapM (Lower.helper ("_" ++ r.name))
      return Expr.call r.name args) ?_ h
    exact ofBindings_needs.bind (ofBindings_needs.mapM fun a _ => holds (isHidden_underscore _) a)
      (fun _ _ => ofBindings_needs.pure _) _ _
  cases f with
  | crc32 | isInFile | mapFromFile => exact lookUp h
  | uniq =>
    refine routines_require (m := do
      let value ← Lower.helper "_uniq" (Library.arg b 1)
      return Expr.call "uniq" [Library.arg b 0, value]) ?_ h
    exact ofBindings_needs.bind (holds (by decide) _) (fun _ _ => ofBindings_needs.pure _) _ _
  | _ => exact kept (by decide)

end

/-! ### Along a lowering -/

namespace Lowering

variable {category : Option Category}

/-- Lowering requires what the calls on the way need, and nothing else. -/
theorem Lowers.routines {es : List Syntax.Expr} {s t : State} {xs : List Expr} {cs : List Call}
    (h : Lowers category es s xs t cs) :
    t.routines = requireAll s.routines (requirements cs) := by
  induction h with
  | nil | literal _ => rfl
  | cons _ _ ihx ihxs => rw [requirements_append, requireAll_append, ← ihx, ihxs]
  | name hx =>
    rw [(Lower.resolve_cases hx).1]
    rfl
  | @aggregate c _ _ a _ _ xs _ x u cs _ _ hx ih =>
    have hnone : requirements (cs ++ [.aggregate c a xs x u]) = requirements cs := by
      rw [requirements_append]
      exact List.append_nil _
    rw [hnone]
    exact ((Aggregation.ofBindings_expand c a xs ofBindings_needs _ _ rfl x u hx).1 : _ = _).trans ih
  | @library _ _ _ f _ _ _ _ _ _ _ b x v _ _ _ _ _ _ hx ihxs ihys =>
    have hcall : requirements [.library f b x v] = (Routine.ofName? f.name).toList := by
      rw [requirements, List.filterMap_cons, Call.routine?]
      cases Routine.ofName? f.name <;> rfl
    rw [requirements_append, requirements_append, hcall, requireAll_append,
      requireAll_append, ← ihxs, ← ihys]
    exact routines_expand hx
  | tuple _ _ ih | plain _ _ ih | subscript _ _ ih | unary _ ih | binary _ ih | boolean _ ih
  | comparison _ _ ih | membership _ _ _ _ ih | conditional _ ih => exact ih

theorem routines_lower {e : Syntax.Expr} {s t : State} {x : Expr}
    (h : (lower category e).run s = .ok (x, t)) :
    t.routines = requireAll s.routines (requirements (calls category e s)) :=
  (lowers_lower h).routines

end Lowering

/-! ### Along a program -/

namespace RowProgram

/-- Binding columns requires nothing. -/
theorem needs_bindField (needed : List Routine) (name : String) (s : State) :
    Lands (Needs needed) s (bindField name) fun _ _ => True := by
  refine lands_get ?_
  split
  · intro hi u s' hr
    obtain ⟨-, rfl⟩ := Lower.run_bind_eq_ok.1 hr
    exact ⟨hi, s.grows_bound _ _, trivial⟩
  · exact lands_pure fun _ => trivial

variable {schema : Schema}

theorem routines_bindStatement {source : String} {stmt : Stmt} {s s' : State} {u : Unit}
    (h : (bindStatement schema source stmt).run s = .ok (u, s')) :
    s'.routines = requireAll s.routines
      (requirements (Lowering.calls none (stmtExpr stmt) s)) := by
  rw [bindStatement] at h
  split at h
  · rename_i hall
    rw [calls_bare hall]
    exact (lands_forM (I := Needs s.routines) (fun n _ t => needs_bindField _ n t) rfl u s' h).1
  · split at h
    · rename_i hrest
      rw [calls_bare hrest]
      refine (lands_forM (I := Needs s.routines) (fun n _ t => ?_) rfl u s' h).1
      refine lands_get ?_
      split
      · exact lands_pure fun _ => trivial
      · exact needs_bindField _ n t
    · obtain ⟨p, t, hp, h⟩ := Lower.bind_eq_ok.1 h
      obtain ⟨-, rfl⟩ := Lower.run_bind_eq_ok.1 h
      obtain ⟨name, x, -, -, hx⟩ := Lowering.binding_eq_ok (Lower.noting_eq_ok.1 hp)
      exact (Lowering.routines_lower hx :)

/-- A program that filters and maps brings along what its calls need. -/
theorem routines_lowerAll {filters maps : List String} {filter : Option Expr} {s : State}
    (h : (lowerAll schema filters maps).run (.start schema) = .ok (filter, s)) :
    s.routines = requireAll [] (requirements (calls schema filters maps)) := by
  refine lowerAll_induct (Q := fun s cs => s.routines = requireAll [] (requirements cs)) h
    rfl (fun source _ stmt _ s s' cs hs hr => ?_) fun source _ stmt _ s s' cs x hs hr => ?_
  · rw [requirements_append, requireAll_append, ← hs]
    exact routines_bindStatement hr
  · rw [requirements_append, requireAll_append, ← hs]
    exact Lowering.routines_lower (Lowering.value_eq_ok hr)

end RowProgram

namespace GroupProgram

/-- A program that aggregates brings along what its calls need. -/
theorem routines_draft {schema : Schema} {key : Option String}
    {aggregates : List (Category × String)} {options : Options} {d : Draft}
    (h : draft schema key aggregates options = .ok d) :
    d.routines = requireAll [] (requirements (calls schema key aggregates options)) := by
  refine draft_induct (Q := fun d cs => d.routines = requireAll [] (requirements cs)) h rfl
    (fun stmt _ d d' cs hd hr => ?_) fun p _ stmt _ d d' cs hd hr => ?_
  · obtain ⟨value, state, i, j, hk⟩ := Draft.addKey_eq_ok hr
    rw [hk.routines, requirements_append, requireAll_append, ← hd]
    exact Lowering.routines_lower hk.lower
  · obtain ⟨name, value, state, ha⟩ := Draft.addStatement_eq_ok hr
    rw [ha.routines, requirements_append, requireAll_append, ← hd]
    exact Lowering.routines_lower ha.lower

end GroupProgram

end Compile

end RowAwk
