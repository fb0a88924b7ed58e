import RowAwk.Awk.Expr

/-!
What is below an expression.

The nodes of an expression are itself and all that can be reached from it, also through the
statements of its variables. A property that holds of every node passes from the parts of an
expression to the whole and back.
-/

open List

namespace RowAwk.Awk.Expr

/-! ### Nodes -/

attribute [local simp] nodes nodesAll

variable {x e : Expr} {n : String} {args : List Expr}

theorem mem_nodesAll : ∀ {es : List Expr}, x ∈ nodesAll es ↔ ∃ e ∈ es, x ∈ nodes e
  | [] => by simp
  | e :: es => by simp [mem_nodesAll]

/-- Expressions together with all that is below them. -/
def Downward (l : List Expr) : Prop := ∀ x ∈ l, x.nodes ⊆ l

theorem Downward.append {l m : List Expr} (hl : Downward l) (hm : Downward m) :
    Downward (l ++ m) := by
  intro x hx
  rcases mem_append.1 hx with hx | hx
  · exact List.Subset.trans (hl x hx) (subset_append_left l m)
  · exact List.Subset.trans (hm x hx) (subset_append_right l m)

theorem Downward.node {below : List Expr} (h : Downward below) (he : e.nodes = e :: below) :
    Downward e.nodes := by
  intro x hx
  rw [he] at hx ⊢
  rcases mem_cons.1 hx with rfl | hx
  · rw [he]
    exact List.Subset.refl _
  · exact List.Subset.trans (h x hx) (subset_cons_self e below)

theorem downward_nil : Downward [] := fun x hx => by cases hx

/-- What is below a part of an expression is below the expression. -/
theorem downward_nodes : ∀ e : Expr, Downward e.nodes := by
  refine nodes.induct (fun e => Downward e.nodes) (fun es => Downward (nodesAll es))
    ?const ?field ?assigned ?bound ?builtin ?sideEffect ?call ?subscript ?op ?conditional ?assign
    ?aggregate ?nil ?cons
  case const => exact fun _ => downward_nil.node (by rw [nodes])
  case field => exact fun _ _ _ => downward_nil.node (by rw [nodes])
  case assigned => exact fun _ _ _ ih => ih.node (by rw [nodes])
  case bound => exact fun _ _ hb ih => ih.node (by rw [nodes]; exact hb)
  case builtin => exact fun _ => downward_nil.node (by rw [nodes])
  case sideEffect => exact fun _ _ ih => ih.node (by rw [nodes])
  case call => exact fun _ _ ih => ih.node (by rw [nodes])
  case subscript => exact fun _ _ ihb ihi => (ihb.append ihi).node (by rw [nodes])
  case op => exact fun _ _ ih => ih.node (by rw [nodes])
  case conditional =>
    exact fun _ _ _ iht ihy ihn => ((iht.append ihy).append ihn).node (by rw [nodes])
  case assign => exact fun _ _ ih => ih.node (by rw [nodes])
  case aggregate => exact fun _ _ => downward_nil.node (by rw [nodes])
  case nil =>
    rw [nodesAll]
    exact downward_nil
  case cons =>
    intro e es ihe ihes
    rw [nodesAll]
    exact ihe.append ihes

theorem mem_nodes_self (e : Expr) : e ∈ e.nodes := by
  cases e with
  | var n b => cases b <;> simp
  | _ => simp

theorem mem_nodes_var {b : Expr} (h : x ∈ (Expr.var n b).nodes) : x = .var n b ∨ x ∈ b.nodes := by
  cases b with
  | assign target value =>
    simp only [nodes] at h ⊢
    exact (mem_cons.1 h).imp_right (mem_cons_of_mem _)
  | _ =>
    rw [nodes] at h
    · exact mem_cons.1 h
    · exact fun _ _ h => by cases h

theorem mem_nodes_call {f : String} {a : Expr} (h : a ∈ args) : a ∈ (Expr.call f args).nodes := by
  rw [nodes]
  exact mem_cons_of_mem _ (mem_nodesAll.2 ⟨a, h, mem_nodes_self a⟩)

theorem mem_nodes_op {o : Op} {a : Expr} (h : a ∈ args) : a ∈ (Expr.op o args).nodes := by
  rw [nodes]
  exact mem_cons_of_mem _ (mem_nodesAll.2 ⟨a, h, mem_nodes_self a⟩)

/-! ### Properties of every node -/

/-- A property holds of an expression and of all that is below it. -/
def EveryNode (Q : Expr → Prop) (e : Expr) : Prop := ∀ x ∈ e.nodes, Q x

section

variable {Q : Expr → Prop}

theorem forall_mem_nodesAll {es : List Expr} :
    (∀ x ∈ nodesAll es, Q x) ↔ ∀ e ∈ es, EveryNode Q e := by
  constructor
  · exact fun h e he x hx => h x (mem_nodesAll.2 ⟨e, he, hx⟩)
  · intro h x hx
    obtain ⟨e, he, hx⟩ := mem_nodesAll.1 hx
    exact h e he x hx

/-- A property of every node is one of the expression and of what is below it. -/
theorem everyNode_iff {e : Expr} {below : List Expr} (he : e.nodes = e :: below) :
    EveryNode Q e ↔ Q e ∧ ∀ x ∈ below, Q x := by
  rw [EveryNode, he, forall_mem_cons]

theorem everyNode_leaf {e : Expr} (he : e.nodes = [e]) : EveryNode Q e ↔ Q e := by
  rw [EveryNode, he, forall_mem_singleton]

@[simp]
theorem everyNode_const {c : Const} : EveryNode Q (.const c) ↔ Q (.const c) := everyNode_leaf rfl

variable {name : String} {args : List Expr}

@[simp]
theorem everyNode_field {position : Nat} {type : Schema.FieldType} :
    EveryNode Q (.field name position type) ↔ Q (.field name position type) :=
  everyNode_leaf rfl

@[simp]
theorem everyNode_builtin : EveryNode Q (.builtin name) ↔ Q (.builtin name) :=
  everyNode_leaf rfl

@[simp]
theorem everyNode_aggregate {a : Accumulator} :
    EveryNode Q (.aggregate a args) ↔ Q (.aggregate a args) :=
  everyNode_leaf rfl

@[simp]
theorem everyNode_sideEffect {cause : Expr} :
    EveryNode Q (.sideEffect name cause) ↔ Q (.sideEffect name cause) ∧ EveryNode Q cause :=
  everyNode_iff rfl

@[simp]
theorem everyNode_call {f : String} :
    EveryNode Q (.call f args) ↔ Q (.call f args) ∧ ∀ a ∈ args, EveryNode Q a := by
  rw [← forall_mem_nodesAll]
  exact everyNode_iff rfl

@[simp]
theorem everyNode_op {o : Op} :
    EveryNode Q (.op o args) ↔ Q (.op o args) ∧ ∀ a ∈ args, EveryNode Q a := by
  rw [← forall_mem_nodesAll]
  exact everyNode_iff rfl

@[simp]
theorem everyNode_subscript {base index : Expr} :
    EveryNode Q (.subscript base index)
      ↔ Q (.subscript base index) ∧ EveryNode Q base ∧ EveryNode Q index := by
  rw [everyNode_iff rfl, forall_mem_append]
  rfl

@[simp]
theorem everyNode_conditional {test yes no : Expr} :
    EveryNode Q (.conditional test yes no)
      ↔ Q (.conditional test yes no) ∧ EveryNode Q test ∧ EveryNode Q yes ∧ EveryNode Q no := by
  rw [everyNode_iff rfl, forall_mem_append, forall_mem_append, and_assoc]
  rfl

@[simp]
theorem everyNode_assign {target : String} {value : Expr} :
    EveryNode Q (.assign target value) ↔ Q (.assign target value) ∧ EveryNode Q value :=
  everyNode_iff rfl

theorem everyNode_var {n : String} {b : Expr} (hn : Q (.var n b)) (hb : EveryNode Q b) :
    EveryNode Q (.var n b) := by
  intro x hx
  rcases mem_nodes_var hx with rfl | hx
  · exact hn
  · exact hb x hx

end

/-! ### Variables -/

theorem mem_varNames : n ∈ e.varNames ↔ ∃ b, .var n b ∈ e.nodes := by
  rw [varNames, mem_filterMap]
  constructor
  · rintro ⟨x, hx, hn⟩
    cases x with
    | var m b =>
      cases hn
      exact ⟨b, hx⟩
    | _ => cases hn
  · rintro ⟨b, hb⟩
    exact ⟨.var n b, hb, rfl⟩

theorem varNames_binding (n : String) (b : Expr) : b.varNames ⊆ (Expr.var n b).varNames := by
  intro m hm
  obtain ⟨c, hc⟩ := mem_varNames.1 hm
  refine mem_varNames.2 ⟨c, ?_⟩
  cases b with
  | assign target value =>
    simp only [nodes] at hc ⊢
    rcases mem_cons.1 hc with hc | hc
    · cases hc
    · exact mem_cons_of_mem _ hc
  | _ =>
    rw [nodes]
    · exact mem_cons_of_mem _ hc
    · exact fun _ _ h => by cases h

/-- The variables that a variable's statement refers to are variables of the expression. -/
theorem varNames_subset {b : Expr} (h : .var n b ∈ e.nodes) : b.varNames ⊆ e.varNames := by
  intro m hm
  obtain ⟨c, hc⟩ := mem_varNames.1 (varNames_binding n b hm)
  exact mem_varNames.2 ⟨c, downward_nodes e _ h hc⟩

theorem varNames_of_mem (h : x ∈ e.nodes) : x.varNames ⊆ e.varNames := by
  intro m hm
  obtain ⟨c, hc⟩ := mem_varNames.1 hm
  exact mem_varNames.2 ⟨c, downward_nodes e x h hc⟩

end RowAwk.Awk.Expr
