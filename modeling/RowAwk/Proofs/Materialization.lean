import RowAwk.Compile.RowProgram
import RowAwk.Proofs.Bindings
import RowAwk.Proofs.Evaluation
import RowAwk.Proofs.Nodes

/-!
A row program prints what its bindings mean.

The block that each row goes through computes only the variables that something refers to, those
of the filter first, and prints the others as the expressions they are. Running it in order gives
the same record as evaluating every output with all variables inlined.

    before:  the variables of the filter       each refers to variables above it
    if(filter)
      after: the variables of the outputs      not computed before
      print: a name if it is computed, else its value

A variable is `Settled` in a store that holds for its name what it means. A statement settles its
own variable if those it refers to are settled, and disturbs no other.
-/

open List

namespace RowAwk

open Awk (Expr Machine Store)
open Awk.Machine
open Awk.Expr

namespace Compile

open Awk.Expr (mem_varNames varNames_of_mem mem_nodes_self mem_nodes_call mem_nodes_op)

/-- The variables in an expression are bound to the statements that they carry. -/
def VarsIn (B : List (String × Expr)) (e : Expr) : Prop :=
  ∀ n b, .var n b ∈ e.nodes → (n, b) ∈ B

/-! ### Values -/

section

variable {B : List (String × Expr)} {e : Expr}

/-- A value never fills an array. -/
theorem Value.splitting? (h : Value B e) : e.splitting? = none := by
  unfold Expr.splitting?
  split
  · rename_i f text array delim
    refine if_neg ?_
    rintro ⟨rfl, hn⟩
    cases h with
    | call ha =>
      cases ha (.builtin array) (by simp) with
      | word hw => exact hn hw
  · rfl

theorem VarsIn.mono {B' : List (String × Expr)} (h : VarsIn B e) (hB : B ⊆ B') : VarsIn B' e :=
  fun n b hm => hB (h n b hm)

theorem varsIn_iff : VarsIn B e ↔ e.EveryNode fun x => ∀ n b, x = .var n b → (n, b) ∈ B := by
  constructor
  · rintro h x hx n b rfl
    exact h n b hx
  · exact fun h n b hm => h _ hm n b rfl

/-- The variables of a value are bound, if those of all bindings are. -/
theorem Value.varsIn (h : Value B e) (hB : ∀ n b, (n, b) ∈ B → VarsIn B (.var n b)) :
    VarsIn B e := by
  simp only [varsIn_iff] at hB ⊢
  induction h with
  | const | field | word => simp
  | var hb => exact hB _ _ hb
  | array _ hb | line hb => simpa using hB _ _ hb
  | call _ ih | op _ _ ih => simpa using ih
  | subscript _ _ ihb ihi => simpa using ⟨ihb, ihi⟩
  | conditional _ _ _ iht ihy ihn => simpa using ⟨iht, ihy, ihn⟩

end

/-! ### Bindings -/

section

variable {E : List (String × String × Nat)} {B : List (String × Expr)} {b : Expr} {name : String}

/-- The values that a binding is made of. -/
theorem Origin.parts (h : Origin E B name b) :
    (∃ v, b = .assign name v ∧ Value B v) ∨
      (∃ array v d, array ∉ awkVariables ∧ array ≠ name ∧ b = splitting name array v d ∧
        Value B v ∧ Value B d) ∨
      ∃ c, b = reading name c ∧ Value B c := by
  cases h with
  | source _ hv | held _ _ hv => exact .inl ⟨_, rfl, hv⟩
  | split _ _ hv hd =>
    refine .inr (.inl ⟨_, _, _, not_mem_awkVariables (by decide) _, ?_, rfl, hv, hd⟩)
    intro heq
    obtain ⟨hs, -⟩ := stem_number_inj (by decide) (by decide) heq
    exact absurd hs (by decide)
  | line _ hc => exact .inr (.inr ⟨_, rfl, hc⟩)

/-- The variables of a statement are bound before it. -/
theorem Origin.varsIn (h : Origin E B name b) (hB : ∀ n b, (n, b) ∈ B → VarsIn B (.var n b)) :
    VarsIn B b := by
  intro n c hm
  rcases h.parts with ⟨v, rfl, hv⟩ | ⟨array, v, d, -, -, rfl, hv, hd⟩ | ⟨cmd, rfl, hc⟩
  · rw [nodes] at hm
    rcases mem_cons.1 hm with hm | hm
    · cases hm
    · exact hv.varsIn hB n c hm
  · simp only [splitting, nodes, nodesAll, mem_cons, mem_append,
      not_mem_nil, or_false, reduceCtorEq, false_or] at hm
    rcases hm with hm | hm
    · exact hv.varsIn hB n c hm
    · exact hd.varsIn hB n c hm
  · simp only [reading, nodes, nodesAll, mem_cons, mem_append,
      not_mem_nil, or_false, reduceCtorEq, false_or] at hm
    exact hc.varsIn hB n c hm

/-- A variable occurs with the statement that it is bound to. -/
theorem Ordered.varsIn (h : Ordered E B) : ∀ n b, (n, b) ∈ B → VarsIn B (.var n b) := by
  induction h with
  | nil => intro n b hm; cases hm
  | @snoc B name b _ _ ho ih =>
    intro n c hm m d hd
    have hB : B ⊆ B ++ [(name, b)] := subset_append_left _ _
    rcases mem_append.1 hm with hm | hm
    · exact hB (ih n c hm m d hd)
    · obtain ⟨rfl, rfl⟩ := Prod.mk.inj (mem_singleton.1 hm)
      rcases mem_nodes_var hd with hd | hd
      · cases hd
        simp
      · exact hB (ho.varsIn ih m d hd)

/-- A statement refers only to bindings, and so do the statements of those. -/
theorem Ordered.varsIn_binding (h : Ordered E B) (hm : (name, b) ∈ B) : VarsIn B b :=
  (h.origin hm).varsIn h.varsIn

end

/-! ### What statements write -/

/-- The names that executing a statement sets. -/
def writes : Expr → List String
  | .assign target value =>
    match value.splitting? with
    | some (array, _, _) => [target, array]
    | none => [target]
  | .op .juxtapose [_, _, _, .builtin name] => [name]
  | _ => []

attribute [local simp] writes

theorem Value.writes {B : List (String × Expr)} {v : Expr} (h : Value B v) (name : String) :
    writes (.assign name v) = [name] := by
  rw [Compile.writes, h.splitting?]

variable {array : String}

theorem splitting?_split (ha : array ∉ awkVariables) (v d : Expr) :
    (Expr.call "split" [v, .builtin array, d]).splitting? = some (array, v, d) := by
  rw [Expr.splitting?, if_pos ⟨rfl, ha⟩]

theorem writes_splitting (ha : array ∉ awkVariables) (name : String) (v d : Expr) :
    writes (splitting name array v d) = [name, array] := by
  rw [splitting, writes, splitting?_split ha]

section

variable {n : Namer} {B B' : List (String × Expr)} {b c : Expr} {name m : String}
variable {K : Expr → Prop}
variable {x : String}

/-- A helper sets its own name, and perhaps the array that goes with it. -/
theorem Helper.writes (hK : ∀ e, K e → e.splitting? = none) (h : Helper K n.entries name b)
    (hx : x ∈ writes b) :
    x = name ∨ ∃ key, ∃ i j : Nat, name = "_spcnt" ++ toString i ∧ x = "_split" ++ toString j ∧
      ("_spcnt", key, i) ∈ n.entries ∧ ("_split", key, j) ∈ n.entries := by
  cases h with
  | held _ _ hv =>
    rw [Compile.writes, hK _ hv] at hx
    exact .inl (mem_singleton.1 hx)
  | split hc ha _ _ =>
    rw [writes_splitting (not_mem_awkVariables (by decide) _)] at hx
    rcases mem_cons.1 hx with rfl | hx
    · exact .inl rfl
    · exact .inr ⟨_, _, _, rfl, mem_singleton.1 hx, hc, ha⟩
  | line =>
    exact .inl (mem_singleton.1 hx)

theorem Helper.ne_array (h : Helper K n.entries name b) (j : Nat) :
    name ≠ "_split" ++ toString j := by
  intro heq
  cases h with
  | held hs _ _ =>
    obtain ⟨rfl, -⟩ := stem_number_inj (mem_stems hs.1) (by decide) heq
    exact absurd (by decide) hs.2
  | split | line =>
    obtain ⟨hs, -⟩ := stem_number_inj (by decide) (by decide) heq
    exact absurd hs (by decide)

/-- A statement sets its own name, and perhaps the array that goes with it. -/
theorem Origin.writes (h : Origin n.entries B name b) (hx : x ∈ writes b) :
    x = name ∨ ∃ key, ∃ i j : Nat, name = "_spcnt" ++ toString i ∧ x = "_split" ++ toString j ∧
      ("_spcnt", key, i) ∈ n.entries ∧ ("_split", key, j) ∈ n.entries := by
  rcases h.source_or_helper with ⟨-, v, rfl, hv⟩ | h
  · rw [hv.writes] at hx
    exact .inl (mem_singleton.1 hx)
  · exact h.writes (fun _ hv => hv.splitting?) hx

theorem Origin.mem_writes (h : Origin n.entries B name b) : name ∈ Compile.writes b := by
  rcases h.parts with ⟨v, rfl, hv⟩ | ⟨array, v, d, ha, -, rfl, -⟩ | ⟨cmd, rfl, -⟩
  · rw [hv.writes]
    exact mem_cons_self
  · rw [writes_splitting ha]
    exact mem_cons_self
  · exact mem_cons_self

theorem Origin.ne_array (h : Origin n.entries B name b) (j : Nat) :
    name ≠ "_split" ++ toString j := by
  rcases h.source_or_helper with ⟨hp, -⟩ | h
  · exact hp.ne_generated (by decide) j
  · exact h.ne_array j

theorem Origin.not_awk (h : Origin n.entries B name b) : name ∉ awkVariables := by
  cases h with
  | source hp _ => exact hp.notAwk
  | held hs _ _ => exact not_mem_awkVariables hs.1 _
  | split | line => exact not_mem_awkVariables (by decide) _

theorem Origin.writes_not_awk (h : Origin n.entries B name b) (hx : x ∈ Compile.writes b) :
    x ∉ awkVariables := by
  rcases h.writes hx with rfl | ⟨_, _, j, -, rfl, -⟩
  · exact h.not_awk
  · exact not_mem_awkVariables (by decide) j

/-- Statements of different names set different names. -/
theorem Origin.disjoint (hn : n.Sound) (hb : Origin n.entries B name b)
    (hc : Origin n.entries B' m c) (hne : name ≠ m) (hx : x ∈ Compile.writes b) :
    x ∉ Compile.writes c := by
  intro hy
  rcases hb.writes hx with rfl | ⟨key, i, j, rfl, rfl, hi, hj⟩ <;>
    rcases hc.writes hy with hxm | ⟨key', i', j', hm, hxj, hi', hj'⟩
  · exact hne hxm
  · exact hb.ne_array j' hxj
  · exact hc.ne_array j hxm.symm
  · obtain ⟨-, rfl⟩ := stem_number_inj (by decide) (by decide) hxj
    obtain rfl := hn.key_inj hj hj'
    obtain rfl := hn.number_inj hi hi'
    exact hne hm.symm

end

/-! ### Running statements -/

section

variable {V : Type} (M : Machine V) (columns : Nat → V) (words σ : Store V)

theorem execute_of_not_mem {x : String} (hx : x ∉ writes b) : M.execute columns σ b x = σ x := by
  unfold writes at hx
  unfold execute
  split
  · rename_i target value
    cases heq : value.splitting? with
    | some filled =>
      simp only [heq, mem_cons, not_mem_nil, or_false, not_or] at hx ⊢
      rw [Function.update_of_ne hx.1, Function.update_of_ne hx.2]
    | none =>
      simp only [heq, mem_cons, not_mem_nil, or_false] at hx ⊢
      rw [Function.update_of_ne hx]
  · rw [Function.update_of_ne (by simpa using hx)]
  · rfl

/-- A store holds for a variable what its statement means: its value, and the array that goes with
    it if there is one. -/
structure Settled (name : String) (b : Expr) : Prop where
  value : σ name = M.inlined columns words (.var name b)
  array : ∀ array v d, b = splitting name array v d → array ∉ awkVariables →
    σ array = M.parts (M.inlined columns words v) (M.inlined columns words d)

variable {M columns words σ}

theorem evalAll_eq_inlinedAll : ∀ {args : List Expr},
    (∀ a ∈ args, M.eval columns σ a = M.inlined columns words a) →
      M.evalAll columns σ args = M.inlinedAll columns words args
  | [], _ => by rw [evalAll, inlinedAll]
  | a :: args, h => by
    rw [evalAll, inlinedAll, h a mem_cons_self,
      evalAll_eq_inlinedAll fun x hx => h x (mem_cons_of_mem a hx)]

/-- Where the variables of a value are settled, awk computes what the value means. -/
theorem eval_eq_inlined {e : Expr} (he : Value B e) (hw : ∀ w ∈ awkVariables, σ w = words w)
    (hs : ∀ n b, (n, b) ∈ B → n ∈ e.varNames → Settled M columns words σ n b) :
    M.eval columns σ e = M.inlined columns words e := by
  induction he with
  | const | field => rw [eval, inlined]
  | word hm =>
    rw [eval, inlined]
    exact hw _ hm
  | @var n b hb =>
    rw [eval]
    exact (hs n b hb (mem_varNames.2 ⟨b, mem_nodes_self _⟩)).value
  | @array n array v d ha hb =>
    rw [eval, splitting, inlined]
    refine (hs n _ hb (mem_varNames.2 ⟨splitting n array v d, ?_⟩)).array array v d rfl ha
    rw [nodes]
    exact mem_cons_of_mem _ (mem_nodes_self _)
  | @line n c hb =>
    rw [eval, reading, inlined]
    refine (hs n _ hb (mem_varNames.2 ⟨reading n c, ?_⟩)).value.trans ?_
    · rw [nodes]
      exact mem_cons_of_mem _ (mem_nodes_self _)
    · rw [reading, inlined]
  | call _ ih =>
    rw [eval, inlined, evalAll_eq_inlinedAll]
    intro a ha
    exact ih a ha fun n b hb hn => hs n b hb (varNames_of_mem (mem_nodes_call ha) hn)
  | subscript _ _ ihb ihi =>
    rw [eval, inlined, ihb, ihi]
    · exact fun n b hb hn => hs n b hb (varNames_of_mem (by
        rw [nodes]; simp [mem_nodes_self]) hn)
    · exact fun n b hb hn => hs n b hb (varNames_of_mem (by
        rw [nodes]; simp [mem_nodes_self]) hn)
  | op _ _ ih =>
    rw [eval, inlined, evalAll_eq_inlinedAll]
    intro a ha
    exact ih a ha fun n b hb hn => hs n b hb (varNames_of_mem (mem_nodes_op ha) hn)
  | @conditional test yes no _ _ _ iht ihy ihn =>
    have below {x : Expr} (hx : x = test ∨ x = yes ∨ x = no) :
        x ∈ (Expr.conditional test yes no).nodes := by
      rw [nodes]
      rcases hx with rfl | rfl | rfl <;> simp [mem_nodes_self]
    rw [eval, inlined, iht, ihy, ihn]
    · exact fun n b hb hn => hs n b hb (varNames_of_mem (below (.inr (.inr rfl))) hn)
    · exact fun n b hb hn => hs n b hb (varNames_of_mem (below (.inr (.inl rfl))) hn)
    · exact fun n b hb hn => hs n b hb (varNames_of_mem (below (.inl rfl)) hn)

variable {n : Namer} {B : List (String × Expr)} {b : Expr} {name : String}

/-- A statement settles its own variable. -/
theorem settled_execute (ho : Origin n.entries B name b)
    (hw : ∀ w ∈ awkVariables, σ w = words w)
    (hs : ∀ m c, (m, c) ∈ B → m ∈ b.varNames → Settled M columns words σ m c) :
    Settled M columns words (M.execute columns σ b) name b := by
  have part {v : Expr} (hv : Value B v) (hm : v ∈ b.nodes) :
      M.eval columns σ v = M.inlined columns words v :=
    eval_eq_inlined hv hw fun m c hc hn => hs m c hc (varNames_of_mem hm hn)
  rcases ho.parts with ⟨v, rfl, hv⟩ | ⟨array, v, d, ha, hne, rfl, hv, hd⟩ | ⟨c, rfl, hc⟩
  · have hin : v ∈ (Expr.assign name v).nodes := by
      rw [nodes]
      exact mem_cons_of_mem _ (mem_nodes_self v)
    constructor
    · rw [execute, hv.splitting?, Function.update_self, inlined, part hv hin]
    · intro array u d heq ha
      rw [splitting] at heq
      cases heq
      have := hv.splitting?
      rw [splitting?_split ha] at this
      cases this
  · have hcall : Expr.call "split" [v, .builtin array, d] ∈ (splitting name array v d).nodes := by
      rw [splitting, nodes]
      exact mem_cons_of_mem _ (mem_nodes_self _)
    have hv := part hv (downward_nodes _ _ hcall (mem_nodes_call (by simp)))
    have hd := part hd (downward_nodes _ _ hcall (mem_nodes_call (by simp)))
    have hsize : M.eval columns σ (.call "split" [v, .builtin array, d])
        = M.inlined columns words (.call "split" [v, .builtin array, d]) := by
      simp only [eval, inlined, evalAll, inlinedAll,
        splitting?_split ha, Option.isSome_some, apply, hv, hd]
    constructor
    · rw [splitting, execute, Function.update_self, inlined, hsize]
    · intro array' v' d' heq _
      rw [splitting, splitting] at heq
      cases heq
      rw [splitting, execute, Function.update_of_ne hne, splitting?_split ha]
      show Function.update σ array _ array = _
      rw [Function.update_self, hv, hd]
  · have hin : c ∈ (reading name c).nodes := mem_nodes_op (by simp)
    constructor
    · rw [reading, execute, Function.update_self, inlined, part hc hin]
    · intro array v d heq _
      rw [splitting, reading] at heq
      cases heq

/-- A statement disturbs no variable of another name. -/
theorem Settled.execute {m : String} {c : Expr} (hn : n.Sound) (hb : Origin n.entries B name b)
    (hc : Origin n.entries B m c) (hne : name ≠ m) (hs : Settled M columns words σ m c) :
    Settled M columns words (M.execute columns σ b) m c := by
  have kept {x : String} (hx : x ∈ writes c) : M.execute columns σ b x = σ x :=
    execute_of_not_mem M columns σ fun hx' => hb.disjoint hn hc hne hx' hx
  constructor
  · rw [kept hc.mem_writes, hs.value]
  · rintro array v d rfl ha
    rw [kept, hs.array array v d rfl ha]
    rw [writes_splitting ha]
    simp

/-- The store after the statements of those bindings that are chosen, in order. -/
def computing (M : Machine V) (columns : Nat → V) (chosen : String → Bool)
    (B : List (String × Expr)) (σ : Store V) : Store V :=
  ((B.filter fun p => chosen p.1).map Prod.snd).foldl (M.execute columns) σ

/-- Computing variables in order settles them, and those that were settled before stay so, if each
    refers only to variables of either kind. -/
theorem settled_computing (hn : n.Sound) (hB : Ordered n.entries B) {chosen : String → Bool}
    (before : String → Prop) (hσ : ∀ m c, (m, c) ∈ B → before m → Settled M columns words σ m c)
    (hw : ∀ w ∈ awkVariables, σ w = words w)
    (hclosed : ∀ m c, (m, c) ∈ B → chosen m = true → ∀ x ∈ c.varNames, chosen x = true ∨ before x) :
    (∀ m c, (m, c) ∈ B → before m ∨ chosen m = true →
        Settled M columns words (computing M columns chosen B σ) m c) ∧
      ∀ w ∈ awkVariables, computing M columns chosen B σ w = words w := by
  -- Along the bindings made so far; what was settled before is so for all of `B`.
  suffices along : ∀ A, Ordered n.entries A → A ⊆ B →
      (∀ m c, (m, c) ∈ B → before m → Settled M columns words (computing M columns chosen A σ) m c) ∧
      (∀ m c, (m, c) ∈ A → chosen m = true →
        Settled M columns words (computing M columns chosen A σ) m c) ∧
      ∀ w ∈ awkVariables, computing M columns chosen A σ w = words w by
    obtain ⟨h₁, h₂, h₃⟩ := along B hB (List.Subset.refl B)
    refine ⟨fun m c hm hc => ?_, h₃⟩
    rcases hc with hc | hc
    · exact h₁ m c hm hc
    · exact h₂ m c hm hc
  intro A hA
  induction hA with
  | nil => exact fun _ => ⟨hσ, fun m c hm => by (cases hm), hw⟩
  | @snoc A name b _ _ ho ih =>
    intro hsub
    have hAB : A ⊆ B := fun p hp => hsub (mem_append_left _ hp)
    have hbB : (name, b) ∈ B := hsub (mem_append_right _ mem_cons_self)
    obtain ⟨h₁, h₂, h₃⟩ := ih hAB
    cases hch : chosen name with
    | false =>
      have same : computing M columns chosen (A ++ [(name, b)]) σ = computing M columns chosen A σ := by
        simp [computing, filter_append, hch]
      rw [same]
      refine ⟨h₁, fun m c hm hc => ?_, h₃⟩
      rcases mem_append.1 hm with hm | hm
      · exact h₂ m c hm hc
      · cases mem_singleton.1 hm
        rw [hch] at hc
        cases hc
    | true =>
      have next : computing M columns chosen (A ++ [(name, b)]) σ
          = M.execute columns (computing M columns chosen A σ) b := by
        simp [computing, filter_append, hch]
      rw [next]
      have own :
          Settled M columns words (M.execute columns (computing M columns chosen A σ) b) name b := by
        refine settled_execute ho h₃ fun m c hm hx => ?_
        rcases hclosed name b hbB hch m hx with hm' | hm'
        · exact h₂ m c hm hm'
        · exact h₁ m c (hAB hm) hm'
      have others {m : String} {c : Expr} (hm : (m, c) ∈ B)
          (hs : Settled M columns words (computing M columns chosen A σ) m c) :
          Settled M columns words (M.execute columns (computing M columns chosen A σ) b) m c := by
        by_cases hne : name = m
        · subst hne
          rw [hB.eq_of_mem hm hbB]
          exact own
        · exact hs.execute hn (hB.origin hbB) (hB.origin hm) hne
      refine ⟨fun m c hm hc => others hm (h₁ m c hm hc), fun m c hm hc => ?_, fun w hw' => ?_⟩
      · rcases mem_append.1 hm with hm | hm
        · exact others (hAB hm) (h₂ m c hm hc)
        · cases mem_singleton.1 hm
          exact own
      · rw [execute_of_not_mem M columns _ fun hx => ho.writes_not_awk hx hw', h₃ w hw']

end

/-! ### Projections -/

section

variable {n : Namer} {B : List (String × Expr)} {b c : Expr} {name m : String}
variable {stem : String}

theorem isInternal_number (hs : stem ∈ libraryStems) (i : Nat) :
    Syntax.isInternal (stem ++ toString i) = false :=
  isInternal_of_isGenerated (isGenerated_number hs i)

theorem isHidden_number (hs : stem ∈ libraryStems) (i : Nat) :
    Syntax.isHidden (stem ++ toString i) = true := by
  have key : ∀ stem ∈ libraryStems, ∀ cs, ['_'].isPrefixOf (stem.toList ++ cs) = true := by
    intro stem hm cs
    fin_cases hm <;> rfl
  rw [Syntax.isHidden, String.toList_append]
  exact key stem hs _

theorem Origin.notInternal (h : Origin n.entries B name b) : Syntax.isInternal name = false := by
  rcases h.source_or_helper with ⟨hp, -⟩ | hb
  · exact hp.notInternal
  · exact isInternal_of_isGenerated hb.isGenerated

/-- What is printed was bound by a source. -/
theorem Origin.of_shown (h : Origin n.entries B name b) (hn : Syntax.isHidden name = false) :
    ∃ v, b = .assign name v ∧ Value B v := by
  have shown {stem : String} (hs : stem ∈ libraryStems) (i : Nat)
      (hi : Syntax.isHidden (stem ++ toString i) = false) : False := by
    rw [isHidden_number hs] at hi
    cases hi
  cases h with
  | source _ hv | held _ _ hv => exact ⟨_, rfl, hv⟩
  | split | line => exact (shown (by decide) _ hn).elim

/-- The name that a statement is bound to. -/
def target? : Expr → Option String
  | .assign name _ => some name
  | .op .juxtapose [_, _, _, .builtin name] => some name
  | _ => none

theorem Origin.target? (h : Origin n.entries B name b) : target? b = some name := by
  rcases h.parts with ⟨v, rfl, -⟩ | ⟨array, v, d, -, -, rfl, -⟩ | ⟨cmd, rfl, -⟩
  · rfl
  · rfl
  · rfl

end

namespace Projection

/-- Whether a variable is computed for some expressions, if others are computed already. -/
def wanted (exprs : List Expr) (computed : List String) (name : String) : Bool :=
  !Syntax.isInternal name && (exprs.flatMap Expr.varNames).contains name && !computed.contains name

theorem needed_eq (s : Scope) (exprs : List Expr) (computed : List String) :
    needed s exprs computed
      = (s.bindings.filter fun p => wanted exprs computed p.1).map Prod.snd := rfl

theorem wanted_iff {exprs : List Expr} {computed : List String} {name : String}
    (hn : Syntax.isInternal name = false) :
    wanted exprs computed name = true ↔
      name ∈ exprs.flatMap Expr.varNames ∧ name ∉ computed := by
  simp [wanted, hn]

variable {n : Namer} {s : Scope}

/-- Each statement is computed once. -/
theorem nodup_needed (hB : Ordered n.entries s.bindings) (early all : List Expr) :
    (needed s early [] ++ needed s all (early.flatMap Expr.varNames)).Nodup := by
  have inj : ∀ {m m' b}, (m, b) ∈ s.bindings → (m', b) ∈ s.bindings → m = m' := by
    intro m m' b hm hm'
    have := (hB.origin hm).target?.symm.trans (hB.origin hm').target?
    exact Option.some.inj this
  have each (p : String × Expr → Bool) : ((s.bindings.filter p).map Prod.snd).Nodup := by
    refine List.Nodup.map_on ?_ ((List.Nodup.of_map _ hB.nodup).filter p)
    rintro ⟨m, b⟩ hm ⟨m', b'⟩ hm' rfl
    rw [inj (mem_of_mem_filter hm) (mem_of_mem_filter hm')]
  rw [needed_eq, needed_eq]
  refine (each _).append (each _) ?_
  intro b hb hb'
  obtain ⟨⟨m, _⟩, hm, rfl⟩ := mem_map.1 hb
  obtain ⟨⟨m', _⟩, hm', rfl⟩ := mem_map.1 hb'
  obtain ⟨hm, hw⟩ := mem_filter.1 hm
  obtain ⟨hm', hw'⟩ := mem_filter.1 hm'
  obtain rfl := inj hm hm'
  have hi := (hB.origin hm).notInternal
  exact ((wanted_iff hi).1 hw').2 ((wanted_iff hi).1 hw).1

section

variable {V : Type} {M : Machine V} {columns : Nat → V} {σ : Store V}
variable {early : List Expr} {words : Store V}

/-- The variables of a filter are settled before the filter is tested. -/
theorem settled_before (M : Machine V) (columns : Nat → V) (σ : Store V) (hn : n.Sound)
    (hB : Ordered n.entries s.bindings) (he : ∀ e ∈ early, Value s.bindings e) :
    (∀ m c, (m, c) ∈ s.bindings → m ∈ early.flatMap Expr.varNames →
        Settled M columns σ ((needed s early []).foldl (M.execute columns) σ) m c) ∧
      ∀ w ∈ awkVariables, (needed s early []).foldl (M.execute columns) σ w = σ w := by
  have hclosed : ∀ m c, (m, c) ∈ s.bindings → wanted early [] m = true →
      ∀ x ∈ c.varNames, wanted early [] x = true ∨ False := by
    intro m c hm hw x hx
    obtain ⟨e, hmem, hme⟩ := mem_flatMap.1
      ((wanted_iff (hB.origin hm).notInternal).1 hw).1
    obtain ⟨b, hb⟩ := mem_varNames.1 hme
    obtain rfl := hB.eq_of_mem ((he e hmem).varsIn hB.varsIn m b hb) hm
    obtain ⟨d, hd⟩ := mem_varNames.1 hx
    have hxB := hB.varsIn_binding hm x d hd
    refine .inl ((wanted_iff (hB.origin hxB).notInternal).2 ⟨?_, by simp⟩)
    exact mem_flatMap.2 ⟨e, hmem, varNames_subset hb hx⟩
  obtain ⟨hs, hw⟩ := settled_computing (M := M) (σ := σ) hn hB (fun _ => False)
    (fun _ _ _ h => h.elim) (fun _ _ => rfl) hclosed
  refine ⟨fun m c hm hme => hs m c hm (.inr ?_), hw⟩
  exact (wanted_iff (hB.origin hm).notInternal).2 ⟨hme, by simp⟩

/-- The variables of all bindings are settled before they are printed. -/
theorem settled_after (hn : n.Sound) (hB : Ordered n.entries s.bindings)
    (hσ : ∀ m c, (m, c) ∈ s.bindings → m ∈ early.flatMap Expr.varNames →
      Settled M columns words σ m c) (hw : ∀ w ∈ awkVariables, σ w = words w) :
    let σ' := (needed s (s.bindings.map Prod.snd) (early.flatMap Expr.varNames)).foldl
      (M.execute columns) σ
    (∀ m c, (m, c) ∈ s.bindings → m ∈ (early ++ s.bindings.map Prod.snd).flatMap Expr.varNames →
        Settled M columns words σ' m c) ∧
      ∀ w ∈ awkVariables, σ' w = words w := by
  have split {m : String} (hi : Syntax.isInternal m = false)
      (hm : m ∈ (early ++ s.bindings.map Prod.snd).flatMap Expr.varNames) :
      m ∈ early.flatMap Expr.varNames ∨
        wanted (s.bindings.map Prod.snd) (early.flatMap Expr.varNames) m = true := by
    by_cases hme : m ∈ early.flatMap Expr.varNames
    · exact .inl hme
    · rw [flatMap_append, mem_append] at hm
      exact .inr ((wanted_iff hi).2 ⟨hm.resolve_left hme, hme⟩)
  have hclosed : ∀ m c, (m, c) ∈ s.bindings →
      wanted (s.bindings.map Prod.snd) (early.flatMap Expr.varNames) m = true →
      ∀ x ∈ c.varNames, wanted (s.bindings.map Prod.snd) (early.flatMap Expr.varNames) x = true ∨
        x ∈ early.flatMap Expr.varNames := by
    intro m c hm _ x hx
    obtain ⟨d, hd⟩ := mem_varNames.1 hx
    have hxB := hB.varsIn_binding hm x d hd
    refine (split (hB.origin hxB).notInternal ?_).symm
    rw [flatMap_append]
    refine mem_append_right _ (mem_flatMap.2 ⟨c, ?_, hx⟩)
    exact mem_map.2 ⟨(m, c), hm, rfl⟩
  obtain ⟨hs, hw'⟩ := settled_computing hn hB _ hσ hw hclosed
  exact ⟨fun m c hm hme => hs m c hm (split (hB.origin hm).notInternal hme), hw'⟩

theorem run_computeLine (statements : List Expr) (rest : Awk.Block Awk.Line Awk.Head) :
    (M.run columns σ (computeLine statements ++ rest)).2
      = (M.run columns (statements.foldl (M.execute columns) σ) rest).2 := by
  cases statements with
  | nil => rfl
  | cons b bs => simp [computeLine, run, runItem]

theorem run_print (values : List Expr) :
    (M.run columns σ [.line (.print values)]).2 = [M.evalAll columns σ values] := by
  simp [run, runItem]

theorem evalAll_map {α : Type} (f : α → Expr) : ∀ xs : List α,
    M.evalAll columns σ (xs.map f) = xs.map fun x => M.eval columns σ (f x)
  | [] => by rw [map_nil, map_nil, evalAll]
  | x :: xs => by rw [map_cons, map_cons, evalAll, evalAll_map f xs]

/-- What is printed for an output is its value with all variables inlined. -/
theorem eval_printed (hB : Ordered n.entries s.bindings) {exprs : List Expr}
    (hs : ∀ m c, (m, c) ∈ s.bindings →
      m ∈ (exprs ++ s.bindings.map Prod.snd).flatMap Expr.varNames → Settled M columns words σ m c)
    (hw : ∀ w ∈ awkVariables, σ w = words w) {name : String} {b : Expr}
    (hm : (name, b) ∈ outputs s) :
    M.eval columns σ
        (printed ((exprs ++ s.bindings.map Prod.snd).flatMap Expr.varNames) name b)
      = M.inlined columns words b.boundValue := by
  obtain ⟨hm, hshown⟩ := mem_filter.1 hm
  obtain ⟨v, rfl, hv⟩ := (hB.origin hm).of_shown (by simpa using hshown)
  rw [printed]
  split
  · rename_i hc
    rw [eval, (hs name _ hm (contains_iff_mem.1 hc)).value, inlined]
    rfl
  · refine eval_eq_inlined hv hw fun m c hc hx => hs m c hc ?_
    rw [flatMap_append]
    refine mem_append_right _ (mem_flatMap.2 ⟨_, mem_map.2 ⟨_, hm, rfl⟩, ?_⟩)
    refine varNames_of_mem ?_ hx
    rw [nodes]
    exact mem_cons_of_mem _ (mem_nodes_self v)

/-- A projection prints the values of its outputs for the rows that pass the filter. -/
theorem run_block (hn : n.Sound) (hB : Ordered n.entries s.bindings) {filter : Option Expr}
    (hf : ∀ e ∈ filter, Value s.bindings e) {order : List Schema.Order} {p : Projection}
    (hp : Projection.of s filter order = .ok p) :
    (M.run columns σ p.block).2
      = if filter.all fun e => M.truth (M.inlined columns σ e) then
          [(outputs s).map fun b => M.inlined columns σ b.2.boundValue]
        else [] := by
  have hearly : ∀ e ∈ filter.toList, Value s.bindings e := fun e he =>
    hf e (Option.mem_toList.1 he)
  obtain ⟨h₁, hw₁⟩ := settled_before M columns σ hn hB hearly
  obtain ⟨h₂, hw₂⟩ := settled_after hn hB h₁ hw₁
  rw [Projection.of] at hp
  split at hp
  · cases hp
  cases hp
  have hvalues := (outputs s).map_congr_left fun b hb => eval_printed hB h₂ hw₂ hb
  cases filter with
  | none =>
    simp only [run_computeLine, run_print, evalAll_map, Option.all_none, if_true]
    rw [hvalues]
  | some test =>
    have htest : M.eval columns _ test = M.inlined columns σ test :=
      eval_eq_inlined (hf test rfl) hw₁ fun m c hc hm => h₁ m c hc (by simpa using hm)
    simp only [run_computeLine, run, runItem, Option.all_some, append_nil]
    rw [htest]
    split
    · rw [run_computeLine, run_print, evalAll_map, hvalues]
    · rfl

end

theorem computed_computeLine (statements : List Expr) (rest : Awk.Block Awk.Line Awk.Head) :
    Awk.Block.computed (computeLine statements ++ rest)
      = statements ++ Awk.Block.computed rest := by
  cases statements with
  | nil => rfl
  | cons b bs => simp [computeLine, Awk.Block.computed, Awk.Item.computed]

/-- A projection computes no statement twice. -/
theorem nodup_computed (hB : Ordered n.entries s.bindings) {filter : Option Expr}
    {order : List Schema.Order} {p : Projection} (hp : Projection.of s filter order = .ok p) :
    (Awk.Block.computed p.block).Nodup := by
  have hd := nodup_needed hB filter.toList (s.bindings.map Prod.snd)
  rw [Projection.of] at hp
  split at hp
  · cases hp
  cases hp
  cases filter with
  | none | some test => simpa [computed_computeLine, Awk.Block.computed, Awk.Item.computed] using hd

end Projection

/-! ### Row programs -/

namespace RowProgram

/-- The names that a statement of a projection binds. -/
def boundBy (schema : Schema) : Syntax.Stmt → List String
  | .assign target _ => [target.text]
  | .value e =>
    match e.asName? with
    | some name =>
      if name = allFields ∨ name = restFields then schema.fieldNames else [name]
    | none => []

/-- The names that the sources of a projection bind. -/
def boundNames (schema : Schema) (maps : List String) : List String :=
  (if maps.isEmpty then [allFields] else maps).flatMap fun source =>
    match parseSource source with
    | .ok stmts => stmts.flatMap (boundBy schema)
    | .error _ => []

variable {schema : Schema} {s : State}

theorem lands_get {α : Type} {I : State → Prop} {f : State → Lower α} {Q : State → α → Prop}
    (h : Lands I s (f s) Q) : Lands I s (get >>= f) Q := by
  intro hi a s' hr
  obtain ⟨t, t', hg, hr⟩ := Lower.bind_eq_ok.1 hr
  cases hg
  exact h hi a s' hr

/-- Binding a new name of the kind `N` to an expression with the property `K` keeps the invariant
    `I`. -/
def Binds (I : State → Prop) (K : State → Expr → Prop) (N : String → Prop) : Prop :=
  ∀ s name v, N name → s.scope.binding? name = none → K s v → I s →
    I (s.bound name (.assign name v))

namespace Binds

variable {P : Syntax.Literal → Prop} {I : State → Prop} {K : State → Expr → Prop}
variable {N : String → Prop}
variable {name source : String} {stmt : Syntax.Stmt}

theorem bind (h : Binds I K N) (hn : N name) {v : Expr} (hv : K s v) :
    Lands I s (Lower.bind name (.assign name v)) fun _ _ => True := by
  intro hi u s' hr
  obtain ⟨hb, rfl⟩ := Lower.run_bind_eq_ok.1 hr
  exact ⟨h s name v hn hb hv hi, s.grows_bound _ _, trivial⟩

theorem bindField (h : Binds I K N) (hc : Closed P I K) (hn : N name) :
    Lands I s (bindField name) fun _ _ => True := by
  refine lands_get ?_
  split
  · rename_i field hf
    exact h.bind hn (hc.field hf)
  · exact lands_pure fun _ => trivial

theorem bindRest (h : Binds I K N) (hc : Closed P I K) (hn : N name) :
    Lands I s (bindRest name) fun _ _ => True := by
  refine lands_get ?_
  split
  · exact lands_pure fun _ => trivial
  · exact h.bindField hc hn

/-- A statement binds one of its names to what its expression lowers to. -/
theorem binding (hc : Closed P I K) (schema : Schema) (hw : stmt.WellFormed P)
    (hd : bareName? stmt ≠ some allFields ∧ bareName? stmt ≠ some restFields) :
    Lands I s (Lowering.binding none stmt) fun s p =>
      ∃ name v, p = (name, .assign name v) ∧ name ∈ boundBy schema stmt ∧ K s v := by
  refine (Closed.binding hw fun e he => hc.lowerRow he s).imp ?_
  rintro p s' - - ⟨name, v, rfl, hname, hv⟩
  refine ⟨name, v, rfl, ?_, hv⟩
  cases stmt with
  | assign target e =>
    cases hname
    exact mem_singleton.2 rfl
  | value e =>
    rw [boundName?] at hname
    simp only [bareName?, hname, ne_eq, Option.some.injEq] at hd
    simp [boundBy, hname, hd]

theorem directive (hn : ∀ n ∈ boundBy schema stmt, N n)
    (hd : bareName? stmt = some allFields ∨ bareName? stmt = some restFields) :
    ∀ n ∈ schema.fieldNames, N n := by
  cases stmt with
  | assign target e => rcases hd with hd | hd <;> cases hd
  | value e =>
    rcases hd with hd | hd <;>
      · simp only [bareName?] at hd
        simpa [boundBy, hd] using hn

theorem bindStatement (h : Binds I K N) (hc : Closed P I K) (hw : stmt.WellFormed P)
    (hn : ∀ n ∈ boundBy schema stmt, N n) :
    Lands I s (bindStatement schema source stmt) fun _ _ => True := by
  rw [RowProgram.bindStatement]
  split
  · rename_i hall
    exact lands_forM fun n hm _ => h.bindField hc (directive hn (.inl hall) n hm)
  · rename_i hall
    split
    · rename_i hrest
      exact lands_forM fun n hm _ => h.bindRest hc (directive hn (.inr hrest) n hm)
    · rename_i hrest
      refine (binding hc schema hw ⟨hall, hrest⟩).noting.bind fun p s' _ _ hp => ?_
      obtain ⟨name, v, rfl, hname, hv⟩ := hp
      exact h.bind (hn name hname) hv

theorem bindSource (h : Binds I K N) (hc : Closed Syntax.Literal.Spelt I K)
    (hn : ∀ stmts, parseSource source = .ok stmts → ∀ n ∈ stmts.flatMap (boundBy schema), N n) :
    Lands I s (bindSource schema source) fun _ _ => True := by
  refine (lands_lift (Q := fun _ stmts => parseSource source = .ok stmts) fun _ hp _ => hp).bind
    fun stmts s' _ _ hp => ?_
  refine lands_forM fun stmt hm _ => h.bindStatement hc (wellFormed_parseSource hp stmt hm) ?_
  exact fun n hb => hn stmts hp n (mem_flatMap.2 ⟨stmt, hm, hb⟩)

end Binds

section

variable {P : Syntax.Literal → Prop} {I : State → Prop} {K : State → Expr → Prop}

theorem lands_value (hc : Closed P I K) {stmt : Syntax.Stmt} (hw : stmt.WellFormed P) :
    Lands I s (Lowering.value stmt) K := by
  cases stmt with
  | assign target e => exact lands_fail.noting
  | value e => exact hc.lowerRow hw s

theorem lands_conditions (hc : Closed Syntax.Literal.Spelt I K) (source : String) :
    Lands I s (conditions source) fun s xs => ∀ x ∈ xs, K s x := by
  refine (lands_lift (Q := fun _ stmts => parseSource source = .ok stmts) fun _ hp _ => hp).bind
    fun stmts s' _ _ hp => ?_
  refine (lands_mapM (P := fun _ _ => True) (Q := K) (fun _ _ _ _ h => h)
    (fun _ _ _ hg h => hc.grows hg h) ?_ fun _ _ => trivial).imp fun _ _ _ _ h => h.2
  exact fun stmt hm _ _ => (lands_value hc (wellFormed_parseSource hp stmt hm)).noting

theorem holds_conjunction (hc : Closed P I K) {tests : List Expr} (h : ∀ t ∈ tests, K s t) :
    ∀ e ∈ conjunction tests, K s e := by
  intro e he
  cases tests with
  | nil => cases he
  | cons test rest =>
    cases rest with
    | nil =>
      cases he
      exact h _ mem_cons_self
    | cons test' rest =>
      cases he
      exact hc.op (by simp [Fits]) h

/-- What is closed under lowering and binding holds of the filter that a program ends up with. -/
theorem Binds.lowerAll {N : String → Prop} (h : Binds I K N) (hc : Closed Syntax.Literal.Spelt I K)
    {filters maps : List String} (hn : ∀ n ∈ boundNames schema maps, N n) :
    Lands I s (lowerAll schema filters maps) fun s filter => ∀ e ∈ filter, K s e := by
  unfold RowProgram.lowerAll
  refine (lands_forM fun source hm _ => h.bindSource hc fun stmts hp n hb => ?_).bind
    fun _ s₁ _ _ _ => ?_
  · refine hn n (mem_flatMap.2 ⟨source, hm, ?_⟩)
    rw [hp]
    exact hb
  · refine (lands_mapM (P := fun _ _ => True) (Q := fun s xs => ∀ x ∈ xs, K s x)
      (fun _ _ _ _ h => h) (fun _ _ _ hg h x hx => hc.grows hg (h x hx))
      (fun source _ _ _ => lands_conditions hc source) fun _ _ => trivial).bind
      fun tests s₂ _ _ ht => ?_
    refine lands_pure fun _ => holds_conjunction hc fun t hm => ?_
    obtain ⟨xs, hxs, hx⟩ := mem_flatten.1 hm
    exact ht.2 xs hxs t hx

end

variable {filters maps : List String}

theorem compile_eq_ok {c : Compiled} (h : compile schema filters maps = .ok c) :
    ∃ filter state projection derived,
      (lowerAll schema filters maps).run (.start schema) = .ok (filter, state) ∧
      Projection.of state.scope filter schema.order = .ok projection ∧
      projection.schema (if filter.isNone then schema.size else none) schema.metadata
        = .ok derived ∧
      c = ⟨⟨state.routines, [.line .separator], projection.block, []⟩, derived⟩ := by
  obtain ⟨⟨filter, state⟩, hl, h⟩ := except_bind_eq_ok.1 h
  obtain ⟨projection, hp, h⟩ := except_bind_eq_ok.1 h
  obtain ⟨derived, hd, h⟩ := except_bind_eq_ok.1 h
  cases h
  exact ⟨filter, state, projection, derived, hl, hp, hd, rfl⟩

theorem binds_scoped : Binds Scoped (fun s e => Value s.scope.bindings e) Plain :=
  fun _ _ _ hn hb hv hi => hi.bound hb (.source hn hv)

theorem lands_lowerAll (hn : ∀ n ∈ boundNames schema maps, Plain n) :
    Lands Scoped s (lowerAll schema filters maps) fun s filter =>
      ∀ e ∈ filter, Value s.scope.bindings e :=
  binds_scoped.lowerAll (closed_value Syntax.Literal.spelt_string Syntax.Literal.spelt_digit) hn

/-- Running the block of a compiled program on a row prints nothing where the filter with all
    variables inlined is false, and otherwise one record: the values, with all variables inlined,
    of the bindings that are printed, in order. No statement is computed twice. -/
theorem compile_prints_inlined {filters maps : List String} {c : Compiled}
    (hc : compile schema filters maps = .ok c) (hn : ∀ n ∈ boundNames schema maps, Plain n) :
    ∃ filter state, (lowerAll schema filters maps).run (.start schema) = .ok (filter, state) ∧
      (Awk.Block.computed c.program.row).Nodup ∧
      ∀ (V : Type) (M : Machine V) (columns : Nat → V) (σ : Store V),
        (M.run columns σ c.program.row).2
          = if filter.all fun test => M.truth (M.inlined columns σ test) then
              [(state.scope.bindings.filter fun b => !Syntax.isHidden b.1).map fun b =>
                M.inlined columns σ b.2.boundValue]
            else [] := by
  obtain ⟨filter, state, projection, derived, hl, hp, hd, rfl⟩ := compile_eq_ok hc
  obtain ⟨hs, -, hf⟩ := lands_lowerAll hn (Scoped.start schema) filter state hl
  refine ⟨filter, state, hl, Projection.nodup_computed hs.bindings hp, fun V M columns σ => ?_⟩
  exact Projection.run_block hs.namer hs.bindings hf hp

/-- Two columns, for an example. -/
def twoColumns : Schema := ⟨[⟨"a", .any⟩, ⟨"b", .int⟩], [], none, []⟩

/-- A program whose filter and outputs share a variable, with a chain of bindings and a split. -/
theorem compile_prints_inlined_twoColumns :
    ∃ c filter state,
      compile twoColumns ["abs(a + 1) > b"]
        ["x = abs(a + 1) * 2; _y = x - b; z = _y + x; n = unjoin(',', a, 1)"] = .ok c ∧
      (lowerAll twoColumns ["abs(a + 1) > b"]
        ["x = abs(a + 1) * 2; _y = x - b; z = _y + x; n = unjoin(',', a, 1)"]).run
          (.start twoColumns) = .ok (filter, state) ∧
      (Awk.Block.computed c.program.row).Nodup ∧
      ∀ (V : Type) (M : Machine V) (columns : Nat → V) (σ : Store V),
        (M.run columns σ c.program.row).2
          = if filter.all fun test => M.truth (M.inlined columns σ test) then
              [(state.scope.bindings.filter fun b => !Syntax.isHidden b.1).map fun b =>
                M.inlined columns σ b.2.boundValue]
            else [] := by
  simp only [exists_and_left]
  exact exists_ok_of (by decide +kernel) fun c hc => compile_prints_inlined hc (by decide +kernel)

end RowProgram

end Compile

end RowAwk
