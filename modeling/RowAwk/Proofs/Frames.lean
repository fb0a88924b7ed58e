import RowAwk.Proofs.Helpers
import RowAwk.Proofs.Materialization
import RowAwk.Proofs.Shapes

/-!
What statements look up and what they leave alone.

A statement sets the names that it writes, from the names that its parts look up. In a list of
statements that is `Staged`, each one looks up only what is there before it and sets only what is
new. Once such a list has run, each of its statements is steady: running it again changes nothing,
and neither does running a statement of the same text.

    _abs0 = ($1 - 1);  _min0 = _abs0;  …  _abs0 = ($1 - 1)
    looks up nothing   looks up _abs0     sets what is there
-/

open List

namespace RowAwk

namespace Awk.Expr

mutual

/-- The names that evaluating an expression looks up. -/
def reads : Expr → List String
  | .const _ => []
  | .field _ _ _ => []
  | .var name _ => [name]
  | .builtin name => [name]
  | .sideEffect name _ => [name]
  | .call _ args => readsAll args
  | .subscript base index => reads base ++ reads index
  | .op _ args => readsAll args
  | .conditional test yes no => reads test ++ (reads yes ++ reads no)
  | .assign _ value => reads value
  | .aggregate accumulator _ => [accumulator.name]

def readsAll : List Expr → List String
  | [] => []
  | e :: es => reads e ++ readsAll es

end

theorem mem_readsAll {x : String} : ∀ {es : List Expr}, x ∈ readsAll es ↔ ∃ e ∈ es, x ∈ reads e
  | [] => by simp [readsAll]
  | e :: es => by simp [readsAll, @mem_readsAll x es]

end Awk.Expr

namespace Awk.Machine

open Awk.Expr (reads readsAll)

variable {V : Type} {M : Machine V} {columns : Nat → V} {σ τ : Store V}

mutual

/-- The value of an expression depends on the names that it looks up. -/
theorem eval_congr : ∀ {e : Expr}, (∀ x ∈ reads e, σ x = τ x) →
    M.eval columns σ e = M.eval columns τ e
  | .const _, _ | .field _ _ _, _ => by rw [eval, eval]
  | .var name _, h | .builtin name, h | .sideEffect name _, h => by
    rw [eval, eval]
    exact h name (by simp [reads])
  | .call _ args, h | .op _ args, h => by rw [eval, eval, evalAll_congr h]
  | .subscript base index, h => by
    simp only [reads, forall_mem_append] at h
    rw [eval, eval, eval_congr h.1, eval_congr h.2]
  | .conditional test yes no, h => by
    simp only [reads, forall_mem_append] at h
    rw [eval, eval, eval_congr h.1, eval_congr h.2.1, eval_congr h.2.2]
  | .assign _ value, h => by
    rw [eval, eval]
    exact eval_congr (e := value) h
  | .aggregate accumulator _, h => by
    rw [eval, eval]
    exact h accumulator.name (by simp [reads])

theorem evalAll_congr : ∀ {es : List Expr}, (∀ x ∈ readsAll es, σ x = τ x) →
    M.evalAll columns σ es = M.evalAll columns τ es
  | [], _ => by rw [evalAll, evalAll]
  | e :: es, h => by
    simp only [readsAll, forall_mem_append] at h
    rw [evalAll, evalAll, eval_congr h.1, evalAll_congr h.2]

end

end Awk.Machine

namespace Compile

open Awk (Const Expr Machine Store)
open Awk.Expr (reads mem_readsAll)
open Awk.Machine

/-! ### Statements in stages -/

/-- The names that the parts of a statement look up. -/
def inputs : Expr → List String
  | .assign _ value =>
    match value.splitting? with
    | some (_, text, delim) => reads text ++ reads delim
    | none => reads value
  | .op .juxtapose [command, _, _, .builtin _] => reads command
  | _ => []

/-- What is there after some statements: the variables that awk sets, and what they set. -/
def Known (bs : List Expr) (x : String) : Prop := x ∈ awkVariables ∨ ∃ b ∈ bs, x ∈ writes b

/-- Each statement looks up only what is there before it, and sets only what is not. -/
inductive Staged : List Expr → Prop
  | nil : Staged []
  | snoc {bs b} : Staged bs → (∀ x ∈ inputs b, Known bs x) → (∀ x ∈ writes b, ¬Known bs x) →
      Staged (bs ++ [b])

section

variable {bs cs : List Expr} {b : Expr} {x : String}

theorem Known.mono (h : Known bs x) (hs : bs ⊆ cs) : Known cs x :=
  h.imp_right fun ⟨b, hb, hx⟩ => ⟨b, hs hb, hx⟩

theorem Known.of_mem (hb : b ∈ bs) (hx : x ∈ writes b) : Known bs x := .inr ⟨b, hb, hx⟩

theorem Staged.inputs_known (h : Staged bs) (hb : b ∈ bs) : ∀ x ∈ inputs b, Known bs x := by
  induction h with
  | nil => cases hb
  | snoc _ hi _ ih =>
    intro x hx
    refine Known.mono ?_ (subset_append_left _ _)
    rcases mem_append.1 hb with hb | hb
    · exact ih hb x hx
    · exact hi x (mem_singleton.1 hb ▸ hx)

end

section

variable {V : Type} {M : Machine V} {columns : Nat → V} {σ τ : Store V} {bs : List Expr} {b : Expr}

/-- The size of an array does not depend on what the array was. -/
theorem eval_filling {value text delim : Expr} {array : String}
    (h : value.splitting? = some (array, text, delim))
    (hst : (∀ x ∈ reads text, σ x = τ x) ∧ ∀ x ∈ reads delim, σ x = τ x) :
    M.eval columns σ value = M.eval columns τ value := by
  unfold Expr.splitting? at h
  split at h
  · split at h
    · rename_i hsplit
      cases h
      simp only [eval, evalAll, hsplit.1, splitting?_split hsplit.2,
        Option.isSome_some, apply, eval_congr hst.1, eval_congr hst.2]
    · cases h
  · cases h

/-- What a statement sets depends on the names that its parts look up. -/
theorem execute_congr (h : ∀ x ∈ inputs b, σ x = τ x) {x : String} (hx : x ∈ writes b) :
    M.execute columns σ b x = M.execute columns τ b x := by
  unfold writes at hx
  split at hx
  · rename_i target value
    rw [inputs] at h
    rw [execute, execute]
    cases heq : value.splitting? with
    | none =>
      simp only [heq, mem_singleton] at h hx ⊢
      rw [hx, Function.update_self, Function.update_self, eval_congr h]
    | some filled =>
      obtain ⟨array, text, delim⟩ := filled
      simp only [heq, forall_mem_append] at h hx ⊢
      rw [eval_filling heq h, eval_congr h.1, eval_congr h.2]
      by_cases hxt : x = target
      · rw [hxt, Function.update_self, Function.update_self]
      · simp only [mem_cons, hxt, not_mem_nil, or_false, false_or] at hx
        rw [Function.update_of_ne hxt, Function.update_of_ne hxt, hx, Function.update_self,
          Function.update_self]
  · rename_i command _ _ name
    rw [inputs] at h
    rw [mem_singleton.1 hx, execute, execute, Function.update_self,
      Function.update_self, eval_congr h]
  · cases hx

/-- What is there stays the same while further statements run. -/
theorem Staged.execute_eq (hw : ∀ x ∈ writes b, ¬Known bs x) {x : String} (hx : Known bs x) :
    M.execute columns σ b x = σ x :=
  execute_of_not_mem M columns σ fun hb => hw x hb hx

/-- After statements in stages each of them is steady: running it again sets what is there. -/
theorem Staged.steady (h : Staged bs) (hb : b ∈ bs) {x : String} (hx : x ∈ writes b) :
    M.execute columns (bs.foldl (M.execute columns) σ) b x
      = bs.foldl (M.execute columns) σ x := by
  induction h with
  | nil => cases hb
  | @snoc bs c hs hi hw ih =>
    rw [foldl_append, foldl_cons, foldl_nil]
    generalize bs.foldl (M.execute columns) σ = ρ at ih ⊢
    -- neither statement looks up what the last one sets
    have kept {y : String} (hy : Known bs y) : M.execute columns ρ c y = ρ y :=
      Staged.execute_eq hw hy
    rcases mem_append.1 hb with hb | hb
    · rw [execute_congr (fun y hy => kept (hs.inputs_known hb y hy)) hx, ih hb,
        kept (.of_mem hb hx)]
    · obtain rfl := mem_singleton.1 hb
      exact execute_congr (fun y hy => kept (hi y hy)) hx

/-- What statements in stages set depends on the variables of awk only. -/
theorem Staged.foldl_congr (h : Staged bs) (hst : ∀ x ∈ awkVariables, σ x = τ x) :
    ∀ x, Known bs x → bs.foldl (M.execute columns) σ x = bs.foldl (M.execute columns) τ x := by
  induction h with
  | nil =>
    rintro x (hx | ⟨b, hb, -⟩)
    · exact hst x hx
    · cases hb
  | @snoc bs c _ hi hw ih =>
    intro x hx
    rw [foldl_append, foldl_append, foldl_cons, foldl_nil, foldl_cons, foldl_nil]
    by_cases hxc : x ∈ writes c
    · exact execute_congr (fun y hy => ih y (hi y hy)) hxc
    · rw [execute_of_not_mem M columns _ hxc, execute_of_not_mem M columns _ hxc]
      rcases hx with hx | ⟨b, hb, hx⟩
      · exact ih x (.inl hx)
      · rcases mem_append.1 hb with hb | hb
        · exact ih x (.of_mem hb hx)
        · exact absurd (mem_singleton.1 hb ▸ hx) hxc

end

/-! ### Statements of one text -/

/-- Statements that set the same names from parts of the same texts. -/
inductive Alike (K : Expr → Prop) : Expr → Expr → Prop
  | assign {name v w} : K v → K w → v.text = w.text → Alike K (.assign name v) (.assign name w)
  | split {count array v w d e} : array ∉ awkVariables → K v → K w → K d → K e →
      v.text = w.text → d.text = e.text →
      Alike K (splitting count array v d) (splitting count array w e)
  | line {name c d} : K c → K d → c.text = d.text → Alike K (reading name c) (reading name d)

namespace Alike

variable {C : Const → Prop} {b c : Expr}

theorem text_eq {K : Expr → Prop} (h : Alike K b c) : b.text = c.text := by
  cases h with
  | assign _ _ ht => simp [Expr.text, ht]
  | split _ _ _ _ _ hv hd => simp [splitting, Expr.text, Expr.texts, hv, hd]
  | line _ _ ht => simp [reading, Expr.text, Expr.texts, ht]

theorem writes_eq (h : Alike (Expr.Lowered C) b c) : writes b = writes c := by
  cases h with
  | assign hv hw _ => simp only [writes, hv.splitting?, hw.splitting?]
  | split ha => rw [writes_splitting ha, writes_splitting ha]
  | line => rfl

/-- Statements of one text do the same. -/
theorem execute_eq {V : Type} {M : Machine V} (hM : M.NumbersTruth) {columns : Nat → V}
    {σ : Store V} (h : Alike (Expr.Lowered Const.Finite) b c) :
    M.execute columns σ b = M.execute columns σ c := by
  have value {x y : Expr} (hx : x.Lowered Const.Finite) (hy : y.Lowered Const.Finite)
      (ht : x.text = y.text) : M.eval columns σ x = M.eval columns σ y :=
    eval_eq_of_text_eq hM hx hy ht
  cases h with
  | assign hv hw ht => simp only [execute, hv.splitting?, hw.splitting?, value hv hw ht]
  | split ha hv hw hd he ht ht' =>
    simp only [splitting, execute, splitting?_split ha, eval, evalAll,
      Option.isSome_some, apply, value hv hw ht, value hd he ht']
  | line hc hd ht => simp only [reading, execute, value hc hd ht]

end Alike

/-- Helpers that set a common name have one text, whichever scopes they are bound in. -/
theorem Helper.alike {C : Const → Prop} (hC : ∀ c, C c → c.Written) {n : Namer} (hn : n.Sound)
    {name m x : String} {b c : Expr} (hb : Helper (Expr.Lowered C) n.entries name b)
    (hc : Helper (Expr.Lowered C) n.entries m c) (hx : x ∈ Compile.writes b)
    (hy : x ∈ Compile.writes c) : Alike (Expr.Lowered C) b c := by
  have hsplit : ∀ e : Expr, e.Lowered C → e.splitting? = none := fun _ h => h.splitting?
  -- an array is named together with the count of its parts
  have hname : name = m := by
    rcases hb.writes hsplit hx with rfl | ⟨key, i, j, rfl, rfl, hi, hj⟩ <;>
      rcases hc.writes hsplit hy with hxm | ⟨key', i', j', rfl, hxj, hi', hj'⟩
    · exact hxm
    · exact absurd hxj (hb.ne_array j')
    · exact absurd hxm.symm (hc.ne_array j)
    · obtain ⟨-, rfl⟩ := stem_number_inj (by decide) (by decide) hxj
      obtain rfl := hn.key_inj hj hj'
      rw [hn.number_inj hi hi']
  subst hname
  cases hb with
  | held hs hk hv =>
    obtain ⟨w, rfl, hw, hlw⟩ := hc.of_held hn hs hk
    exact .assign hv hlw hw.symm
  | split hi hj hv hd =>
    obtain ⟨w, e, rfl, hkey, hw, he⟩ := hc.of_split hn hi hj
    have hparts := Namer.keyOf_inj (by simp) (by simp) (by simp [hw.balanced hC, he.balanced hC])
      (by simp [hv.balanced hC, hd.balanced hC]) hkey
    simp only [List.cons.injEq, and_true] at hparts
    exact .split (not_mem_awkVariables (by decide) _) hv hw hd he hparts.1.symm hparts.2.symm
  | line hk hv =>
    obtain ⟨d, rfl, hd, hld⟩ := hc.of_line hn hk
    exact .line hv hld hd.symm

/-! ### Frames -/

section

variable {V : Type} {M : Machine V} {columns : Nat → V} {σ τ : Store V} {bs cs : List Expr}

/-- Statements that set nothing of what is there, or do what one of those before does, leave all of
    it alone. -/
theorem foldl_execute_eq (h : Staged bs) (hτ : ∀ x, Known bs x →
      τ x = bs.foldl (M.execute columns) σ x)
    (hcs : ∀ c ∈ cs, (∀ x ∈ writes c, ¬Known bs x) ∨
      ∃ b ∈ bs, ∀ τ, M.execute columns τ c = M.execute columns τ b) :
    ∀ x, Known bs x →
      cs.foldl (M.execute columns) τ x = bs.foldl (M.execute columns) σ x := by
  induction cs generalizing τ with
  | nil => exact hτ
  | cons c cs ih =>
    rw [foldl_cons]
    refine ih (fun x hx => ?_) fun c' hc' => hcs c' (mem_cons_of_mem c hc')
    rcases hcs c mem_cons_self with hw | ⟨b, hb, heq⟩
    · rw [Staged.execute_eq hw hx, hτ x hx]
    · rw [heq]
      by_cases hxb : x ∈ writes b
      · rw [execute_congr (fun y hy => hτ y (h.inputs_known hb y hy)) hxb, h.steady hb hxb]
      · rw [execute_of_not_mem M columns τ hxb, hτ x hx]

end

/-! ### Bindings in order are in stages -/

section

variable {n : Namer} {B : List (String × Expr)} {e b : Expr} {name : String}

/-- A value looks up what its bindings set. -/
theorem Value.reads_known (h : Value B e) (hB : Ordered n.entries B) :
    ∀ x ∈ reads e, Known (B.map Prod.snd) x := by
  have known {name x : String} {b : Expr} (hm : (name, b) ∈ B) (hx : x ∈ Compile.writes b) :
      Known (B.map Prod.snd) x := .of_mem (mem_map.2 ⟨_, hm, rfl⟩) hx
  intro x hx
  induction h with
  | const | field => cases hx
  | word hw => exact .inl (mem_singleton.1 hx ▸ hw)
  | var hm => exact known hm (mem_singleton.1 hx ▸ (hB.origin hm).mem_writes)
  | array ha hm =>
    refine known hm ?_
    rw [writes_splitting ha, mem_singleton.1 hx]
    simp
  | line hm => exact known hm hx
  | call _ ih | op _ _ ih =>
    obtain ⟨a, ha, hx⟩ := mem_readsAll.1 hx
    exact ih a ha hx
  | subscript _ _ ihb ihi => exact (mem_append.1 hx).elim ihb ihi
  | conditional _ _ _ iht ihy ihn =>
    exact (mem_append.1 hx).elim iht fun hx => (mem_append.1 hx).elim ihy ihn

/-- A statement looks up what the bindings before it set. -/
theorem Origin.inputs_known (h : Origin n.entries B name b) (hB : Ordered n.entries B) :
    ∀ x ∈ inputs b, Known (B.map Prod.snd) x := by
  rcases h.parts with ⟨v, rfl, hv⟩ | ⟨array, v, d, ha, -, rfl, hv, hd⟩ | ⟨c, rfl, hc⟩
  · rw [inputs, hv.splitting?]
    exact hv.reads_known hB
  · rw [splitting, inputs, splitting?_split ha]
    exact forall_mem_append.2 ⟨hv.reads_known hB, hd.reads_known hB⟩
  · exact hc.reads_known hB

end

end Compile

end RowAwk
