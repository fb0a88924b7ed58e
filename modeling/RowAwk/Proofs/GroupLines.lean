import RowAwk.Proofs.Flush
import RowAwk.Proofs.Running

/-!
The lines of grouping programs at work.

All variables of a program live in one store, and each kind of line sets variables of its own kind:

    head of a row               helpers
    row keys, taking over       the keys of the row, the keys of the group
    init, update, finish        the names of one accumulator
    printing                    what outputs refer to, among it helpers, which then stay the same

The names of keys and accumulators have two underscores in front, those of helpers have one. So what
one line sets stays until a line of its own kind sets it again.
-/

open List

namespace RowAwk.Compile

open Awk (Category Const Engine Expr Fold Head Job Key Line Machine Moment Row Store)
open Schema (Order)
open Syntax (isInternal)
open Awk.Engine

/-! ### Assignments -/

section

variable {V : Type} {M : Machine V} {columns : Nat → V} {σ : Store V} {x : String}

theorem foldl_execute_of_not_mem {cs : List Expr} (hx : ∀ c ∈ cs, x ∉ writes c) :
    cs.foldl (M.execute columns) σ x = σ x := by
  induction cs generalizing σ with
  | nil => rfl
  | cons c cs ih =>
    rw [foldl_cons, ih fun c' hc' => hx c' (mem_cons_of_mem c hc'),
      execute_of_not_mem M columns σ (hx c mem_cons_self)]

variable {α : Type} {as : List α} {n : α → String} {v : α → Expr}

theorem foldl_assign_of_not_mem (hs : ∀ a ∈ as, (v a).splitting? = none)
    (hx : x ∉ as.map n) :
    as.foldl (fun σ a => M.execute columns σ (.assign (n a) (v a))) σ x = σ x := by
  rw [← foldl_map (f := fun a => Expr.assign (n a) (v a)) (g := M.execute columns)]
  refine foldl_execute_of_not_mem fun c hc hw => hx ?_
  obtain ⟨a, ha, rfl⟩ := mem_map.1 hc
  rw [writes, hs a ha, mem_singleton] at hw
  exact hw ▸ mem_map_of_mem ha

/-- Assignments that do not look each other up have the values from before them. -/
theorem foldl_assign_of_mem (hd : (as.map n).Nodup)
    (hs : ∀ a ∈ as, (v a).splitting? = none)
    (hr : ∀ a ∈ as, ∀ x ∈ (v a).reads, x ∉ as.map n) {a : α} (ha : a ∈ as) :
    as.foldl (fun σ a => M.execute columns σ (.assign (n a) (v a))) σ (n a)
      = M.eval columns σ (v a) := by
  induction as generalizing σ with
  | nil => cases ha
  | cons b as ih =>
    rw [map_cons, nodup_cons] at hd
    rw [forall_mem_cons] at hs
    have hexecute : M.execute columns σ (.assign (n b) (v b))
        = Function.update σ (n b) (M.eval columns σ (v b)) := by
      simp only [Machine.execute, hs.1]
    rw [foldl_cons, hexecute]
    rcases mem_cons.1 ha with rfl | ha
    · rw [foldl_assign_of_not_mem hs.2 hd.1, Function.update_self]
    · rw [ih hd.2 hs.2 (fun c hc x hx hm => hr c (mem_cons_of_mem b hc) x hx
        (mem_cons_of_mem _ hm)) ha]
      refine Machine.eval_congr fun x hx => Function.update_of_ne ?_ _ _
      rintro rfl
      exact hr a (mem_cons_of_mem b ha) _ hx mem_cons_self

end

/-! ### Printing -/

/-- What printing without a filter does: the variables that outputs refer to are computed, and one
    record is printed. -/
theorem Projection.runBlock_of {V : Type} {E : Engine V} {columns : Nat → V} {s : Scope}
    {order : List Order} {p : Projection} (h : Projection.of s none order = .ok p) (j : Job V) :
    E.runBlock columns j p.block =
      let τ := (needed s (s.bindings.map Prod.snd) []).foldl (E.execute columns) j.store
      { j with
        store := τ
        printed := j.printed ++ [⟨τ, (outputs s).map fun b => E.eval columns τ
          (printed ((s.bindings.map Prod.snd).flatMap Expr.varNames) b.1 b.2)⟩] } := by
  rw [Projection.of] at h
  split at h
  · cases h
  cases h
  have hnone : needed s [] [] = [] := by simp [needed]
  have hline (statements : List Expr) (j : Job V) :
      E.runBlock columns j (computeLine statements)
        = { j with store := statements.foldl (E.execute columns) j.store } := by
    cases statements with
    | nil => rfl
    | cons b bs => simp [computeLine, runBlock, runItem, effect, output]
  simp only [Option.toList_none, hnone, nil_append, flatMap_nil]
  rw [runBlock_append, runBlock_append, hline, hline]
  simp only [runBlock, runItem, effect, output, foldl_nil, evalAll_map]

namespace GroupProgram.Draft

/-- The names of keys, of the group and of the row. -/
def OfKey (d : Draft) (x : String) : Prop := ∃ k ∈ d.keys, x = k.name ∨ x = k.rowName

/-- A draft of sources that bind names of some kind: what the head of a row computes, how keys and
    accumulators are named, and what statements are bound to. -/
structure Settled (U : String → Prop) (d : Draft) : Prop where
  grounded : d.Grounded
  lawful : d.Lawful
  hygienic : d.Hygienic Const.Written U

variable {C : Const → Prop} {U : String → Prop} {d : Draft} {n x : String} {b : Expr} {f : Fold}

/-! ### Names -/

theorem IsKey.ofKey (h : d.IsKey x) : d.OfKey x := h.imp fun _ hk => ⟨hk.1, .inl hk.2.symm⟩

theorem Lawful.ofKey_stem (h : d.Lawful) (hx : d.OfKey x) :
    ∃ stem ∈ ["__key", "__row_key"], ∃ i : Nat, x = stem ++ toString i := by
  obtain ⟨k, hk, hx⟩ := hx
  obtain ⟨-, i, j, hi, hj, -⟩ := h.keys.named k hk
  rcases hx with rfl | rfl
  · exact ⟨"__key", by simp, i, hi⟩
  · exact ⟨"__row_key", by simp, j, hj⟩

theorem Lawful.ofKey_internal (h : d.Lawful) (hx : d.OfKey x) : isInternal x = true := by
  obtain ⟨stem, hs, i, rfl⟩ := h.ofKey_stem hx
  rw [isInternal, String.toList_append]
  fin_cases hs <;> rfl

theorem isInternal_stem (c : Category) (rest : String) : isInternal (c.stem ++ rest) = true := by
  rw [isInternal, String.toList_append]
  cases c <;> rfl

/-- No accumulator owns the name of a key. -/
theorem Lawful.not_owns (h : d.Lawful) (hf : f ∈ d.folds) (hx : d.OfKey x) : f.owns x = false := by
  obtain ⟨stem, hs, i, rfl⟩ := h.ofKey_stem hx
  obtain ⟨c, -, j, hname⟩ := h.of_mem_folds hf
  rw [Fold.owns, hname, Bool.or_eq_false_iff, beq_eq_false_iff_ne, String.toList_append,
    String.toList_append]
  constructor
  · intro heq
    have := congrArg String.toList heq
    rw [String.toList_append] at this
    fin_cases hs <;> cases this
  · fin_cases hs <;> cases c <;> rfl

/-- Accumulators own names of the machinery only. -/
theorem Lawful.isInternal_of_owns (h : d.Lawful) (hf : f ∈ d.folds) (hx : f.owns x = true) :
    isInternal x = true := by
  obtain ⟨c, -, j, hname⟩ := h.of_mem_folds hf
  rw [Fold.owns, hname, Bool.or_eq_true, beq_iff_eq, isPrefixOf_iff_prefix] at hx
  rcases hx with rfl | ⟨rest, hx⟩
  · decide
  · have hx : x = c.stem ++ (toString j ++ String.ofList rest) := by
      rw [← String.toList_inj, ← hx]
      simp [append_assoc]
    rw [hx, isInternal_stem]

/-- What the head of a row sets are no names of the machinery. -/
theorem Hygienic.known_not_internal (h : d.Hygienic C U) (hx : Known d.helpers x) :
    isInternal x = false := by
  rcases hx with hw | ⟨b, hb, hx⟩
  · have key : ∀ w ∈ awkVariables, isInternal w = false := by decide
    exact key x hw
  · exact isInternal_of_isGenerated (h.isGenerated hb hx)

/-- What a binding of the outputs sets: its own name, or an array beside it. -/
theorem Hygienic.writes_out (h : d.Hygienic C U) (hm : (n, b) ∈ d.outScope.bindings)
    (hx : x ∈ writes b) : x = n ∨ ∃ j : Nat, x = "_split" ++ toString j := by
  cases h.out n b hm with
  | source _ hv =>
    rw [writes, hv.splitting?] at hx
    exact .inl (mem_singleton.1 hx)
  | helper hb =>
    exact (hb.writes (fun _ h => h.splitting?) hx).imp_right fun ⟨_, _, j, _, hj, _⟩ => ⟨j, hj⟩

/-! ### Variables for the outputs -/

/-- The statements that compute the variables that outputs refer to. -/
def computing (d : Draft) : List Expr :=
  Projection.needed d.outScope (d.outScope.bindings.map Prod.snd) []

/-- Whether a variable is computed for the outputs. -/
def isComputed (d : Draft) (name : String) : Bool :=
  Projection.wanted (d.outScope.bindings.map Prod.snd) [] name

theorem computing_eq (d : Draft) :
    d.computing = (d.outScope.bindings.filter fun q => d.isComputed q.1).map Prod.snd := rfl

theorem isInternal_of_isComputed (h : d.isComputed x = true) : isInternal x = false := by
  cases hi : isInternal x with
  | false => rfl
  | true => simp [isComputed, Projection.wanted, hi] at h

theorem mem_computing (h : b ∈ d.computing) :
    ∃ name, (name, b) ∈ d.outScope.bindings ∧ isInternal name = false := by
  rw [computing_eq] at h
  obtain ⟨⟨n, b⟩, hm, rfl⟩ := mem_map.1 h
  obtain ⟨hm, hc⟩ := mem_filter.1 hm
  exact ⟨n, hm, isInternal_of_isComputed hc⟩

section

variable {V : Type} {E : Engine V} {M : Machine V} {columns : Nat → V} {σ τ : Store V}

/-- Computing variables leaves the names of the machinery alone. -/
theorem Hygienic.computing_internal (h : d.Hygienic C U) (hx : isInternal x = true) :
    d.computing.foldl (M.execute columns) σ x = σ x := by
  refine foldl_execute_of_not_mem fun c hc hw => ?_
  obtain ⟨n, hm, hi⟩ := mem_computing hc
  rcases h.writes_out hm hw with rfl | ⟨j, rfl⟩
  · rw [hi] at hx
    cases hx
  · rw [isInternal_number (by decide)] at hx
    cases hx

/-! ### The lines of a program -/

variable (d) in
/-- Takes over the keys of the row. -/
def takeOverLines : Awk.Block Line Head := d.keys.map fun k => .line (.takeOver k)

variable {options : Options} {print : Awk.Block Line Head}

variable (d print) in
/-- Finishes the accumulators and prints. -/
def flushLines : Awk.Block Line Head := finishLines d.folds ++ print

variable (d) in
/-- Computes the variables and the keys of a row. -/
def arriveLines : Awk.Block Line Head :=
  d.helpers.map (fun s => .line (.prepare s)) ++ d.keys.map fun k => .line (.rowKey k)

variable (d options print) in
/-- What is done on a row with other keys. -/
def changeLines : Awk.Block Line Head :=
  (if options.exposeGroups then [] else d.flushLines print) ++ d.takeOverLines
    ++ initLines d.groupFolds

variable (d options print) in
/-- Goes over to the keys of the row. -/
def switchLines : Awk.Block Line Head :=
  [.head .firstRow d.takeOverLines,
    .head .laterRow [.head (.keyChanged d.keys) (d.changeLines options print)]]

theorem program_start :
    (d.program options print).start = [.line .separator] ++ initLines d.folds := by
  simp [program, folds, initLines]

/-- The block that a row goes through. -/
theorem program_row :
    (d.program options print).row
      = d.arriveLines ++ d.switchLines options print ++ updateLines d.folds
        ++ if options.exposeGroups then d.flushLines print else [] := by
  simp [program, arriveLines, switchLines, changeLines, flushLines, takeOverLines, folds,
    updateLines]

theorem program_finish :
    (d.program options print).finish
      = if options.exposeGroups then [] else [.head .anyRow (d.flushLines print)] := by
  simp [program, flushLines, folds]

variable {j : Job V} {row : Row V} {order : List Order} {p : Projection}

theorem run_initLines (fs : List Fold) :
    E.runBlock columns j (initLines fs)
      = { j with store := E.effects columns Line.init fs j.store } :=
  runBlock_lines Line.init (fun _ _ => Line.noConfusion) fs

theorem run_updateLines (fs : List Fold) :
    E.runBlock columns j (updateLines fs)
      = { j with store := E.effects columns Line.update fs j.store } :=
  runBlock_lines Line.update (fun _ _ => Line.noConfusion) fs

variable (d E σ) in
/-- Whether the keys of the row are others than those of the group. -/
def changed : Bool := d.keys.any fun k => E.differs (σ k.name) (σ k.rowName)

/-- The first row starts a group, and so does each row with other keys than its group. -/
theorem run_switchLines :
    E.runBlock columns j (d.switchLines options print)
      = if j.rows = 1 then { E.runBlock columns j d.takeOverLines with taken := false }
        else if d.changed E j.store then
          { E.runBlock columns { j with taken := false } (d.changeLines options print) with
            taken := true }
        else { j with taken := true } := by
  by_cases h₁ : j.rows = 1
  · simp [switchLines, runBlock, runItem, passes, h₁]
  · cases h₂ : d.changed E j.store <;> rw [changed] at h₂ <;>
      simp only [switchLines, runBlock, runItem, passes, h₁, h₂, decide_false, Bool.not_false,
        Bool.false_eq_true, if_true, if_false]

/-! ### What the lines set -/

variable (d E columns σ) in
/-- The store when a group is printed. -/
def flushed : Store V :=
  d.computing.foldl (E.execute columns) (E.effects columns Line.finish
    (d.folds.filter fun f => f.accumulator.finish.isSome) σ)

variable (d E columns σ) in
/-- What is printed for a group. -/
def flushing : Moment V where
  store := d.flushed E columns σ
  record := (Projection.outputs d.outScope).map fun b => E.eval columns (d.flushed E columns σ)
    (Projection.printed ((d.outScope.bindings.map Prod.snd).flatMap Expr.varNames) b.1 b.2)

theorem run_flushLines (hp : Projection.of d.outScope none order = .ok p) :
    E.runBlock columns j (d.flushLines p.block) =
      { j with
        store := d.flushed E columns j.store
        printed := j.printed ++ [d.flushing E columns j.store] } := by
  rw [flushLines, runBlock_append, finishLines,
    runBlock_lines Line.finish (fun _ _ => Line.noConfusion), Projection.runBlock_of hp]
  rfl

/-- Lines of accumulators leave keys alone, and all that is no name of the machinery. -/
theorem Lawful.effects_eq (h : d.Lawful) {line : Fold → Line} (hl : ∀ f, (line f).fold? = some f)
    {fs : List Fold} (hfs : fs ⊆ d.folds) (hx : d.OfKey x ∨ isInternal x = false) :
    E.effects columns line fs σ x = σ x := by
  refine Engine.effects_eq (fun f hf => effect_of_not_owns (hl f) ?_) σ
  rcases hx with hx | hx
  · exact h.not_owns (hfs hf) hx
  · cases howns : f.owns x with
    | false => rfl
    | true =>
      rw [h.isInternal_of_owns (hfs hf) howns] at hx
      cases hx

/-- The keys are the same when a group is printed. -/
theorem Settled.flushed_ofKey (h : d.Settled U) (hx : d.OfKey x) :
    d.flushed E columns σ x = σ x := by
  rw [flushed, h.hygienic.computing_internal (h.lawful.ofKey_internal hx),
    h.lawful.effects_eq (fun _ => rfl) (filter_subset_self _) (.inl hx)]

/-- The keys of the row have become those of the group. -/
structure TakenOver (d : Draft) (σ τ : Store V) : Prop where
  key : ∀ k ∈ d.keys, τ k.name = σ k.rowName
  others : ∀ x, ¬d.IsKey x → τ x = σ x

variable (E columns) in
theorem Lawful.run_takeOverLines (h : d.Lawful) (j : Job V) :
    ∃ τ, E.runBlock columns j d.takeOverLines = { j with store := τ } ∧ d.TakenOver j.store τ := by
  refine ⟨_, runBlock_lines Line.takeOver (fun _ _ => Line.noConfusion) _, fun k hk => ?_, fun x hx => ?_⟩
  · have hvalue : d.keys.foldl
        (fun σ k => E.execute columns σ (.assign k.name (.var k.rowName k.compute))) j.store k.name
          = E.eval columns j.store (.var k.rowName k.compute) := by
      refine foldl_assign_of_mem h.keys.nodup (fun _ _ => rfl) (fun k hk x hx hm => ?_) hk
      obtain rfl := mem_singleton.1 hx
      obtain ⟨k', hk', heq⟩ := mem_map.1 hm
      exact h.keys.disjoint k' hk' k hk heq
    rw [Machine.eval] at hvalue
    exact hvalue
  · refine foldl_assign_of_not_mem (M := E.toMachine) (n := Key.name)
      (v := fun k => .var k.rowName k.compute) (fun _ _ => rfl) fun hm => hx ?_
    exact mem_map.1 hm

variable (d E) in
/-- The variables of a row once its helpers are computed. -/
def head (row : Row V) : Store V := d.helpers.foldl (E.execute row.columns) row.words

variable (E) in
/-- A store has the helpers of a row. -/
def Fresh (d : Draft) (row : Row V) (σ : Store V) : Prop :=
  ∀ x, Known d.helpers x → σ x = d.head E row x

/-- What keys and arguments of aggregates are in a store with the helpers of a row. -/
theorem Settled.eval_taken (h : d.Settled U) (hσ : d.Fresh E row σ) {e : Expr}
    (he : e ∈ d.keys.map Key.value ++ d.folds.flatMap Fold.args) :
    E.eval row.columns σ e = E.eval row.columns (d.head E row) e :=
  Machine.eval_congr fun x hx =>
    hσ x (h.grounded.taken_known (fun _ h => h) h.hygienic he x hx)

variable (E) in
/-- A store in which a row has arrived: its helpers and its keys are computed, and other names of the
    machinery are as before. -/
structure Arrived (d : Draft) (row : Row V) (σ τ : Store V) : Prop where
  fresh : d.Fresh E row τ
  rowKey : ∀ k ∈ d.keys, τ k.rowName = E.eval row.columns (d.head E row) k.value
  others : ∀ x, isInternal x = true → x ∉ d.keys.map Key.rowName → τ x = σ x

theorem Arrived.isKey (h : d.Arrived E row σ τ) (hd : d.Lawful) (hx : d.IsKey x) : τ x = σ x := by
  refine h.others x (hd.ofKey_internal hx.ofKey) fun hm => ?_
  obtain ⟨k, hk, rfl⟩ := hx
  obtain ⟨k', hk', heq⟩ := mem_map.1 hm
  exact hd.keys.disjoint k hk k' hk' heq.symm

variable (E) in
/-- At the head of a row its helpers and its keys are computed. -/
theorem Settled.run_arriveLines (h : d.Settled U) (j : Job V) (row : Row V) :
    ∃ τ, E.runBlock row.columns (arrive row j) d.arriveLines
        = { j with rows := j.rows + 1, store := τ } ∧ d.Arrived E row j.store τ := by
  generalize hρ : d.helpers.foldl (E.execute row.columns) (arrive row j).store = ρ
  have hfresh : d.Fresh E row ρ := by
    intro x hx
    rw [← hρ]
    exact (h.grounded.staged (fun _ h => h) h.hygienic).1.foldl_congr (fun x hx => if_pos hx) x hx
  have hs : ∀ k ∈ d.keys, k.value.splitting? = none := fun k hk => (h.grounded.keys k hk).splitting?
  have hrow {x : String} (hx : Known d.helpers x) : x ∉ d.keys.map Key.rowName := by
    intro hm
    obtain ⟨k, hk, rfl⟩ := mem_map.1 hm
    have hi := h.lawful.ofKey_internal ⟨k, hk, .inr rfl⟩
    rw [h.hygienic.known_not_internal hx] at hi
    cases hi
  refine ⟨d.keys.foldl (fun σ k => E.execute row.columns σ (.assign k.rowName k.value)) ρ, ?_,
    fun x hx => ?_, fun k hk => ?_, fun x hi hx => ?_⟩
  · unfold arriveLines
    rw [runBlock_append, runBlock_lines Line.prepare (fun _ _ => Line.noConfusion),
      runBlock_lines Line.rowKey (fun _ _ => Line.noConfusion), ← hρ]
    rfl
  · rw [foldl_assign_of_not_mem hs (hrow hx), hfresh x hx]
  · rw [foldl_assign_of_mem (h.lawful.keys.rowNodup h.lawful.namer) hs
      (fun k hk x hx => hrow (h.grounded.taken_known (fun _ h => h) h.hygienic
        (mem_append_left _ (mem_map_of_mem hk)) x hx)) hk]
    exact h.eval_taken hfresh (mem_append_left _ (mem_map_of_mem hk))
  · rw [foldl_assign_of_not_mem hs hx, ← hρ, foldl_execute_of_not_mem fun c hc hw => ?_]
    · exact if_neg (harmless_internal hi).2
    · rw [isInternal_of_isGenerated (h.hygienic.isGenerated hc hw)] at hi
      cases hi

/-! ### Rows -/

variable (E) in
/-- The keys of the group are those of a row. -/
def HasKeys (d : Draft) (row : Row V) (σ : Store V) : Prop :=
  ∀ k ∈ d.keys, σ k.name = E.eval row.columns (d.head E row) k.value

theorem HasKeys.congr (h : d.HasKeys E row σ) (hx : ∀ x, d.IsKey x → τ x = σ x) :
    d.HasKeys E row τ :=
  fun k hk => (hx _ ⟨k, hk, rfl⟩).trans (h k hk)

/-- A row that has arrived stays when a group is printed. -/
theorem Arrived.flushed (h : d.Arrived E row σ τ) (hd : d.Settled U) : ∀ k ∈ d.keys,
    d.flushed E columns τ k.rowName = E.eval row.columns (d.head E row) k.value :=
  fun k hk => (hd.flushed_ofKey ⟨k, hk, .inr rfl⟩).trans (h.rowKey k hk)

theorem TakenOver.hasKeys (h : d.TakenOver σ τ)
    (hrow : ∀ k ∈ d.keys, σ k.rowName = E.eval row.columns (d.head E row) k.value) :
    d.HasKeys E row τ :=
  fun k hk => (h.key k hk).trans (hrow k hk)

variable {past : List (Row V)}

/-- How a row that has arrived finds its group: it starts the first one, joins one with its keys, or
    starts another. Then the one before is printed, unless that is done after each row. -/
inductive Switched (E : Engine V) (d : Draft) (options : Options) (past : List (Row V)) (row : Row V)
    (σ : Store V) (ms : List (Moment V)) : Store V → List (Moment V) → Prop
  | first {τ : Store V} : past = [] → d.TakenOver σ τ → Switched E d options past row σ ms τ ms
  | joins : past ≠ [] → d.changed E σ = false → Switched E d options past row σ ms σ ms
  | exposed {τ : Store V} : past ≠ [] → d.changed E σ = true → options.exposeGroups = true →
      d.TakenOver σ τ →
      Switched E d options past row σ ms (E.effects row.columns Line.init d.groupFolds τ) ms
  | printed {τ : Store V} : past ≠ [] → d.changed E σ = true → options.exposeGroups = false →
      d.TakenOver (d.flushed E row.columns σ) τ →
      Switched E d options past row σ ms (E.effects row.columns Line.init d.groupFolds τ)
        (ms ++ [d.flushing E row.columns σ])

variable (E options row) in
theorem Lawful.switched (h : d.Lawful) (hp : Projection.of d.outScope none order = .ok p)
    (hrows : j.rows = past.length + 1) :
    d.Switched E options past row j.store j.printed
      (E.runBlock row.columns j (d.switchLines options p.block)).store
      (E.runBlock row.columns j (d.switchLines options p.block)).printed := by
  rw [run_switchLines]
  by_cases hfirst : past = []
  · obtain ⟨τ, htake, hτ⟩ := h.run_takeOverLines E row.columns j
    rw [if_pos (by simp [hrows, hfirst]), htake]
    exact .first hfirst hτ
  rw [if_neg (by simpa [hrows] using hfirst)]
  cases hc : d.changed E j.store with
  | false => exact .joins hfirst hc
  | true =>
    rw [if_pos rfl, changeLines, runBlock_append, runBlock_append, run_initLines]
    cases hexp : options.exposeGroups with
    | true =>
      rw [if_pos rfl, runBlock]
      obtain ⟨τ, htake, hτ⟩ := h.run_takeOverLines E row.columns { j with taken := false }
      rw [htake]
      exact .exposed hfirst hc hexp hτ
    | false =>
      rw [if_neg Bool.false_ne_true, run_flushLines hp]
      obtain ⟨τ, htake, hτ⟩ := h.run_takeOverLines E row.columns { j with
        store := d.flushed E row.columns j.store
        taken := false
        printed := j.printed ++ [d.flushing E row.columns j.store] }
      rw [htake]
      exact .printed hfirst hc hexp hτ

variable (options) in
/-- What holds at the start and is kept by each row holds after all rows. What is printed then is
    the last group, unless each row has been printed. -/
theorem Settled.exists_moments (h : d.Settled U) (hp : Projection.of d.outScope none order = .ok p)
    {I : List (Row V) → Store V → List (Moment V) → Prop} (outside : Nat → V) (σ : Store V)
    (hstart : I [] (E.effects outside Line.init d.folds σ) [])
    (hrow : ∀ {past row σ ms τ υ ms'}, I past σ ms → d.Arrived E row σ τ →
      d.Switched E options past row τ ms υ ms' →
        let υ := E.effects row.columns Line.update d.folds υ
        if options.exposeGroups then
          I (past ++ [row]) (d.flushed E row.columns υ) (ms' ++ [d.flushing E row.columns υ])
        else I (past ++ [row]) υ ms') (rows : List (Row V)) :
    ∃ τ ms, I rows τ ms ∧ E.moments (d.program options p.block) outside σ rows
      = if options.exposeGroups ∨ rows = [] then ms else ms ++ [d.flushing E outside τ] := by
  have hall (rows : List (Row V)) :
      let j := rows.foldl (E.runRow (d.program options p.block))
        (E.runBlock outside ⟨σ, 0, false, []⟩ (d.program options p.block).start)
      j.rows = rows.length ∧ I rows j.store j.printed := by
    induction rows using List.reverseRecOn with
    | nil =>
      rw [program_start, runBlock_append, runBlock_separator, run_initLines]
      exact ⟨rfl, hstart⟩
    | append_singleton rows row ih =>
      rw [foldl_concat]
      generalize rows.foldl _ _ = j at ih ⊢
      obtain ⟨hcount, hI⟩ := ih
      obtain ⟨τ, hrun, ha⟩ := h.run_arriveLines E j row
      have hs := h.lawful.switched E options row (j := { j with rows := j.rows + 1, store := τ }) hp
        (congrArg (· + 1) hcount)
      refine ⟨?_, ?_⟩
      · rw [runRow, rows_runBlock, length_append, ← hcount]
        rfl
      · have hstep := hrow hI ha hs
        rw [runRow, program_row, runBlock_append, runBlock_append,
          runBlock_append, hrun, run_updateLines]
        split at hstep
        · rename_i hexp
          rw [if_pos hexp, run_flushLines hp]
          exact hstep
        · rename_i hexp
          rw [if_neg hexp, runBlock]
          exact hstep
  obtain ⟨hcount, hI⟩ := hall rows
  rw [moments]
  generalize rows.foldl _ _ = j at hcount hI ⊢
  refine ⟨j.store, j.printed, hI, ?_⟩
  rw [program_finish]
  by_cases hexp : options.exposeGroups = true
  · rw [if_pos hexp, if_pos (.inl hexp), runBlock]
  rw [if_neg hexp, runBlock, runBlock, runItem, passes, hcount]
  by_cases hne : rows = []
  · rw [if_neg (by simp [hne]), if_pos (.inr hne)]
  · rw [if_pos (by simpa using hne), if_neg (by simp [hexp, hne]), run_flushLines hp]

end

end GroupProgram.Draft

end RowAwk.Compile
