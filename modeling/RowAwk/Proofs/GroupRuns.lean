import Mathlib.Data.List.SplitBy
import RowAwk.Proofs.GroupLines

/-!
What grouping programs print.

The rows fall into runs of neighbours with equal keys. A program prints one record for each run, at
its end; or, if it exposes groups, one for each row, about its run so far.

    rows      a a │ b │ c c c
    records     1   2       3       folds over each run, and over all rows up to its end

The proof follows the rows: after each one, the accumulators of groups have folded the run that the
row ends, those of the stream have folded all rows, and all runs before the last one are printed.
What is printed is computed between the head of a row and its use; it leaves the row alone unless a
source binds the name of a helper.
-/

open List

namespace RowAwk

namespace Awk

/-- The variables of an accumulator: its own name, and those that go on from it. -/
def Fold.Has (f : Fold) (x : String) : Prop :=
  x = f.accumulator.name ∨ ∃ rest, x = f.accumulator.name ++ "_" ++ rest

theorem Fold.Has.owns {f : Fold} {x : String} (h : f.Has x) : f.owns x = true := by
  rw [Fold.owns, Bool.or_eq_true, isPrefixOf_iff_prefix]
  rcases h with rfl | ⟨rest, rfl⟩
  · exact .inr List.prefix_rfl
  · rw [String.toList_append, String.toList_append, append_assoc]
    exact .inr (prefix_append _ _)

/-- What the statements of some accumulators do to their states.

    * `state` is what an accumulator has in a store, where only its own variables count;
    * a statement sets the variables of its accumulator, and one for values in between;
    * a value is there once it is finished, or at any time after a row if nothing finishes it. -/
structure Accounts {V : Type} (E : Engine V) (folds : List Fold) (S : Type) where
  state : Fold → Store V → S
  initial : Fold → S
  step : Fold → List V → S → S
  value : Fold → S → V
  state_congr : ∀ f ∈ folds, ∀ {σ τ}, (∀ x, f.Has x → τ x = σ x) → state f τ = state f σ
  frame : ∀ f ∈ folds, ∀ {l : Line} {columns σ x}, l.fold? = some f → ¬f.Has x → x ≠ "__tmp__" →
    E.effect columns σ l x = σ x
  state_init : ∀ f ∈ folds, ∀ columns σ, state f (E.effect columns σ (.init f)) = initial f
  state_update : ∀ f ∈ folds, ∀ columns σ,
    state f (E.effect columns σ (.update f)) = step f (E.evalAll columns σ f.args) (state f σ)
  state_finish : ∀ f ∈ folds, ∀ columns σ, state f (E.effect columns σ (.finish f)) = state f σ
  value_update : ∀ f ∈ folds, f.accumulator.finish = none → ∀ columns σ,
    E.effect columns σ (.update f) f.accumulator.name
      = value f (step f (E.evalAll columns σ f.args) (state f σ))
  value_finish : ∀ f ∈ folds, f.accumulator.finish.isSome = true → ∀ columns σ,
    E.effect columns σ (.finish f) f.accumulator.name = value f (state f σ)

theorem Fold.has_slot (f : Fold) : f.Has f.slot := by
  rw [Fold.slot]
  split
  · exact .inr ⟨"arr", by rw [String.append_assoc]; rfl⟩
  · exact .inl rfl

theorem Engine.keeping_update {V : Type} {f : Fold} {x : String} (h : f.Has x) (σ : Store V) (v : V) :
    keeping f (Function.update σ x v) σ = Function.update σ x v := by
  funext y
  rw [keeping]
  split
  · rfl
  · rename_i hy
    rw [Function.update_of_ne]
    rintro rfl
    exact hy h.owns

/-- The sums of the engine over the integers. -/
def sums (folds : List Fold) : Accounts integerEngine folds Int where
  state f σ := σ f.slot
  initial _ := 0
  step _ values s := s + values.sum
  value _ s := s
  state_congr f _ _ _ h := h f.slot f.has_slot
  frame f _ l columns σ x hl hx _ := by
    have key {n : String} (hn : f.Has n) (v : Int) :
        Engine.keeping f (Function.update σ n v) σ x = σ x := by
      rw [Engine.keeping_update hn, Function.update_of_ne]
      rintro rfl
      exact hx hn
    cases l with
    | init | update =>
      cases hl
      exact key f.has_slot _
    | finish =>
      cases hl
      exact key (.inl rfl) _
    | _ => cases hl
  state_init f _ columns σ := by
    rw [Engine.effect, integerEngine, Engine.keeping_update f.has_slot, Function.update_self]
  state_update f _ columns σ := by
    rw [Engine.effect, integerEngine, Engine.keeping_update f.has_slot, Function.update_self]
  state_finish f _ columns σ := by
    rw [Engine.effect, integerEngine, Engine.keeping_update (.inl rfl)]
    by_cases h : f.slot = f.accumulator.name
    · rw [h, Function.update_self]
    · rw [Function.update_of_ne h]
  value_update f _ hfin columns σ := by
    have hslot : f.slot = f.accumulator.name := by simp [Fold.slot, hfin]
    rw [Engine.effect, integerEngine, Engine.keeping_update f.has_slot, hslot, Function.update_self]
  value_finish f _ _ columns σ := by
    rw [Engine.effect, integerEngine, Engine.keeping_update (.inl rfl), Function.update_self]

end Awk

namespace Compile.GroupProgram

open Awk (Accounts Category Const Engine Expr Fold Line Moment Row Store integerEngine rowOf sums)
open Schema (Order)
open Syntax (isInternal)

/-! ### Runs -/

section Runs

variable {α κ : Type} [DecidableEq κ] (key : α → κ)

/-- The maximal runs of neighbours with equal keys. -/
def runs (xs : List α) : List (List α) := xs.splitBy fun x y => key x = key y

/-- The run that the last element is in. -/
def lastRun (xs : List α) : List α := (runs key xs).getLast?.getD []

variable {key} {xs : List α} {x y : α}

theorem flatten_runs (xs : List α) : (runs key xs).flatten = xs := flatten_splitBy _ xs

theorem runs_eq_concat (h : xs ≠ []) : runs key xs = (runs key xs).dropLast ++ [lastRun key xs] := by
  have hne : runs key xs ≠ [] := splitBy_ne_nil.2 h
  rw [lastRun, List.getLast?_eq_some_getLast hne, Option.getD_some, dropLast_append_getLast]

/-- An element with a key of its own starts a run. -/
theorem runs_concat_of_ne (h : ∀ x ∈ xs.getLast?, key x ≠ key y) :
    runs key (xs ++ [y]) = runs key xs ++ [[y]] := by
  refine splitBy_append_cons [] fun x hx => ?_
  simpa using h x hx

/-- An element with the key of the one before it goes on with its run. -/
theorem runs_concat_of_eq (hx : xs.getLast? = some x) (h : key x = key y) :
    runs key (xs ++ [y]) = (runs key xs).dropLast ++ [lastRun key xs ++ [y]] := by
  have hne : xs ≠ [] := by
    rintro rfl
    cases hx
  have hruns : runs key xs = _ := runs_eq_concat hne
  obtain ⟨hflat, hnil, hchain, hbreak⟩ := splitBy_eq_iff.1 hruns
  have hlast : lastRun key xs ≠ [] := fun hl => hnil (by simp [hl])
  have hend : (lastRun key xs).getLast? = some x := by
    rw [← hx]
    conv_rhs => rw [hflat, flatten_append]
    rw [flatten_cons, flatten_nil, append_nil, List.getLast?_append_of_ne_nil _ hlast]
  refine splitBy_eq_iff.2 ⟨?_, ?_, ?_, ?_⟩
  · conv_lhs => rw [hflat]
    simp
  · intro hmem
    rcases mem_append.1 hmem with hmem | hmem
    · exact hnil (mem_append_left _ hmem)
    · simp at hmem
  · intro run hmem
    rcases mem_append.1 hmem with hmem | hmem
    · exact hchain run (mem_append_left _ hmem)
    · rw [mem_singleton.1 hmem, isChain_append]
      refine ⟨hchain _ (by simp), .singleton y, fun a ha b hb => ?_⟩
      rw [hend] at ha
      cases ha
      cases hb
      simpa using h
  · rw [isChain_append] at hbreak ⊢
    refine ⟨hbreak.1, .singleton _, fun run hrun last hl => ?_⟩
    cases hl
    obtain ⟨ha, hb, hr⟩ := hbreak.2.2 run hrun _ rfl
    exact ⟨ha, by simp, by rwa [head_append_of_ne_nil hb]⟩

variable (key) in
/-- The part of the run of a new element that is there already. -/
def openRun (xs : List α) (y : α) : List α :=
  if xs.getLast?.any fun x => key x = key y then lastRun key xs else []

theorem openRun_of_ne (h : ∀ x ∈ xs.getLast?, key x ≠ key y) : openRun key xs y = [] := by
  refine if_neg fun hany => ?_
  obtain ⟨x, hx, hk⟩ := (Option.any_eq_true _ _).1 hany
  exact h x hx (by simpa using hk)

theorem openRun_of_eq (hx : xs.getLast? = some x) (h : key x = key y) :
    openRun key xs y = lastRun key xs := by
  rw [openRun, hx]
  simp [h]

theorem lastRun_concat (xs : List α) (y : α) :
    lastRun key (xs ++ [y]) = openRun key xs y ++ [y] := by
  by_cases h : ∃ x ∈ xs.getLast?, key x = key y
  · obtain ⟨x, hx, hk⟩ := h
    rw [lastRun, runs_concat_of_eq hx hk, openRun_of_eq hx hk]
    simp
  · have hne : ∀ x ∈ xs.getLast?, key x ≠ key y := fun x hx hk => h ⟨x, hx, hk⟩
    rw [lastRun, runs_concat_of_ne hne, openRun_of_ne hne]
    simp

theorem getLast?_lastRun (xs : List α) : (lastRun key xs).getLast? = xs.getLast? := by
  rcases eq_nil_or_concat xs with rfl | ⟨init, y, rfl⟩
  · rfl
  · rw [concat_eq_append, lastRun_concat, List.getLast?_concat, List.getLast?_concat]

theorem mapIdx_take_concat {β : Type} (g : α → List α → β) (xs : List α) (y : α) :
    ((xs ++ [y]).mapIdx fun i x => g x ((xs ++ [y]).take (i + 1)))
      = (xs.mapIdx fun i x => g x (xs.take (i + 1))) ++ [g y (xs ++ [y])] := by
  rw [mapIdx_concat, take_of_length_le (by simp)]
  congr 1
  rw [mapIdx_eq_mapIdx_iff]
  intro i hi
  rw [take_append_of_le_length (by omega)]

end Runs

/-! ### What is printed -/

namespace Draft

section

variable {V S : Type} {E : Engine V} (d : Draft) (A : Accounts E d.folds S)

variable (E) in
/-- The keys of a row. -/
def keyOf (row : Row V) : List V := d.keys.map fun k => E.eval row.columns (d.head E row) k.value

/-- The state of an accumulator after some rows. -/
def folded (f : Fold) (rows : List (Row V)) : S :=
  rows.foldl (fun s row => A.step f (E.evalAll row.columns (d.head E row) f.args) s) (A.initial f)

/-- The keys and accumulators that a record is made of. -/
structure Record (V : Type) where
  keys : Option (List V)
  groups : List V
  streams : List V
deriving DecidableEq

/-- The record of a run, given all rows up to its end. -/
def record (run past : List (Row V)) : Record V where
  keys := run.getLast?.map (d.keyOf E)
  groups := d.groupFolds.map fun f => A.value f (d.folded A f run)
  streams := d.streamFolds.map fun f => A.value f (d.folded A f past)

/-- The record that a store holds. -/
def shown (σ : Store V) : Record V where
  keys := some (d.keys.map fun k => σ k.name)
  groups := d.groupFolds.map fun f => σ f.accumulator.name
  streams := d.streamFolds.map fun f => σ f.accumulator.name

/-- One record for each run. -/
def recordRuns (rs : List (List (Row V))) : List (Record V) :=
  rs.mapIdx fun i run => d.record A run (rs.take (i + 1)).flatten

variable [DecidableEq V]

/-- One record for each row, about its run so far. -/
def recordRows (rows : List (Row V)) : List (Record V) :=
  rows.mapIdx fun i _ => d.record A (lastRun (d.keyOf E) (rows.take (i + 1))) (rows.take (i + 1))

/-- All records. -/
def records (options : Options) (rows : List (Row V)) : List (Record V) :=
  if options.exposeGroups then d.recordRows A rows else d.recordRuns A (runs (d.keyOf E) rows)

end

section

variable {V S : Type} [DecidableEq V] {E : Engine V} {d : Draft} {A : Accounts E d.folds S}
variable {rows : List (Row V)}

theorem recordRuns_runs (h : rows ≠ []) :
    d.recordRuns A (runs (d.keyOf E) rows)
      = d.recordRuns A (runs (d.keyOf E) rows).dropLast
        ++ [d.record A (lastRun (d.keyOf E) rows) rows] := by
  have hconcat (rs : List (List (Row V))) (run : List (Row V)) :
      d.recordRuns A (rs ++ [run]) = d.recordRuns A rs ++ [d.record A run (rs ++ [run]).flatten] :=
    mapIdx_take_concat (fun run past => d.record A run past.flatten) rs run
  conv_lhs => rw [runs_eq_concat h, hconcat, ← runs_eq_concat h, flatten_runs]

theorem recordRows_concat (rows : List (Row V)) (row : Row V) :
    d.recordRows A (rows ++ [row])
      = d.recordRows A rows
        ++ [d.record A (lastRun (d.keyOf E) (rows ++ [row])) (rows ++ [row])] :=
  mapIdx_take_concat (fun _ past => d.record A (lastRun (d.keyOf E) past) past) rows row

end

/-! ### Accumulators next to each other -/

section

variable {d : Draft} {f g : Fold} {x : String}

/-- A number is told by the digits in front of what is none. -/
theorem number_append_inj {i j : Nat} {r s : List Char} (hr : ∀ c ∈ r.head?, c.isDigit = false)
    (hs : ∀ c ∈ s.head?, c.isDigit = false)
    (h : (toString i).toList ++ r = (toString j).toList ++ s) : i = j := by
  have digits (n : Nat) (t : List Char) (ht : ∀ c ∈ t.head?, c.isDigit = false) :
      ((toString n).toList ++ t).takeWhile Char.isDigit = (toString n).toList := by
    rw [takeWhile_append_of_pos fun c hc => ?_]
    · cases t with
      | nil => simp
      | cons c t => simp [ht c rfl]
    · exact Nat.isDigit_of_mem_toDigits (by decide) (by decide) (Nat.toList_repr ▸ hc)
  refine Nat.repr_inj.1 (String.toList_inj.1 ?_)
  show (toString i).toList = (toString j).toList
  rw [← digits i r hr, h, digits j s hs]

theorem Lawful.has_cases (h : d.Lawful) (hf : f ∈ d.folds) (hx : f.Has x) :
    ∃ (c : Category) (i : Nat) (r : List Char), f.accumulator.name = c.stem ++ toString i ∧
      x.toList = c.stem.toList ++ ((toString i).toList ++ r) ∧ ∀ c ∈ r.head?, c.isDigit = false := by
  obtain ⟨c, -, i, hi⟩ := h.of_mem_folds hf
  rcases hx with rfl | ⟨rest, rfl⟩
  · exact ⟨c, i, [], hi, by simp [hi], by simp⟩
  · refine ⟨c, i, '_' :: rest.toList, hi, by simp [hi], fun c hc => ?_⟩
    cases hc
    rfl

/-- Accumulators share no variables. -/
theorem Lawful.not_has (h : d.Lawful) (hf : f ∈ d.folds) (hg : g ∈ d.folds)
    (hne : f.accumulator.name ≠ g.accumulator.name) (hx : f.Has x) :
    ¬g.Has x ∧ x ≠ "__tmp__" := by
  obtain ⟨c, i, r, hname, hlist, hr⟩ := h.has_cases hf hx
  constructor
  · intro hx'
    obtain ⟨c', i', r', hname', hlist', hr'⟩ := h.has_cases hg hx'
    rw [hlist] at hlist'
    have hlen : c.stem.toList.length = c'.stem.toList.length := by
      cases c <;> cases c' <;> simp [Category.stem]
    obtain ⟨hstem, hrest⟩ := append_inj hlist' hlen
    rw [number_append_inj hr hr' hrest, String.toList_inj.1 hstem, ← hname'] at hname
    exact hne hname
  · rintro rfl
    cases c <;> simp [Category.stem] at hlist

variable {V S : Type} {E : Engine V} {A : Accounts E d.folds S} {columns : Nat → V} {σ τ : Store V}
variable {line : Fold → Line} {fs : List Fold}

/-- Lines of other accumulators. -/
theorem Lawful.effects_apart (h : d.Lawful) (A : Accounts E d.folds S)
    (hl : ∀ f, (line f).fold? = some f) (hfs : fs ⊆ d.folds) (hg : g ∈ d.folds)
    (hne : ∀ f ∈ fs, f.accumulator.name ≠ g.accumulator.name) (hx : g.Has x) (σ : Store V) :
    E.effects columns line fs σ x = σ x := by
  refine Engine.effects_eq (fun f hf σ => ?_) σ
  obtain ⟨hnot, htmp⟩ := h.not_has hg (hfs hf) (hne f hf).symm hx
  exact A.frame f (hfs hf) (hl f) hnot htmp

variable (columns line) in
/-- Lines of several accumulators do to the variables of one what its own line does. -/
theorem Lawful.effects_own (h : d.Lawful) (A : Accounts E d.folds S)
    (hl : ∀ f, (line f).fold? = some f) (hfs : fs ⊆ d.folds)
    (hn : (fs.map (·.accumulator.name)).Nodup) (hf : f ∈ fs) (σ : Store V) :
    ∃ τ, (∀ x, isInternal x = false ∨ f.Has x → τ x = σ x) ∧
      ∀ x, f.Has x → E.effects columns line fs σ x = E.effect columns τ (line f) x := by
  obtain ⟨before, after, rfl⟩ := append_of_mem hf
  have hfd := hfs hf
  rw [append_subset, cons_subset] at hfs
  rw [map_append, map_cons, nodup_middle, nodup_cons, mem_append, not_or] at hn
  have apart {gs : List Fold} (hgs : gs ⊆ d.folds)
      (hm : f.accumulator.name ∉ gs.map (·.accumulator.name)) {x : String} (hx : f.Has x)
      (σ : Store V) : E.effects columns line gs σ x = σ x :=
    h.effects_apart A hl hgs hfd (fun g hg he => hm (mem_map.2 ⟨g, hg, he⟩)) hx σ
  refine ⟨E.effects columns line before σ, fun x hx => ?_, fun x hx => ?_⟩
  · rcases hx with hx | hx
    · exact h.effects_eq hl hfs.1 (.inr hx)
    · exact apart hfs.1 hn.1.1 hx σ
  · rw [Engine.effects, foldl_append, foldl_cons]
    exact apart hfs.2.2 hn.1.2 hx _

theorem state_eq (hf : f ∈ d.folds) (hx : ∀ x, f.Has x → τ x = σ x) : A.state f τ = A.state f σ :=
  A.state_congr f hf hx

/-- Setting up. -/
theorem Lawful.state_inits (h : d.Lawful) (hfs : fs ⊆ d.folds)
    (hn : (fs.map (·.accumulator.name)).Nodup) (hf : f ∈ fs) :
    A.state f (E.effects columns Line.init fs σ) = A.initial f := by
  obtain ⟨τ, -, hown⟩ := h.effects_own columns Line.init A (fun _ => rfl) hfs hn hf σ
  rw [state_eq (hfs hf) hown, A.state_init f (hfs hf)]

/-- Finishing all accumulators that need it keeps the states, and sets values. -/
theorem Lawful.finishes (h : d.Lawful) (hf : f ∈ d.folds) :
    let τ := E.effects columns Line.finish (d.folds.filter fun f => f.accumulator.finish.isSome) σ
    A.state f τ = A.state f σ ∧ τ f.accumulator.name
      = if f.accumulator.finish.isSome then A.value f (A.state f σ) else σ f.accumulator.name := by
  have hfs : d.folds.filter (fun f => f.accumulator.finish.isSome) ⊆ d.folds := filter_subset_self _
  split
  · rename_i hfin
    obtain ⟨τ, hτ, hown⟩ := h.effects_own columns Line.finish A (fun _ => rfl) hfs
      (h.nodup_folds.sublist (filter_sublist.map _)) (mem_filter.2 ⟨hf, hfin⟩) σ
    have hsame : A.state f τ = A.state f σ := state_eq hf fun x hx => hτ x (.inr hx)
    dsimp only
    rw [state_eq hf hown, hown _ (.inl rfl), A.state_finish f hf, A.value_finish f hf hfin, hsame]
    exact ⟨rfl, rfl⟩
  · rename_i hfin
    have hown (x : String) (hx : f.Has x) : E.effects columns Line.finish
        (d.folds.filter fun f => f.accumulator.finish.isSome) σ x = σ x := by
      refine h.effects_apart A (fun _ => rfl) hfs hf (fun g hg he => hfin ?_) hx σ
      rw [← inj_on_of_nodup_map h.nodup_folds (hfs hg) hf he]
      exact (mem_filter.1 hg).2
    exact ⟨state_eq hf hown, hown _ (.inl rfl)⟩

variable {U : String → Prop} {row : Row V}

/-- Updating all accumulators with the helpers of a row. -/
theorem Settled.updates (h : d.Settled U) (hσ : d.Fresh E row σ) (hf : f ∈ d.folds) :
    let τ := E.effects row.columns Line.update d.folds σ
    let s := A.step f (E.evalAll row.columns (d.head E row) f.args) (A.state f σ)
    A.state f τ = s ∧ (f.accumulator.finish = none → τ f.accumulator.name = A.value f s) := by
  obtain ⟨τ, hτ, hown⟩ := h.lawful.effects_own row.columns Line.update A (fun _ => rfl)
    (List.Subset.refl _) h.lawful.nodup_folds hf σ
  have hsame : A.state f τ = A.state f σ := state_eq hf fun x hx => hτ x (.inr hx)
  have hargs : E.evalAll row.columns τ f.args = E.evalAll row.columns (d.head E row) f.args := by
    refine Awk.Machine.evalAll_congr fun x hx => ?_
    obtain ⟨a, ha, hx⟩ := Expr.mem_readsAll.1 hx
    have hk := h.grounded.taken_known (fun _ h => h) h.hygienic
      (mem_append_right _ (mem_flatMap.2 ⟨f, hf, ha⟩)) x hx
    rw [hτ x (.inl (h.hygienic.known_not_internal hk)), hσ x hk]
  dsimp only
  rw [state_eq hf hown, hown _ (.inl rfl), A.state_update f hf, hargs, hsame]
  refine ⟨rfl, fun hfin => ?_⟩
  rw [A.value_update f hf hfin, hargs, hsame]

end

/-! ### What a store holds -/

section

variable {V S : Type} {E : Engine V} {d : Draft} {A : Accounts E d.folds S} {σ τ : Store V}
variable {last : Option (Row V)} {run past : List (Row V)} {row : Row V} {columns : Nat → V}
variable {U : String → Prop} {f : Fold} {x : String}

/-- The rows that the accumulators of a category have folded. -/
def covered (run past : List (Row V)) : Category → List (Row V)
  | .group => run
  | .stream => past

/-- A store holds the keys of a row, the accumulators of groups folded over a run and those of the
    stream folded over all rows. -/
structure Holds (A : Accounts E d.folds S) (last : Option (Row V)) (run past : List (Row V))
    (σ : Store V) : Prop where
  key : ∀ row ∈ last, d.HasKeys E row σ
  fold : ∀ c, ∀ f ∈ d.foldsOf c, A.state f σ = d.folded A f (covered run past c)

/-- Accumulators that nothing finishes have their values. -/
def Valued (A : Accounts E d.folds S) (σ : Store V) : Prop :=
  ∀ f ∈ d.folds, f.accumulator.finish = none → σ f.accumulator.name = A.value f (A.state f σ)

theorem Holds.congr (h : Holds A last run past σ) (hk : ∀ x, d.IsKey x → τ x = σ x)
    (hf : ∀ f ∈ d.folds, A.state f τ = A.state f σ) : Holds A last run past τ := by
  refine ⟨fun row hr => (h.key row hr).congr hk, fun c f hm => ?_⟩
  rw [hf f (mem_folds.2 ⟨c, hm⟩), h.fold c f hm]

theorem Valued.congr (h : Valued A σ) (hown : ∀ f ∈ d.folds, ∀ x, f.Has x → τ x = σ x) :
    Valued A τ := by
  intro f hf hfin
  rw [hown f hf _ (.inl rfl), state_eq hf (hown f hf), h f hf hfin]

theorem Lawful.not_ofKey (h : d.Lawful) (hf : f ∈ d.folds) (hx : f.Has x) : ¬d.OfKey x := by
  intro hk
  exact Bool.noConfusion ((h.not_owns hf hk).symm.trans hx.owns)

theorem Arrived.own (h : d.Arrived E row σ τ) (hd : d.Lawful) (hf : f ∈ d.folds) (hx : f.Has x) :
    τ x = σ x := by
  refine h.others x (hd.isInternal_of_owns hf hx.owns) fun hm => ?_
  obtain ⟨k, hk, rfl⟩ := mem_map.1 hm
  exact hd.not_ofKey hf hx ⟨k, hk, .inr rfl⟩

theorem Holds.arrive (h : Holds A last run past σ) (hd : d.Lawful) (ha : d.Arrived E row σ τ) :
    Holds A last run past τ :=
  h.congr (fun _ => ha.isKey hd) fun _ hf => state_eq hf fun _ => ha.own hd hf

/-- Another row is taken over. -/
theorem Holds.takeOver (h : Holds A last run past σ) (hd : d.Lawful) (ht : d.TakenOver σ τ)
    (hkeys : d.HasKeys E row τ) : Holds A (some row) run past τ := by
  refine ⟨fun y hy => ?_, fun c f hf => ?_⟩
  · cases hy
    exact hkeys
  · have hf' := mem_folds.2 ⟨c, hf⟩
    rw [← h.fold c f hf]
    exact state_eq hf' fun x hx => ht.others x fun hk => hd.not_ofKey hf' hx hk.ofKey

/-- The accumulators of groups are set up again. -/
theorem Holds.reset (h : Holds A last run past σ) (hd : d.Lawful) :
    Holds A last [] past (E.effects columns Line.init d.groupFolds σ) := by
  have hfs : d.groupFolds ⊆ d.folds := subset_append_left _ _
  have hn := hd.nodup_folds
  rw [folds, map_append, nodup_append] at hn
  refine ⟨fun row hr => (h.key row hr).congr fun x hx => ?_, fun c f hf => ?_⟩
  · exact hd.effects_eq (fun _ => rfl) hfs (.inl hx.ofKey)
  · cases c with
    | group => exact hd.state_inits hfs hn.1 hf
    | stream =>
      refine (state_eq (mem_folds.2 ⟨.stream, hf⟩) fun x hx => ?_).trans (h.fold .stream f hf)
      exact hd.effects_apart A (fun _ => rfl) hfs (mem_folds.2 ⟨.stream, hf⟩)
        (fun g hg he => hn.2.2 _ (mem_map_of_mem hg) _ (mem_map_of_mem hf) he) hx σ

theorem holds_start (hd : d.Lawful) (σ : Store V) :
    Holds A none [] [] (E.effects columns Line.init d.folds σ) := by
  refine ⟨fun row hr => ?_, fun c f hf => ?_⟩
  · cases hr
  · rw [hd.state_inits (List.Subset.refl _) hd.nodup_folds (mem_folds.2 ⟨c, hf⟩)]
    cases c <;> rfl

/-- All accumulators are updated with one more row. -/
theorem Holds.update (h : Holds A last run past σ) (hd : d.Settled U) (hσ : d.Fresh E row σ) :
    Holds A last (run ++ [row]) (past ++ [row]) (E.effects row.columns Line.update d.folds σ) ∧
      Valued A (E.effects row.columns Line.update d.folds σ) := by
  refine ⟨⟨fun y hy => (h.key y hy).congr fun x hx => ?_, fun c f hf => ?_⟩, fun f hf hfin => ?_⟩
  · exact hd.lawful.effects_eq (fun _ => rfl) (List.Subset.refl _) (.inl hx.ofKey)
  · rw [(hd.updates (A := A) hσ (mem_folds.2 ⟨c, hf⟩)).1, h.fold c f hf]
    cases c <;> rw [covered, covered, folded, folded, foldl_concat]
  · obtain ⟨hstate, hvalue⟩ := hd.updates (A := A) hσ hf
    rw [hvalue hfin, hstate]

variable (columns) in
/-- A group is printed: the states stay, and what the store shows is the record of the run. -/
theorem Holds.flush (h : Holds A last run past σ) (hd : d.Settled U) (hvalued : Valued A σ)
    (hlast : run.getLast? = last) (hsome : last ≠ none) :
    Holds A last run past (d.flushed E columns σ) ∧ Valued A (d.flushed E columns σ) ∧
      d.shown (d.flushed E columns σ) = d.record A run past := by
  have hcompute {f : Fold} (hf : f ∈ d.folds) {x : String} (hx : f.Has x) :
      d.flushed E columns σ x = E.effects columns Line.finish
        (d.folds.filter fun f => f.accumulator.finish.isSome) σ x :=
    hd.hygienic.computing_internal (hd.lawful.isInternal_of_owns hf hx.owns)
  have hstate {f : Fold} (hf : f ∈ d.folds) : A.state f (d.flushed E columns σ) = A.state f σ :=
    (state_eq hf fun x => hcompute hf).trans (hd.lawful.finishes hf).1
  have hvalue {f : Fold} (hf : f ∈ d.folds) :
      d.flushed E columns σ f.accumulator.name = A.value f (A.state f σ) := by
    rw [hcompute hf (.inl rfl), (hd.lawful.finishes (A := A) hf).2]
    split
    · rfl
    · rename_i hfin
      exact hvalued f hf (by simpa using hfin)
  have hfolded {c : Category} {f : Fold} (hf : f ∈ d.foldsOf c) :
      d.flushed E columns σ f.accumulator.name = A.value f (d.folded A f (covered run past c)) := by
    rw [hvalue (mem_folds.2 ⟨c, hf⟩), h.fold c f hf]
  refine ⟨h.congr (fun x hx => hd.flushed_ofKey hx.ofKey) fun f => hstate, fun f hf _ => ?_, ?_⟩
  · rw [hvalue hf, hstate hf]
  · obtain ⟨row, rfl⟩ := Option.ne_none_iff_exists'.1 hsome
    rw [shown, record, hlast, Option.map_some, keyOf]
    congr 1
    · congr 1
      refine map_congr_left fun k hk => ?_
      rw [hd.flushed_ofKey ⟨k, hk, .inl rfl⟩, h.key row rfl k hk]
    · exact map_congr_left fun f hf => hfolded (c := .group) hf
    · exact map_congr_left fun f hf => hfolded (c := .stream) hf

end

/-! ### Following the rows -/

section

variable {V S : Type} {E : Engine V} {d : Draft} {A : Accounts E d.folds S} {σ τ υ : Store V}
variable {last : Option (Row V)} {run past : List (Row V)} {row : Row V} {options : Options}
variable {ms ms' : List (Moment V)}

/-- A draft and an engine for which printing a group leaves the row alone. -/
structure Calm (E : Engine V) (d : Draft) : Prop extends d.Settled Harmless where
  finite : d.Hygienic Const.Finite Harmless
  truth : E.NumbersTruth
  differs : ∀ a b, E.differs a b = true ↔ a ≠ b

theorem Calm.fresh_flushed (h : Calm E d) (hσ : d.Fresh E row σ) :
    d.Fresh E row (d.flushed E row.columns σ) := by
  refine h.finite.foldl_outputs h.grounded h.truth (fun b hb => ?_) fun x hx => ?_
  · obtain ⟨name, hm, -⟩ := mem_computing hb
    exact ⟨name, hm⟩
  · rw [h.lawful.effects_eq (fun _ => rfl) (filter_subset_self _)
      (.inr (h.hygienic.known_not_internal hx))]
    exact hσ x hx

theorem Calm.fresh_takeOver (h : Calm E d) (hσ : d.Fresh E row σ) (ht : d.TakenOver σ τ) :
    d.Fresh E row τ := by
  intro x hx
  rw [ht.others x fun hk => ?_, hσ x hx]
  have hi := h.lawful.ofKey_internal hk.ofKey
  rw [h.hygienic.known_not_internal hx] at hi
  cases hi

/-- A row with other keys starts a run. -/
theorem Calm.restart (h : Calm E d) (hσ : d.Fresh E row σ) (hholds : Holds A last run past σ)
    (ht : d.TakenOver σ τ) (hkeys : d.HasKeys E row τ) :
    d.Fresh E row (E.effects row.columns Line.init d.groupFolds τ) ∧
      Holds A (some row) [] past (E.effects row.columns Line.init d.groupFolds τ) := by
  refine ⟨fun x hx => ?_, (hholds.takeOver h.lawful ht hkeys).reset h.lawful⟩
  rw [h.lawful.effects_eq (fun _ => rfl) (subset_append_left _ _)
    (.inr (h.hygienic.known_not_internal hx))]
  exact h.fresh_takeOver hσ ht x hx

/-- The keys in the store differ from those of the row if the rows have different keys. -/
theorem Calm.changed_iff (h : Calm E d) {x : Row V} (hx : d.HasKeys E x σ)
    (hrow : ∀ k ∈ d.keys, σ k.rowName = E.eval row.columns (d.head E row) k.value) :
    d.changed E σ = true ↔ d.keyOf E x ≠ d.keyOf E row := by
  rw [changed, any_eq_true, keyOf, keyOf, ne_eq, map_inj_left]
  push Not
  refine exists_congr fun k => and_congr_right fun hk => ?_
  rw [h.differs, hx k hk, hrow k hk]

variable [DecidableEq V]

/-- What a program has done after some rows. -/
structure After (A : Accounts E d.folds S) (options : Options) (past : List (Row V)) (σ : Store V)
    (ms : List (Moment V)) : Prop where
  holds : Holds A past.getLast? (lastRun (d.keyOf E) past) past σ
  valued : past ≠ [] → Valued A σ
  printed : ms.map (fun m => d.shown m.store)
    = if options.exposeGroups then d.recordRows A past
      else d.recordRuns A (runs (d.keyOf E) past).dropLast

/-- Between two rows: the keys are those of the new row, the accumulators have still folded the
    rows before it, and its run is the only one that is not printed. -/
structure Between (A : Accounts E d.folds S) (options : Options) (past : List (Row V)) (row : Row V)
    (σ : Store V) (ms : List (Moment V)) : Prop where
  fresh : d.Fresh E row σ
  holds : Holds A (some row) (openRun (d.keyOf E) past row) past σ
  printed : ms.map (fun m => d.shown m.store)
    = if options.exposeGroups then d.recordRows A past
      else d.recordRuns A (runs (d.keyOf E) (past ++ [row])).dropLast

/-- The row arrives, and the program goes over to its keys. -/
theorem After.switch (h : After A options past σ ms) (hd : Calm E d) (ha : d.Arrived E row σ τ)
    (hs : d.Switched E options past row τ ms υ ms') : Between A options past row υ ms' := by
  have harr := h.holds.arrive hd.lawful ha
  have hprinted := h.printed
  have hother (hc : d.changed E τ = true) : ∀ x ∈ past.getLast?, d.keyOf E x ≠ d.keyOf E row :=
    fun x hx => (hd.changed_iff (harr.key x hx) ha.rowKey).1 hc
  cases hs with
  | first hnil ht =>
    subst hnil
    exact ⟨hd.fresh_takeOver ha.fresh ht, harr.takeOver hd.lawful ht (ht.hasKeys ha.rowKey),
      hprinted⟩
  | joins hne hc =>
    obtain ⟨x, hx⟩ := Option.isSome_iff_exists.1 (List.getLast?_isSome.2 hne)
    have hkey : d.keyOf E x = d.keyOf E row := by
      have hchanged := hd.changed_iff (harr.key x hx) ha.rowKey
      rw [hc] at hchanged
      exact not_not.1 fun hk => Bool.noConfusion (hchanged.2 hk)
    refine ⟨ha.fresh, ?_, ?_⟩
    · rw [openRun_of_eq hx hkey]
      refine ⟨fun y hy k hk => ?_, harr.fold⟩
      cases hy
      exact (harr.key x hx k hk).trans (map_inj_left.1 hkey k hk)
    · rw [runs_concat_of_eq hx hkey, dropLast_concat]
      exact hprinted
  | exposed hne hc hexp ht =>
    obtain ⟨hfresh, hholds⟩ := hd.restart ha.fresh harr ht (ht.hasKeys ha.rowKey)
    rw [if_pos hexp] at hprinted
    exact ⟨hfresh, openRun_of_ne (hother hc) ▸ hholds, by rw [if_pos hexp, hprinted]⟩
  | printed hne hc hexp ht =>
    obtain ⟨hflush, -, hshown⟩ := harr.flush row.columns hd.toSettled
      ((h.valued hne).congr fun f hf x hx => ha.own hd.lawful hf hx) (getLast?_lastRun _)
      (by simpa using hne)
    obtain ⟨hfresh, hholds⟩ := hd.restart (hd.fresh_flushed ha.fresh) hflush ht
      (ht.hasKeys (ha.flushed hd.toSettled))
    have hexp : ¬options.exposeGroups = true := by simp [hexp]
    rw [if_neg hexp] at hprinted
    refine ⟨hfresh, openRun_of_ne (hother hc) ▸ hholds, ?_⟩
    rw [if_neg hexp, runs_concat_of_ne (hother hc), dropLast_concat, recordRuns_runs hne, map_append,
      hprinted, ← hshown]
    rfl

/-- The row is folded, and printed if each one is. -/
theorem Between.update (h : Between A options past row σ ms) (hd : Calm E d) :
    let τ := E.effects row.columns Line.update d.folds σ
    if options.exposeGroups then
      After A options (past ++ [row]) (d.flushed E row.columns τ)
        (ms ++ [d.flushing E row.columns τ])
    else After A options (past ++ [row]) τ ms := by
  obtain ⟨hfresh, hholds, hprinted⟩ := h
  obtain ⟨hup, hvalued⟩ := hholds.update hd.toSettled hfresh
  rw [← lastRun_concat] at hup
  have hend : (past ++ [row]).getLast? = some row := List.getLast?_concat
  dsimp only
  split
  · rename_i hexp
    obtain ⟨hflush, hvalued, hshown⟩ := hup.flush row.columns hd.toSettled hvalued
      (by rw [getLast?_lastRun, hend]) (by simp)
    rw [if_pos hexp] at hprinted
    refine ⟨hend ▸ hflush, fun _ => hvalued, ?_⟩
    rw [if_pos hexp, map_append, hprinted, recordRows_concat, ← hshown]
    rfl
  · rename_i hexp
    rw [if_neg hexp] at hprinted
    exact ⟨hend ▸ hup, fun _ => hvalued, by rw [if_neg hexp, hprinted]⟩

/-- A whole run prints the records of all runs, or of all rows. -/
theorem Calm.moments_program (hd : Calm E d) {order : List Order} {p : Projection}
    (hp : Projection.of d.outScope none order = .ok p) (A : Accounts E d.folds S)
    (outside : Nat → V) (σ : Store V) (rows : List (Row V)) :
    (E.moments (d.program options p.block) outside σ rows).map (fun m => d.shown m.store)
      = d.records A options rows := by
  obtain ⟨τ, ms, ⟨hholds, hvalued, hprinted⟩, hmoments⟩ :=
    hd.exists_moments options (I := After A options) hp outside σ
      ⟨holds_start hd.lawful σ, fun h => absurd rfl h, by split <;> rfl⟩
      (fun h ha hs => (h.switch hd ha hs).update hd) rows
  rw [hmoments, records]
  by_cases hexp : options.exposeGroups = true
  · rw [if_pos (.inl hexp), if_pos hexp, hprinted, if_pos hexp]
  rw [if_neg hexp] at hprinted ⊢
  rcases eq_or_ne rows [] with rfl | hne
  · rw [if_pos (.inr rfl), hprinted]
    rfl
  · obtain ⟨-, -, hshown⟩ := hholds.flush outside hd.toSettled (hvalued hne) (getLast?_lastRun _)
      (by simpa using hne)
    rw [if_neg (by simp [hexp, hne]), recordRuns_runs hne, map_append, hprinted, ← hshown]
    rfl

end

end Draft

/-! ### Compiled programs -/

theorem parseSource_ne_nil {source : String}
    (h : (parseSource source).toOption.any (!·.isEmpty) = true) : parseSource source ≠ .ok [] := by
  intro hp
  rw [hp] at h
  cases h

/-- A compiled program prints one record for each run of rows with equal keys, or for each row if
    groups are exposed: at each `print`, the accumulators of groups have folded the run, those of
    the stream all rows so far, and each accumulator that is printed is one of them. No source may
    bind a name of the form that helpers have. -/
theorem compile_prints_runs {schema : Schema} {key : Option String}
    {aggregates : List (Category × String)} {options : Options} {c : Compiled}
    (hc : compile schema key aggregates options = .ok c)
    (hk : ∀ text, key = some text → parseSource text ≠ .ok [])
    (hn : ∀ n ∈ boundNames key aggregates options, Harmless n)
    (hf : ∀ v ∈ literals key aggregates, finiteLiteral v = true) :
    ∃ d, draft schema key aggregates options = .ok d ∧ d.keys ≠ [] ∧
      (∀ b ∈ d.outScope.bindings, ∀ a args, (a, args) ∈ b.2.aggregates →
        ∃ f ∈ d.foldsOf a.category, f.accumulator.name = a.name) ∧
      ∀ (V S : Type) [DecidableEq V] (E : Engine V) (A : Accounts E d.folds S), E.NumbersTruth →
        (∀ a b, E.differs a b = true ↔ a ≠ b) →
        ∀ (outside : Nat → V) (σ : Store V) (rows : List (Row V)),
          (E.moments c.program outside σ rows).map (fun m => d.shown m.store)
            = d.records A options rows := by
  obtain ⟨d, projection, derived, hd, hp, -, rfl⟩ := compile_eq_ok hc
  obtain ⟨hlawful, hkeys⟩ := lawful_draft hd
  have hone : parseSource (key.getD "1") ≠ .ok [] := by
    cases key with
    | some text => exact hk text rfl
    | none => exact parseSource_ne_nil (by decide +kernel)
  refine ⟨d, hd, hkeys hone, fun b hb a args => hlawful.exists_fold hb, ?_⟩
  intro V S _ E A htruth hdiffers outside σ rows
  have hwritten := (hygienic_calls admits_spelt (fun _ h => h.1) (fun _ => harmless_internal) hd
    (fun _ _ _ => wellFormed_of_mem_statements) hn).1
  have hcalm : Draft.Calm E d :=
    ⟨⟨grounded_draft hd, hlawful, hwritten⟩, hygienic_finite hd hn hf, htruth, hdiffers⟩
  exact hcalm.moments_program hp A outside σ rows

/-- A program with a computed key that is printed, an accumulator of groups, a median, which needs
    finishing, and an accumulator of the stream. -/
theorem compile_prints_runs_keyAndNumber :
    ∃ c d,
      compile keyAndNumber (some "a; k = abs(b)")
        [(.group, "s = sum(b); m = median(b + 1)"), (.stream, "t = sum(b)")] {} = .ok c ∧
      draft keyAndNumber (some "a; k = abs(b)")
        [(.group, "s = sum(b); m = median(b + 1)"), (.stream, "t = sum(b)")] {} = .ok d ∧
      d.keys ≠ [] ∧
      (∀ b ∈ d.outScope.bindings, ∀ a args, (a, args) ∈ b.2.aggregates →
        ∃ f ∈ d.foldsOf a.category, f.accumulator.name = a.name) ∧
      integerEngine.run c.program (fun _ => 0) (fun _ => 0)
        [rowOf 3 10, rowOf 3 10, rowOf 5 1, rowOf 5 2]
          = [[10, 20, 22, 20], [1, 1, 2, 21], [2, 2, 3, 23]] ∧
      ∀ (outside : Nat → Int) (σ : Store Int) (rows : List (Row Int)),
        (integerEngine.moments c.program outside σ rows).map (fun m => d.shown m.store)
          = d.records (sums d.folds) {} rows := by
  simp only [exists_and_left]
  refine exists_ok_of (by decide +kernel) fun c hc => ?_
  obtain ⟨d, hd, hkeys, hfolds, hprints⟩ := compile_prints_runs hc (fun text ht => by
    cases ht
    exact parseSource_ne_nil (by decide +kernel)) (by decide +kernel) (by decide +kernel)
  exact ⟨d, hd, hkeys, hfolds, of_ok hc (by decide +kernel), hprints Int Int integerEngine _
    (fun b => by cases b <;> rfl) fun a b => decide_eq_true_iff⟩

open RowProgram (twoColumns) in
/-- Where a source binds the name of a helper, printing a group changes the row that comes next:
    `_abs0` is 4 for the second row, but its sum takes in the 10 of the group that was printed. -/
theorem printing_shifts_sum :
    ∃ c d,
      compile twoColumns (some "abs(a - 1)")
        [(.group, "_abs0 = sum(b); y = _abs0 + sum(abs(a - 1))")] {} = .ok c ∧
      draft twoColumns (some "abs(a - 1)")
        [(.group, "_abs0 = sum(b); y = _abs0 + sum(abs(a - 1))")] {} = .ok d ∧
      integerEngine.run c.program (fun _ => 0) (fun _ => 0) [rowOf 3 10, rowOf 5 1, rowOf 5 1]
        = [[12], [16]] ∧
      (integerEngine.moments c.program (fun _ => 0) (fun _ => 0)
          [rowOf 3 10, rowOf 5 1, rowOf 5 1]).map (fun m => (d.shown m.store).groups)
        = [[10, 2], [2, 14]] ∧
      (d.records (sums d.folds) {} [rowOf 3 10, rowOf 5 1, rowOf 5 1]).map Draft.Record.groups
        = [[10, 2], [2, 8]] := by
  decide +kernel

end Compile.GroupProgram

end RowAwk
