import RowAwk.Proofs.Calls
import RowAwk.Proofs.GroupNames

/-!
Aggregates share an accumulator exactly if they are the same.

An accumulator is named by a key that puts its templates and arguments in a row, with a null
character after each. Texts that awk can read have null characters only inside of strings, so the
key can be taken apart again, whatever strings the arguments and delimiters have. The namer gives
equal numbers to equal keys of a category only.

    sum(b) and avg(b)  ──▶  __grp_0, __grp_0 / __grp_1       the sums have one key
    concat(b, ",") and concat(b, ";")                        differ in a template
-/

namespace RowAwk

namespace Awk.Fold

open Compile (Namer stems stem_number_inj)

/-- The texts that the name of an accumulator stands for. -/
def parts (f : Fold) : List String :=
  [f.accumulator.init, f.accumulator.update, f.accumulator.finish.getD ""] ++ Expr.texts f.args

/-- Two folds do the same: they cover the same rows, and have the same templates and the same
    arguments, as texts. -/
structure Same (f g : Fold) : Prop where
  category : f.accumulator.category = g.accumulator.category
  init : f.accumulator.init = g.accumulator.init
  update : f.accumulator.update = g.accumulator.update
  finish : f.accumulator.finish.getD "" = g.accumulator.finish.getD ""
  args : Expr.texts f.args = Expr.texts g.args

theorem same_iff {f g : Fold} :
    f.Same g ↔ f.accumulator.category = g.accumulator.category ∧ f.parts = g.parts := by
  constructor
  · rintro ⟨hc, hi, hu, hf, ha⟩
    exact ⟨hc, by rw [parts, parts, hi, hu, hf, ha]⟩
  · rintro ⟨hc, h⟩
    simp only [parts, List.cons_append, List.nil_append, List.cons.injEq] at h
    exact ⟨hc, h.1, h.2.1, h.2.2.1, h.2.2.2⟩

/-- A namer has named the accumulator by the parts of the fold, and these can be told apart. -/
structure Named (n : Namer) (f : Fold) : Prop where
  number : ∃ i : Nat, f.accumulator.name = f.accumulator.category.stem ++ toString i ∧
    (f.accumulator.category.stem, Namer.keyOf f.parts, i) ∈ n.entries
  balanced : ∀ t ∈ f.parts, Balanced t

theorem Named.mono {n n' : Namer} {f : Fold} (h : f.Named n) (hE : n.entries <+: n'.entries) :
    f.Named n' := by
  obtain ⟨i, hname, hi⟩ := h.number
  exact ⟨⟨i, hname, hE.subset hi⟩, h.balanced⟩

theorem stem_mem_stems (c : Category) : c.stem ∈ stems := by
  cases c <;> decide

theorem stem_inj {c c' : Category} (h : c.stem = c'.stem) : c = c' := by
  cases c <;> cases c' <;> first | rfl | exact absurd h (by decide)

/-- Among the folds that a namer has named, those of one name are those that do the same. -/
theorem Named.name_eq_iff {n : Namer} (hn : n.Sound) {f g : Fold} (hf : f.Named n)
    (hg : g.Named n) : f.accumulator.name = g.accumulator.name ↔ f.Same g := by
  obtain ⟨i, hi, hfi⟩ := hf.number
  obtain ⟨j, hj, hgj⟩ := hg.number
  rw [same_iff, hi, hj]
  constructor
  · intro h
    obtain ⟨hstem, rfl⟩ := stem_number_inj (stem_mem_stems _) (stem_mem_stems _) h
    rw [hstem] at hfi
    refine ⟨stem_inj hstem, ?_⟩
    exact Namer.keyOf_inj (by simp [parts]) (by simp [parts]) hf.balanced hg.balanced
      (hn.key_inj hfi hgj)
  · rintro ⟨hcategory, hparts⟩
    rw [hcategory, hparts] at hfi
    rw [hcategory, hn.number_inj hfi hgj]

end Awk.Fold

namespace Compile

open Awk (Accumulator Aggregate Balanced Category Const Expr Fold)
open GroupProgram (Tallied tallied_iff)
open Syntax (Literal Stmt)

/-! ### Calls of aggregates -/

/-- The folds that a call makes or shares. -/
def Call.folds : Call → List Fold
  | .aggregate _ _ _ x _ => x.aggregates.map fun p => ⟨p.1, p.2⟩
  | .library .. => []

/-- All folds of a call are named. -/
def Call.Named (n : Namer) (c : Call) : Prop := ∀ f ∈ c.folds, f.Named n

section

variable {s : State} {c : Category}

theorem lands_accumulate (a : Aggregate) {t : Templates} (ht : t.AllBalanced) {args : List Expr}
    (ha : ∀ x ∈ args, x.Lowered Const.Written) :
    Lands (fun s => s.namer.Sound) s (Aggregation.accumulate c a t args) fun s e =>
      Tallied (fun a args => Fold.Named s.namer ⟨a, args⟩) e := by
  refine (lands_nameFor fun h => h.nameFor c.stem _).bind fun name s₁ _ _ hname =>
    lands_pure fun _ => Expr.everyNode_aggregate.2 ?_
  rintro b bs ⟨⟩
  refine ⟨hname, fun text hm => ?_⟩
  simp only [Fold.parts, List.mem_append, List.mem_cons, List.not_mem_nil, or_false] at hm
  rcases hm with (rfl | rfl | rfl) | hm
  · exact ht.init
  · exact ht.update
  · exact ht.finish
  · rw [Expr.texts_eq_map] at hm
    obtain ⟨x, hx, rfl⟩ := List.mem_map.1 hm
    exact (ha x hx).balanced fun _ h => h

theorem closed_written :
    Closed Literal.Spelt (fun s => s.namer.Sound) fun _ e => e.Lowered Const.Written :=
  closed_lowered tolerant_sound admits_spelt

theorem accumulating_named (c : Category) :
    Accumulating (fun s => s.namer.Sound)
      (fun s e => Tallied (fun a args => Fold.Named s.namer ⟨a, args⟩) e)
      (fun _ e => e.Lowered Const.Written) Templates.AllBalanced c where
  fixed := by
    simp only [List.forall_mem_cons, List.not_mem_nil, false_implies, implies_true, and_true]
    refine ⟨?_, ?_, ?_, ?_, ?_, ?_, ?_, ?_, ?_, ?_⟩ <;> decide +kernel
  joined d t ht := by
    have hd := Awk.balanced_stringText d
    simp only [List.mem_cons, List.not_mem_nil, or_false] at ht
    rcases ht with rfl | rfl | rfl | rfl
    · exact Templates.balanced_concat hd
    · exact Templates.balanced_concatUniq hd
    · exact Templates.balanced_concatSorted hd
    · exact Templates.balanced_chainConcatUniq hd
  sample limit d := Templates.balanced_concatSample limit (Awk.balanced_stringText d)
  accumulate ht ha := lands_accumulate _ ht ha
  grows hg h := h.imp fun _ _ h => h.mono hg.namer
  growsArg _ h := h
  square {s x} hx := by
    exact closed_written.op₂ (s := s) (o := .pow) rfl hx
      (closed_written.constInt s "2" (by decide) (by decide))
  two _ := by simp [Tallied, Expr.int]
  op₂ _ hx hy := by simpa [Tallied] using ⟨hx, hy⟩

theorem observed_named :
    Observed (fun s => s.namer.Sound) (fun _ e => e.Lowered Const.Written)
      fun n c => c.Named n where
  grows _ _ _ hE h f hf := (h f hf).mono hE
  library hv hr := (closed_written.expand _ hv hr).imp fun _ _ _ _ _ f hf => by cases hf

theorem observedRows_named (c : Category) :
    ObservedRows (fun s => s.namer.Sound) (fun s => s.namer.Sound)
      (fun _ e => e.Lowered Const.Written) (fun n c => c.Named n) c where
  rows := observed_named
  aggregate ha := by
    refine ((accumulating_named c).expand _ ha).imp fun _ _ _ _ h f hf => ?_
    obtain ⟨p, hp, rfl⟩ := List.mem_map.1 hf
    exact tallied_iff.1 h p.1 p.2 hp

end

/-! ### Grouping programs -/

namespace GroupProgram

/-- The folds that compiling a program makes or shares, call by call. -/
def folds (schema : Schema) (key : Option String) (aggregates : List (Category × String))
    (options : Options) : List Fold :=
  (calls schema key aggregates options).flatMap Call.folds

namespace Draft

variable {d d' : Draft} {stmt : Stmt} {cs : List Call}

/-- The namer of a draft is sound and has named the folds of the calls so far. -/
structure Named (d : Draft) (cs : List Call) : Prop where
  sound : d.namer.Sound
  calls : ∀ c ∈ cs, c.Named d.namer

theorem Named.grow (h : d.Named cs) {more : List Call} (hs : d'.namer.Sound)
    (hE : d.namer.entries <+: d'.namer.entries) (hm : ∀ c ∈ more, c.Named d'.namer) :
    d'.Named (cs ++ more) := by
  refine ⟨hs, fun c hc => ?_⟩
  rcases List.mem_append.1 hc with hc | hc
  · exact observed_named.grows _ _ c hE (h.calls c hc)
  · exact hm c hc

theorem Named.addKey (h : d.Named cs) (hw : stmt.WellFormed Literal.Spelt) {outputAll : Bool}
    (hr : addKey outputAll d stmt = .ok d') :
    d'.Named (cs ++ Lowering.calls none (stmtExpr stmt) d.keyState) := by
  obtain ⟨value, state, i, j, hk⟩ := addKey_eq_ok hr
  obtain ⟨hs, -, hcalls⟩ := Lowering.lands_calls (J := fun s => s.namer.Sound)
    (L := fun _ e => e.Lowered Const.Written) closed_written (fun _ hc => by cases hc)
    observed_named (fun _ hc => by cases hc) _ (wellFormed_stmtExpr hw) d.keyState h.sound value
    state hk.lower
  exact h.grow (hk.sound hs) hk.entries fun c hc =>
    observed_named.grows _ _ c hk.starts (hcalls c hc)

theorem Named.addStatement (h : d.Named cs) (hw : stmt.WellFormed Literal.Spelt) {c : Category}
    {source : String} (hr : addStatement c source d stmt = .ok d') :
    d'.Named (cs ++ Lowering.calls (some c) (stmtExpr stmt) (d.stateOf c)) := by
  obtain ⟨name, value, state, ha⟩ := addStatement_eq_ok hr
  obtain ⟨hs, hg, hcalls⟩ := Lowering.lands_callsBinding closed_written
    (fun x _ => closedRows_lowered tolerant_sound tolerant_sound admits_spelt (fun _ => .rfl) x)
    observed_named (fun x _ => observedRows_named x) hw (d.stateOf c) h.sound _ state ha.binds
  refine h.grow (ha.namer ▸ hs) ?_ fun call hc => ?_
  · rw [ha.namer]
    exact hg.namer
  · rw [ha.namer]
    exact hcalls call hc

end Draft

/-- In a program that compiles, two folds have one accumulator exactly if they do the same. -/
theorem folds_share_accumulators {schema : Schema} {key : Option String}
    {aggregates : List (Category × String)} {options : Options} {c : Compiled}
    (hc : compile schema key aggregates options = .ok c) :
    ∀ f ∈ folds schema key aggregates options, ∀ g ∈ folds schema key aggregates options,
      f.accumulator.name = g.accumulator.name ↔ f.Same g := by
  obtain ⟨d, -, -, hd, -⟩ := compile_eq_ok hc
  have hnamed : d.Named (calls schema key aggregates options) := by
    refine draft_induct hd ⟨Namer.sound_empty, fun _ h => by cases h⟩ ?_ ?_
    · intro stmt hstmt d d' cs hq hr
      exact hq.addKey (wellFormed_of_mem_statements hstmt) hr
    · intro p hp stmt hstmt d d' cs hq hr
      exact hq.addStatement (wellFormed_of_mem_statements hstmt) hr
  have named : ∀ f ∈ folds schema key aggregates options, f.Named d.namer := by
    intro f hf
    obtain ⟨call, hm, hf⟩ := List.mem_flatMap.1 hf
    exact hnamed.calls call hm f hf
  intro f hf g hg
  exact (named f hf).name_eq_iff hnamed.sound (named g hg)

/-- Delimiters with null characters and quotes, and an average that shares its sum. -/
theorem folds_share_accumulators_keyAndNumber :
    ∃ c, compile keyAndNumber (some "a")
        [(.group, "x = concat(b, '\x00'); y = concat(b, '\x00\"'); z = avg(b) + sum(b)"),
          (.stream, "t = sum(b)")] {} = .ok c ∧
      (folds keyAndNumber (some "a")
        [(.group, "x = concat(b, '\x00'); y = concat(b, '\x00\"'); z = avg(b) + sum(b)"),
          (.stream, "t = sum(b)")] {}).map (·.accumulator.name)
        = ["__grp_0", "__grp_1", "__grp_2", "__grp_3", "__grp_2", "__acc_0"] ∧
      ∀ f ∈ folds keyAndNumber (some "a")
          [(.group, "x = concat(b, '\x00'); y = concat(b, '\x00\"'); z = avg(b) + sum(b)"),
            (.stream, "t = sum(b)")] {},
        ∀ g ∈ folds keyAndNumber (some "a")
            [(.group, "x = concat(b, '\x00'); y = concat(b, '\x00\"'); z = avg(b) + sum(b)"),
              (.stream, "t = sum(b)")] {},
          f.accumulator.name = g.accumulator.name ↔ f.Same g := by
  exact exists_ok_of (by decide +kernel) fun c hc =>
    ⟨by decide +kernel, folds_share_accumulators hc⟩

end GroupProgram

end Compile

end RowAwk
