import RowAwk.Proofs.Copies
import RowAwk.Proofs.GroupLines

/-!
The sort order of grouping programs.

While a group lasts, the variables of its keys hold the columns of its first row. On a row with other
keys the group is printed first. Accumulators keep to names of their own, so what reaches an output
is what the key holds, and the records come in the order of the first rows of their groups.

    rows       1 x   1 y   2 x   2 z   3 y          key a
    records    1 …         2 …         3 …          each shows the column of the first row
-/

open List

namespace RowAwk.Compile

open Awk (Category Const Engine Expr Key Line Machine Moment Row Store rowOf)
open Awk.Expr (HandsOn)
open Schema (Order SortKind)
open Syntax (Literal isInternal)

/-! ### Names of outputs -/

theorem Distinct.of_isInternal {name : String} (h : isInternal name = true) : Distinct name := by
  obtain ⟨hg, hw⟩ := GroupProgram.harmless_internal h
  refine ⟨hg, hw, ?_⟩
  rintro rfl
  exact absurd h (by decide)

namespace GroupProgram.Draft

/-- A draft of sources that bind distinct names: what keys compare, what accumulators are named, and
    what outputs refer to. -/
structure Tidy (schema : Schema) (d : Draft) : Prop extends d.Settled Distinct where
  order : Laid AnyAccumulator d.IsKey d.namer.entries [] d.outScope.bindings
  traced : d.Traced schema

variable {schema : Schema} {d : Draft} {p : Nat} {n m x : String} {e b : Expr}

theorem Tidy.isInternal_key (h : d.Tidy schema) (hx : d.IsKey x) : isInternal x = true :=
  h.lawful.ofKey_internal hx.ofKey

theorem Tidy.ne_accumulator (h : d.Tidy schema) (hx : d.IsKey x) (c : Category) (i : Nat) :
    x ≠ c.stem ++ toString i := by
  rintro rfl
  obtain ⟨k, hk, hkx⟩ := hx
  obtain ⟨-, j, -, hj, -⟩ := h.lawful.keys.named k hk
  have key : ∀ c : Category, c.stem ∈ stems ∧ c.stem ≠ "__key" := by
    intro c
    cases c <;> decide
  obtain ⟨hs, -⟩ := stem_number_inj (by decide) (key c).1 (hj.symm.trans hkx)
  exact (key c).2 hs.symm

/-- A name that is bound for the outputs is no variable of awk and no array. -/
theorem Tidy.names_out (h : d.Tidy schema) (hm : (n, b) ∈ d.outScope.bindings) :
    n ∉ awkVariables ∧ n ≠ "inf" ∧ ∀ j : Nat, n ≠ "_split" ++ toString j := by
  cases h.hygienic.out n b hm with
  | source hu _ =>
    refine ⟨hu.notAwk, hu.notInf, fun j hj => ?_⟩
    have hg := hu.notGenerated
    rw [hj, isGenerated_number (by decide)] at hg
    cases hg
  | helper hb =>
    refine ⟨fun hw => ?_, ne_inf_of_isGenerated hb.isGenerated, hb.ne_array⟩
    have key : ∀ w ∈ awkVariables, isGenerated w = false := by decide
    exact absurd hb.isGenerated (by rw [key n hw]; decide)

theorem Tidy.names_copies (h : d.Tidy schema) (hc : d.Copies p m) :
    m ∉ awkVariables ∧ m ≠ "inf" ∧ ∀ j : Nat, m ≠ "_split" ++ toString j := by
  cases hc with
  | key hk _ =>
    have hi := h.isInternal_key ⟨_, hk, rfl⟩
    have hu := Distinct.of_isInternal hi
    refine ⟨hu.notAwk, hu.notInf, fun j hj => ?_⟩
    rw [hj, isInternal_number (by decide)] at hi
    cases hi
  | copy hm _ _ _ _ => exact h.names_out hm

theorem Copies.isKey_or (hc : d.Copies p m) : d.IsKey m ∨ isInternal m = false := by
  cases hc with
  | key hk _ => exact .inl ⟨_, hk, rfl⟩
  | copy _ hi _ _ _ => exact .inr hi

/-- The name that a copy is made of is a key, or a variable that is bound before the copy. -/
theorem Tidy.copied_before (h : d.Tidy schema) {B₁ B₂ : List (String × Expr)}
    (hB : d.outScope.bindings = B₁ ++ (n, .assign n e) :: B₂) (hi : isInternal n = false)
    (hn : Syntax.isName m = true) (hs : e.shape = .word m.toList) (hc : d.Copies p m) :
    d.IsKey m ∨ m ∈ B₁.map Prod.fst ∧ m ∈ (Expr.assign n e).varNames ∧
      isInternal m = false := by
  have hmem : (n, .assign n e) ∈ d.outScope.bindings := hB ▸ by simp
  obtain ⟨hawk, hinf, harray⟩ := h.names_copies hc
  have he := (h.hygienic.out n _ hmem).lowered_of_word hs
  have hlaid := h.order
  rw [hB] at hlaid
  obtain ⟨-, hrefers, -⟩ := laid_append.1 hlaid
  have hm : m ∈ (Expr.assign n e).lookups := by
    rw [Expr.lookups, (he.of_word hs hn hinf).2.1 hawk]
    exact mem_singleton.2 rfl
  cases hrefers hi m hm with
  | given hk => exact .inl hk
  | accumulated ha _ hname =>
    -- accumulators are named after their categories
    obtain ⟨f, hf, hfname⟩ := h.lawful.exists_fold hmem (mem_aggregates.2 ha)
    obtain ⟨-, i, hfi⟩ := h.lawful.of_mem_foldsOf hf
    have hm := hname.symm.trans (hfname.symm.trans hfi)
    rcases hc.isKey_or with hk | hm'
    · exact absurd hm (h.ne_accumulator hk _ i)
    · rw [hm, isInternal_stem] at hm'
      cases hm'
  | bound hv hn hi hg =>
    cases hg with
    | self => exact .inr ⟨hn, hv, hi⟩
    | array => exact absurd rfl (harray _)

section

variable {V : Type} {M : Machine V} {columns : Nat → V} {σ : Store V}

/-- A copy has, in the end, the value of the name that it is made of. -/
theorem foldl_execute_copy {cs₁ cs₂ : List Expr}
    (he : M.eval columns (cs₁.foldl (M.execute columns) σ) e
      = cs₁.foldl (M.execute columns) σ m) (hsplit : e.splitting? = none) (hne : m ≠ n)
    (hn : ∀ c ∈ cs₂, n ∉ writes c) (hm : ∀ c ∈ cs₂, m ∉ writes c) :
    (cs₁ ++ .assign n e :: cs₂).foldl (M.execute columns) σ n
      = (cs₁ ++ .assign n e :: cs₂).foldl (M.execute columns) σ m := by
  rw [foldl_append, foldl_cons, foldl_execute_of_not_mem hn, foldl_execute_of_not_mem hm]
  simp only [Machine.execute, hsplit]
  rw [Function.update_self, Function.update_of_ne hne, he]

/-- The names that outputs refer to. -/
def Referred (d : Draft) (x : String) : Prop :=
  x ∈ (d.outScope.bindings.map Prod.snd).flatMap Expr.varNames

/-- What copies have, once variables are computed, is what a key holds. -/
theorem Tidy.computing_copies (h : d.Tidy schema) (hc : d.Copies p n)
    (hr : d.IsKey n ∨ d.Referred n) :
    ∃ k ∈ d.keys, Reaches d.keyScope.bindings p k.value ∧
      d.computing.foldl (M.execute columns) σ n = σ k.name := by
  induction hc with
  | @key k hk hreach =>
    exact ⟨k, hk, hreach, h.hygienic.computing_internal (h.isInternal_key ⟨k, hk, rfl⟩)⟩
  | @copy n m e hm hi hname hs hc ih =>
    have hr : d.Referred n := hr.resolve_left fun hk => by
      rw [h.isInternal_key hk] at hi
      cases hi
    have hcomputed : d.isComputed n = true := (Projection.wanted_iff hi).2 ⟨hr, nofun⟩
    obtain ⟨B₁, B₂, hB⟩ := append_of_mem hm
    have hbefore := h.copied_before hB hi hname hs hc
    have hm' : d.IsKey m ∨ d.Referred m := hbefore.imp_right fun ⟨_, hv, _⟩ =>
      mem_flatMap.2 ⟨_, mem_map.2 ⟨_, hm, rfl⟩, hv⟩
    obtain ⟨k, hk, hreach, hvalue⟩ := ih hm'
    refine ⟨k, hk, hreach, ?_⟩
    rw [← hvalue]
    have hdistinct := h.traced.distinct
    rw [Scope.names, hB, map_append, map_cons] at hdistinct
    obtain ⟨hn, hrest⟩ := nodup_cons.1 (nodup_middle.1 hdistinct)
    rw [mem_append, not_or] at hn
    have he := (h.hygienic.out n _ hm).lowered_of_word hs
    have hcomputing : d.computing = (B₁.filter fun q => d.isComputed q.1).map Prod.snd ++
        .assign n e :: (B₂.filter fun q => d.isComputed q.1).map Prod.snd := by
      rw [computing_eq, hB]
      simp [filter_append, hcomputed]
    -- neither name is set again behind the copy
    have hlater : ∀ x, x ∉ B₂.map Prod.fst ∨ isInternal x = true →
        (∀ j : Nat, x ≠ "_split" ++ toString j) →
        ∀ c ∈ (B₂.filter fun q => d.isComputed q.1).map Prod.snd, x ∉ writes c := by
      intro x hx harray c hc hw
      obtain ⟨⟨n₂, b₂⟩, hm₂, rfl⟩ := mem_map.1 hc
      obtain ⟨hm₂, hcomputed₂⟩ := mem_filter.1 hm₂
      have hmem : (n₂, b₂) ∈ d.outScope.bindings := hB ▸ by simp [hm₂]
      rcases h.hygienic.writes_out hmem hw with rfl | ⟨j, hj⟩
      · rcases hx with hx | hx
        · exact hx (mem_map.2 ⟨_, hm₂, rfl⟩)
        · rw [isInternal_of_isComputed hcomputed₂] at hx
          cases hx
      · exact harray j hj
    rw [hcomputing]
    refine foldl_execute_copy ((he.of_word hs hname (h.names_copies hc).2.1).2.2 _ _ _ _)
      he.splitting? ?_ (hlater n (.inl hn.2) (h.names_out hm).2.2)
      (hlater m ?_ (h.names_copies hc).2.2)
    · rintro rfl
      rcases hbefore with hk | ⟨hmem, -⟩
      · rw [h.isInternal_key hk] at hi
        cases hi
      · exact hn.1 hmem
    · rcases hbefore with hk | ⟨hmem, -⟩
      · exact .inr (h.isInternal_key hk)
      · exact .inl fun hm₂ => (nodup_append.1 hrest).2.2 m hmem m hm₂ rfl

variable (M columns σ) in
/-- What is printed for an output that a column reaches is what a key holds. -/
theorem Tidy.eval_printed (h : d.Tidy schema) (hm : (n, b) ∈ Projection.outputs d.outScope)
    (hc : d.Copies p n) : ∃ k ∈ d.keys, Reaches d.keyScope.bindings p k.value ∧
      M.eval columns (d.computing.foldl (M.execute columns) σ)
        (Projection.printed ((d.outScope.bindings.map Prod.snd).flatMap Expr.varNames) n b)
        = σ k.name := by
  obtain ⟨hm, hshown⟩ := mem_filter.1 hm
  have hi := isInternal_of_shown (show Syntax.isHidden n = false by simpa using hshown)
  rw [Projection.printed]
  split
  · rename_i hr
    rw [Machine.eval]
    exact h.computing_copies hc (.inr (contains_iff_mem.1 hr))
  · cases hc with
    | key hk _ =>
      rw [h.isInternal_key ⟨_, hk, rfl⟩] at hi
      cases hi
    | @copy _ m e hm' _ hname hs hc =>
      obtain ⟨-, rfl⟩ := Prod.mk.inj (inj_on_of_nodup_map h.traced.distinct hm hm' rfl)
      have he := (h.hygienic.out n _ hm).lowered_of_word hs
      rw [Expr.boundValue, (he.of_word hs hname (h.names_copies hc).2.1).2.2]
      obtain ⟨B₁, B₂, hB⟩ := append_of_mem hm
      refine h.computing_copies hc ((h.copied_before hB hi hname hs hc).imp_right fun hv => ?_)
      exact mem_flatMap.2 ⟨_, mem_map.2 ⟨_, hm, rfl⟩, hv.2.1⟩

/-! ### The head of a row -/

theorem Reaches.splitting? {B : List (String × Expr)} (h : Reaches B p e)
    (he : ∀ cs, e.shape = .word cs → e.Lowered Const.Written) : e.splitting? = none := by
  cases h with
  | field | joined => rfl
  | through _ hs _ => exact (he _ hs).splitting?

/-- Once the helpers of a row are computed, what reaches a column has its value. -/
theorem Tidy.eval_reaches (h : d.Tidy schema) (hr : Reaches d.keyScope.bindings p e)
    (he : ∀ cs, e.shape = .word cs → e.Lowered Const.Written) :
    Keeps M (columns p) (M.eval columns (d.helpers.foldl (M.execute columns) σ) e) := by
  induction hr with
  | field => exact .inl (by rw [Machine.eval])
  | joined => exact .inr (by simp only [Machine.eval, Machine.evalAll])
  | @through m e v hm hs hv ih =>
    have hlowered : ∀ cs, v.shape = .word cs → v.Lowered Const.Written := fun cs hcs =>
      (h.hygienic.key m _ hm).lowered_of_word hcs
    have hhelper := h.hygienic.key.helper hm
    obtain ⟨hstaged, -⟩ := h.grounded.staged (fun _ h => h) h.hygienic
    have hmem : Expr.assign m v ∈ d.helpers :=
      mem_map.2 ⟨_, mem_append_left _ hm, rfl⟩
    have hsteady : M.execute columns (d.helpers.foldl (M.execute columns) σ) (.assign m v) m
        = d.helpers.foldl (M.execute columns) σ m := hstaged.steady hmem (mem_writes_assign m v)
    simp only [Machine.execute, hv.splitting? hlowered, Function.update_self] at hsteady
    rw [((he _ hs).of_word hs hhelper.isName (ne_inf_of_isGenerated hhelper.isGenerated)).2.2,
      ← hsteady]
    exact ih hlowered

variable {E : Engine V} {text : V → String} {row : Row V}

theorem Tidy.value_lowered (h : d.Tidy schema) {k : Key} (hk : k ∈ d.keys) :
    k.value.Lowered Const.Written := by
  obtain ⟨v, -, -, -, hv, heq⟩ := h.traced.keys k hk
  rw [heq, grouped]
  split
  · refine .op (by simp [Fits]) fun a ha => ?_
    rcases mem_cons.1 ha with rfl | ha
    · exact hv
    · rw [mem_singleton.1 ha]
      exact .const (.str "")
  · exact hv

/-- A key that reaches a column shows it. -/
theorem Tidy.text_key (h : d.Tidy schema) {k : Key} (hk : k ∈ d.keys)
    (hr : Reaches d.keyScope.bindings p k.value)
    (hjoin : ∀ p, text (E.op .concat [row.columns p, E.const (.str "")]) = text (row.columns p)) :
    text (E.eval row.columns (d.head E row) k.value) = text (row.columns p) := by
  rcases h.eval_reaches hr fun _ _ => h.value_lowered hk with hv | hv
  · rw [head, hv]
  · rw [head, hv, hjoin]

/-- A record of a group shows the row whose keys the group has. -/
theorem Tidy.shows (h : d.Tidy schema) {projection : Projection} {derived : Schema}
    {size : Option Nat} {metadata : Schema.Metadata}
    (hp : Projection.of d.outScope none schema.order = .ok projection)
    (hd : projection.schema size metadata = .ok derived)
    (hjoin : ∀ p, text (E.op .concat [row.columns p, E.const (.str "")]) = text (row.columns p))
    (hkeys : d.HasKeys E row σ) :
    Shows text schema derived (d.flushing E columns σ).record row := by
  intro o ho
  obtain ⟨hnames, hderived⟩ := Projection.derivedFrom hp hd
  obtain ⟨b, hb, hands⟩ := (hderived.carries_of_mem ho).handed
  obtain ⟨i, hi, hc⟩ := h.traced.out _ b _ (mem_of_mem_filter hb) hands
  obtain ⟨k, hk, hreach, hvalue⟩ := h.eval_printed E.toMachine columns _ hb hc
  have hnodup : ((Projection.outputs d.outScope).map Prod.fst).Nodup :=
    h.traced.distinct.sublist (filter_sublist.map Prod.fst)
  rw [flushing, recordText_outputs hnames hnodup hb, flushed, hvalue,
    h.lawful.effects_eq (fun _ => rfl) (filter_subset_self _) (.inl ⟨k, hk, .inl rfl⟩), hkeys k hk,
    h.text_key hk hreach hjoin, columnText, hi]
  rfl

end

end GroupProgram.Draft

/-! ### Rows and their records -/

/-- A list drawn from another: elements in order, each any number of times. -/
inductive Drawn {α : Type} : List α → List α → Prop
  | nil : Drawn [] []
  | skip {xs ys} (y) : Drawn xs ys → Drawn xs (ys ++ [y])
  | take {xs ys y} : Drawn xs (ys ++ [y]) → Drawn (xs ++ [y]) (ys ++ [y])

namespace Drawn

variable {α : Type} {xs ys : List α} {x : α}

theorem subset (h : Drawn xs ys) : xs ⊆ ys := by
  induction h with
  | nil => exact List.Subset.refl _
  | skip y _ ih => exact List.Subset.trans ih (subset_append_left _ _)
  | take _ ih => exact append_subset.2 ⟨ih, by simp⟩

/-- The last element that was drawn may be drawn again. -/
theorem again (h : Drawn (xs ++ [x]) ys) : Drawn (xs ++ [x] ++ [x]) ys := by
  generalize hz : xs ++ [x] = zs at h
  induction h generalizing xs with
  | nil => simp at hz
  | skip y _ ih => exact .skip y (ih hz)
  | take h _ =>
    obtain ⟨-, hlast⟩ := append_inj' hz rfl
    cases hlast
    exact .take (.take h)

/-- What is drawn from a list in order is in order. -/
theorem pairwise (h : Drawn xs ys) {R : α → α → Prop} (hrefl : ∀ a, R a a) (hys : ys.Pairwise R) :
    xs.Pairwise R := by
  induction h with
  | nil => exact .nil
  | skip y _ ih => exact ih (pairwise_append.1 hys).1
  | take h ih =>
    refine pairwise_append.2 ⟨ih hys, pairwise_singleton _ _, fun a ha b hb => ?_⟩
    rw [mem_singleton.1 hb]
    rcases mem_append.1 (h.subset ha) with ha | ha
    · exact (pairwise_append.1 hys).2.2 a ha _ mem_cons_self
    · rw [mem_singleton.1 ha]
      exact hrefl _

end Drawn

namespace GroupProgram.Draft

variable {V : Type} {E : Engine V} {d : Draft} {U : String → Prop} {past : List (Row V)}
variable {row : Row V} {σ τ υ : Store V} {ms ms' : List (Moment V)} {options : Options}

/-- A record is that of a group with the keys of a row. -/
def Prints (E : Engine V) (d : Draft) (m : Moment V) (row : Row V) : Prop :=
  ∃ columns σ, m = d.flushing E columns σ ∧ d.HasKeys E row σ

/-- What has been printed is about rows drawn from those so far, and once there are some, the group
    has the keys of a row that may be drawn next. -/
def Showing (E : Engine V) (d : Draft) (past : List (Row V)) (σ : Store V) (ms : List (Moment V)) :
    Prop :=
  ∃ drawn, List.Forall₂ (d.Prints E) ms drawn ∧ Drawn drawn past ∧
    (past ≠ [] → ∃ row, d.HasKeys E row σ ∧ Drawn (drawn ++ [row]) past)

namespace Showing

theorem congr (h : d.Showing E past σ ms) (hs : ∀ x, d.IsKey x → τ x = σ x) :
    d.Showing E past τ ms := by
  obtain ⟨drawn, hprints, hdrawn, hnext⟩ := h
  refine ⟨drawn, hprints, hdrawn, fun hne => ?_⟩
  obtain ⟨row, hkeys, hnext⟩ := hnext hne
  exact ⟨row, hkeys.congr hs, hnext⟩

/-- A row with the keys of its group may not be drawn, and its group stays. -/
theorem skip (h : d.Showing E past σ ms) (hne : past ≠ []) (row : Row V) :
    d.Showing E (past ++ [row]) σ ms := by
  obtain ⟨drawn, hprints, hdrawn, hnext⟩ := h
  obtain ⟨held, hkeys, hnext⟩ := hnext hne
  exact ⟨drawn, hprints, hdrawn.skip row, fun _ => ⟨held, hkeys, hnext.skip row⟩⟩

theorem takeOver (h : d.Showing E past σ ms) (hkeys : d.HasKeys E row τ) :
    d.Showing E (past ++ [row]) τ ms := by
  obtain ⟨drawn, hprints, hdrawn, -⟩ := h
  exact ⟨drawn, hprints, hdrawn.skip row, fun _ => ⟨row, hkeys, .take (hdrawn.skip row)⟩⟩

theorem flush (h : d.Showing E past σ ms) (hd : d.Settled U) (hne : past ≠ [])
    (columns : Nat → V) :
    d.Showing E past (d.flushed E columns σ) (ms ++ [d.flushing E columns σ]) := by
  obtain ⟨drawn, hprints, -, hnext⟩ := h
  obtain ⟨row, hkeys, hnext⟩ := hnext hne
  exact ⟨drawn ++ [row], rel_append hprints (.cons ⟨columns, σ, rfl, hkeys⟩ .nil), hnext,
    fun _ => ⟨row, hkeys.congr fun x hx => hd.flushed_ofKey hx.ofKey, hnext.again⟩⟩

/-- One more row. -/
theorem switch (h : d.Showing E past σ ms) (hd : d.Settled U) (ha : d.Arrived E row σ τ)
    (hs : d.Switched E options past row τ ms υ ms') : d.Showing E (past ++ [row]) υ ms' := by
  have harr : d.Showing E past τ ms := h.congr fun _ => ha.isKey hd.lawful
  have hinit {ρ : Store V} (x : String) (hx : d.IsKey x) :
      E.effects row.columns Line.init d.groupFolds ρ x = ρ x :=
    hd.lawful.effects_eq (fun _ => rfl) (subset_append_left _ _) (.inl hx.ofKey)
  cases hs with
  | first _ ht => exact harr.takeOver (ht.hasKeys ha.rowKey)
  | joins hne _ => exact harr.skip hne row
  | exposed _ _ _ ht => exact (harr.takeOver (ht.hasKeys ha.rowKey)).congr hinit
  | printed hne _ _ ht =>
    exact ((harr.flush hd hne row.columns).takeOver (ht.hasKeys (ha.flushed hd))).congr hinit

end Showing

variable (E options) in
/-- A whole run: the records are about rows drawn from all rows. -/
theorem Settled.exists_drawn (hd : d.Settled U) {order : List Order} {p : Projection}
    (hp : Projection.of d.outScope none order = .ok p) (outside : Nat → V) (σ : Store V)
    (rows : List (Row V)) :
    ∃ drawn, Drawn drawn rows ∧
      List.Forall₂ (d.Prints E) (E.moments (d.program options p.block) outside σ rows) drawn := by
  obtain ⟨τ, ms, hshowing, hmoments⟩ := hd.exists_moments options (I := d.Showing E) hp
    outside σ ⟨[], .nil, .nil, fun h => absurd rfl h⟩ (fun {_ row _ _ _ _ _} h ha hs => by
      have hupdated := (h.switch hd ha hs).congr (τ := E.effects row.columns Line.update d.folds _)
        fun x hx => hd.lawful.effects_eq (fun _ => rfl) (List.Subset.refl _) (.inl hx.ofKey)
      dsimp only
      split
      · exact hupdated.flush hd (by simp) row.columns
      · exact hupdated) rows
  rw [hmoments]
  split
  · obtain ⟨drawn, hprints, hdrawn, -⟩ := hshowing
    exact ⟨drawn, hdrawn, hprints⟩
  · rename_i hne
    obtain ⟨drawn, hprints, hdrawn, -⟩ := hshowing.flush hd (fun h => hne (.inr h)) outside
    exact ⟨drawn, hdrawn, hprints⟩

end GroupProgram.Draft

namespace GroupProgram

variable {schema : Schema} {key : Option String} {aggregates : List (Category × String)}
variable {options : Options} {c : Compiled}

theorem tidy_draft {d : Draft} (h : draft schema key aggregates options = .ok d)
    (hn : ∀ n ∈ boundNames key aggregates options, Plain n ∧ n ≠ "inf") : d.Tidy schema := by
  have hplain : ∀ n ∈ boundNames key aggregates options,
      isInternal n = false ∧ isGenerated n = false := fun n hm =>
    ⟨(hn n hm).1.notInternal, (hn n hm).1.notGenerated⟩
  have hgiven : d.Given (boundNames key aggregates options) = d.IsKey := by
    funext x
    rw [Draft.Given, loose_eq_false hplain, false_or, Draft.IsKey]
  refine ⟨⟨grounded_draft h, (lawful_draft h).1, ?_⟩, hgiven ▸ (orderly_draft h).1.out,
    traced_draft h hplain⟩
  refine (hygienic_calls admits_spelt (fun _ h => h.notGenerated) (fun _ => .of_isInternal) h
    (fun _ _ _ => wellFormed_of_mem_statements) fun n hm => ?_).1
  obtain ⟨⟨-, hawk, hgenerated⟩, hinf⟩ := hn n hm
  exact ⟨hgenerated, hawk, hinf⟩

theorem derivedFrom_compile (hc : compile schema key aggregates options = .ok c) :
    ∃ d, draft schema key aggregates options = .ok d ∧
      c.schema.fieldNames = (Projection.outputs d.outScope).map Prod.fst ∧
      DerivedFrom (Projection.outputs d.outScope) schema.order c.schema.order := by
  obtain ⟨d, projection, derived, hdraft, hp, hd, rfl⟩ := compile_eq_ok hc
  exact ⟨d, hdraft, Projection.derivedFrom hp hd⟩

/-- The records of a grouping program show some of the rows, in their order. -/
theorem exists_drawn (hc : compile schema key aggregates options = .ok c)
    (hn : ∀ n ∈ boundNames key aggregates options, Plain n ∧ n ≠ "inf") {V : Type} (E : Engine V)
    {text : V → String} {rows : List (Row V)} (hjoin : ∀ row ∈ rows, ∀ p,
      text (E.op .concat [row.columns p, E.const (.str "")]) = text (row.columns p))
    (outside : Nat → V) (σ : Store V) :
    ∃ drawn, Drawn drawn rows ∧
      List.Forall₂ (Shows text schema c.schema) (E.run c.program outside σ rows) drawn := by
  obtain ⟨d, projection, derived, hdraft, hp, hd, rfl⟩ := compile_eq_ok hc
  have htidy := tidy_draft hdraft hn
  obtain ⟨drawn, hdrawn, hprints⟩ := htidy.exists_drawn E options hp outside σ rows
  have hall := (forall₂_and_left _ _).2 ⟨fun row hm => hjoin row (hdrawn.subset hm), hprints.flip⟩
  refine ⟨drawn, hdrawn, forall₂_map_left_iff.2 (hall.flip.imp ?_)⟩
  rintro m row ⟨hjoin, columns, τ, rfl, hkeys⟩
  exact htidy.shows hp hd hjoin hkeys

end GroupProgram

/-! ### Derived orders -/

/-- On every engine, and however texts compare by kind, rows in the order of a description give
    records in the derived one. Joining a column to an empty text must not change its text. -/
def Compiled.KeepsOrder (schema : Schema) (c : Compiled) : Prop :=
  ∀ (V : Type) (E : Engine V) (text : V → String) (le : SortKind → String → String → Prop),
    (∀ k a, le k a a) → ∀ rows : List (Row V),
    (∀ row ∈ rows, ∀ p,
      text (E.op .concat [row.columns p, E.const (.str "")]) = text (row.columns p)) →
    rows.Pairwise (Schema.Precedes le (columnText text schema) schema.order) →
    ∀ outside σ, (E.run c.program outside σ rows).Pairwise
      (Schema.Precedes le (recordText text c.schema) c.schema.order)

/-- The derived order is the longest that the outputs carry. Records come in that order, if the
    sources bind plain names only. -/
theorem derived_order_carried_and_kept (schema : Schema) :
    (∀ filters maps c, RowProgram.compile schema filters maps = .ok c →
      (∃ filter state, (RowProgram.lowerAll schema filters maps).run (.start schema)
          = .ok (filter, state) ∧
        c.schema.fieldNames = (Projection.outputs state.scope).map Prod.fst ∧
        DerivedFrom (Projection.outputs state.scope) schema.order c.schema.order) ∧
      ((∀ n ∈ RowProgram.boundNames schema maps, Plain n) → c.KeepsOrder schema)) ∧
    ∀ key aggregates options c, GroupProgram.compile schema key aggregates options = .ok c →
      (∃ d, GroupProgram.draft schema key aggregates options = .ok d ∧
        c.schema.fieldNames = (Projection.outputs d.outScope).map Prod.fst ∧
        DerivedFrom (Projection.outputs d.outScope) schema.order c.schema.order) ∧
      ((∀ n ∈ GroupProgram.boundNames key aggregates options, Plain n ∧ n ≠ "inf") →
        c.KeepsOrder schema) := by
  constructor
  · intro filters maps c hc
    obtain ⟨filter, state, hl, hnames, hderived⟩ := RowProgram.derivedFrom_compile hc
    refine ⟨⟨filter, state, hl, hnames, hderived⟩, ?_⟩
    intro hn V E text le _ rows hjoin hrows outside σ
    obtain ⟨shown, hsub, hshows⟩ := RowProgram.exists_shown hc hn E hjoin outside σ
    exact pairwise_of_shows hderived hshows (hrows.sublist hsub)
  · intro key aggregates options c hc
    obtain ⟨d, hd, hnames, hderived⟩ := GroupProgram.derivedFrom_compile hc
    refine ⟨⟨d, hd, hnames, hderived⟩, ?_⟩
    intro hn V E text le hrefl rows hjoin hrows outside σ
    obtain ⟨drawn, hdrawn, hshows⟩ := GroupProgram.exists_drawn hc hn E hjoin outside σ
    exact pairwise_of_shows hderived hshows
      (hdrawn.pairwise (Schema.precedes_refl hrefl) hrows)

/-- Two columns, sorted by the first and falling by the second. -/
def sortedColumns : Schema :=
  ⟨[⟨"a", .any⟩, ⟨"b", .int⟩], [⟨"a", .text, false⟩, ⟨"b", .text, true⟩], none, []⟩

/-- The records that a program over the integers prints for some rows, in the derived order. -/
def InOrder (c : Compiled) (rows : List (Row Int)) : Prop :=
  (Awk.integerEngine.run c.program (fun _ => 0) (fun _ => 0) rows).Pairwise
    (Schema.Precedes (fun _ a b => a ≤ b) (recordText toString c.schema) c.schema.order)

instance (c : Compiled) (rows : List (Row Int)) : Decidable (InOrder c rows) :=
  inferInstanceAs (Decidable (List.Pairwise _ _))

theorem Compiled.KeepsOrder.inOrder {schema : Schema} {c : Compiled} (h : c.KeepsOrder schema)
    {rows : List (Row Int)} (hrows : rows.Pairwise
      (Schema.Precedes (fun _ a b => a ≤ b) (columnText toString schema) schema.order)) :
    InOrder c rows :=
  h Int Awk.integerEngine toString _ (fun _ => String.le_refl) rows
    (fun _ _ _ => by simp [Awk.integerEngine, Awk.integers]) hrows _ _

/-- Outputs that rename a column and join another to an empty text, with a filter; and a key that is
    held by a helper and copied to an output. -/
theorem derived_order_carried_and_kept_sortedColumns :
    (∃ c, RowProgram.compile sortedColumns ["a > 1"] ["x = a; y = x; w = (b, ''); n = a + b"]
        = .ok c ∧
      c.schema.order = [⟨"y", .text, false⟩, ⟨"w", .text, true⟩] ∧ c.KeepsOrder sortedColumns ∧
      InOrder c [rowOf 1 5, rowOf 2 4, rowOf 2 3, rowOf 3 6]) ∧
    ∃ c, GroupProgram.compile sortedColumns (some "k = min((a, '')); m = b")
        [(.group, "y = k; n = sum(b)")] {} = .ok c ∧
      c.schema.order = [⟨"y", .text, false⟩, ⟨"m", .text, true⟩] ∧ c.KeepsOrder sortedColumns ∧
      InOrder c [rowOf 1 5, rowOf 2 4, rowOf 2 4, rowOf 2 3] := by
  constructor
  · refine exists_ok_of (by decide +kernel) fun c hc => ?_
    have hkeeps := ((derived_order_carried_and_kept _).1 _ _ c hc).2 (by decide +kernel)
    exact ⟨of_ok hc (by decide +kernel), hkeeps, hkeeps.inOrder (by decide +kernel)⟩
  · refine exists_ok_of (by decide +kernel) fun c hc => ?_
    have hkeeps := ((derived_order_carried_and_kept _).2 _ _ _ c hc).2 (by decide +kernel)
    exact ⟨of_ok hc (by decide +kernel), hkeeps, hkeeps.inOrder (by decide +kernel)⟩

/-- A name with two underscores is not computed, but a copy of it is taken to hand its column on. So
    the records of `__x = a; y = __x; z = b` are not in the order that is derived for them. -/
theorem derived_order_not_kept :
    ∃ c, RowProgram.compile sortedColumns [] ["__x = a; y = __x; z = b"] = .ok c ∧
      c.schema.order = [⟨"y", .text, false⟩, ⟨"z", .text, true⟩] ∧
      ¬c.KeepsOrder sortedColumns := by
  refine exists_ok_of (by decide +kernel) fun c hc => ⟨of_ok hc (by decide +kernel), fun h => ?_⟩
  have hrun : ¬InOrder c [rowOf 1 1, rowOf 2 2] := of_ok hc (by decide +kernel)
  exact hrun (h.inOrder (by decide +kernel))

end RowAwk.Compile
