import RowAwk.Proofs.Definedness

/-!
The head of a row.

Keys and arguments of aggregates are lowered in scopes of their own, each with its own helpers. The
head of a row computes the helpers of both, those of the keys first, and each name once. A helper
that both scopes have bound is computed for the keys; since one namer has named it, its statement
has the text that the rows were lowered against.

    _abs0 = ($1 - 1)                          of the keys, and of the rows as well
    _min0 = ((_abs0 < 0)?-(_abs0):_abs0)      of the rows
    __row_key0 = ...; ...; __grp_0 += ...     use what is computed above
-/

open List

namespace RowAwk.Compile

open Awk (Block Category Const Expr Fold Key Line)

/-- A variable that an expression uses, itself or through the variables that it uses, and the
    statement that it was lowered against. An array is used through the count of its parts, and a
    line that a command has printed through the name that it was read into. -/
inductive Uses (e : Expr) : String → Expr → Prop
  | var {x b} : .var x b ∈ e.nodes → Uses e x b
  | effect {x count b} : .sideEffect x (.var count b) ∈ e.nodes → Uses e x b

/-! ### What values use is bound -/

section

variable {E : List (String × String × Nat)} {B : List (String × Expr)} {e b : Expr}
variable {name x : String}

/-- The variables that are used in an expression are set by statements among some bindings. -/
def Linked (B : List (String × Expr)) (e : Expr) : Prop :=
  e.EveryNode fun node => (∀ x b, node = .var x b → (x, b) ∈ B ∧ x ∈ writes b) ∧
    ∀ x count b, node = .sideEffect x (.var count b) → (count, b) ∈ B ∧ x ∈ writes b

theorem Linked.mono {B' : List (String × Expr)} (h : Linked B e) (hB : B ⊆ B') : Linked B' e :=
  fun node hn => ⟨fun x b hx => ((h node hn).1 x b hx).imp_left (hB ·),
    fun x count b hx => ((h node hn).2 x count b hx).imp_left (hB ·)⟩

theorem Linked.uses (h : Linked B e) (hx : Uses e x b) : ∃ m, (m, b) ∈ B ∧ x ∈ writes b := by
  cases hx with
  | var hm => exact ⟨x, (h _ hm).1 x b rfl⟩
  | effect hm => exact ⟨_, (h _ hm).2 x _ b rfl⟩

theorem writes_reading (name : String) (command : Expr) :
    writes (reading name command) = [name] := rfl

theorem Value.linked (h : Value B e) (hB : ∀ n b, (n, b) ∈ B → Linked B (.var n b)) :
    Linked B e := by
  unfold Linked at hB ⊢
  induction h with
  | const | field | word => simp
  | var hb => exact hB _ _ hb
  | array ha hb => simpa [writes_splitting ha, hb] using hB _ _ hb
  | line hb => simpa [writes_reading, hb] using hB _ _ hb
  | call _ ih | op _ _ ih => simpa using ih
  | subscript _ _ ihb ihi => simpa using ⟨ihb, ihi⟩
  | conditional _ _ _ iht ihy ihn => simpa using ⟨iht, ihy, ihn⟩

theorem Origin.linked (h : Origin E B name b) (hB : ∀ n b, (n, b) ∈ B → Linked B (.var n b)) :
    Linked B b := by
  rcases h.parts with ⟨v, rfl, hv⟩ | ⟨array, v, d, -, -, rfl, hv, hd⟩ | ⟨c, rfl, hc⟩
  · simpa [Linked] using hv.linked hB
  · simpa [Linked, splitting] using ⟨hv.linked hB, hd.linked hB⟩
  · simpa [Linked, reading] using hc.linked hB

end

section

variable {n : Namer} {B B₁ B₂ : List (String × Expr)} {e b : Expr} {name x : String}

theorem Ordered.linked (h : Ordered n.entries B) : ∀ m b, (m, b) ∈ B → Linked B (.var m b) := by
  induction h with
  | nil => exact fun m b hm => by cases hm
  | @snoc B name b _ _ ho ih =>
    intro m c hm
    have hB : B ⊆ B ++ [(name, b)] := subset_append_left _ _
    rcases mem_append.1 hm with hm | hm
    · exact (ih m c hm).mono hB
    · obtain ⟨rfl, rfl⟩ := Prod.mk.inj (mem_singleton.1 hm)
      refine Expr.everyNode_var ⟨?_, nofun⟩ ((ho.linked ih).mono hB)
      rintro y d ⟨⟩
      exact ⟨by simp, ho.mem_writes⟩

/-- What a value uses is set by a binding. -/
theorem Value.uses (h : Value B e) (hB : Ordered n.entries B) (hx : Uses e x b) :
    ∃ m, (m, b) ∈ B ∧ x ∈ Compile.writes b :=
  (h.linked hB.linked).uses hx

/-- A binding comes about over those before it. -/
theorem Ordered.before (h : Ordered n.entries (B₁ ++ (name, b) :: B₂)) :
    Ordered n.entries B₁ ∧ Origin n.entries B₁ name b := by
  induction B₂ using List.reverseRecOn with
  | nil =>
    generalize hB : B₁ ++ [(name, b)] = B at h
    cases h with
    | nil => simp at hB
    | snoc hB₁ _ ho =>
      obtain ⟨rfl, hlast⟩ := append_inj' hB rfl
      cases hlast
      exact ⟨hB₁, ho⟩
  | append_singleton B₂ p ih =>
    rw [← cons_append, ← append_assoc] at h
    generalize hB : B₁ ++ (name, b) :: B₂ ++ [p] = B at h
    cases h with
    | nil => simp at hB
    | snoc hB₁ =>
      obtain ⟨rfl, -⟩ := append_inj' hB rfl
      exact ih hB₁

/-- What a statement uses is set by a binding before it. -/
theorem Ordered.uses_before (h : Ordered n.entries (B₁ ++ (name, b) :: B₂)) {d : Expr}
    (hx : Uses b x d) : ∃ m, (m, d) ∈ B₁ ∧ x ∈ writes d := by
  obtain ⟨hB₁, ho⟩ := h.before
  exact (ho.linked hB₁.linked).uses hx

/-- Statements in stages set different names. -/
theorem Staged.disjoint {bs : List Expr} (h : Staged bs) :
    bs.Pairwise fun b c => ∀ x ∈ writes b, x ∉ writes c := by
  induction h with
  | nil => exact .nil
  | snoc _ _ hw ih =>
    refine pairwise_append.2 ⟨ih, pairwise_singleton _ _, fun b hb c hc x hx hxc => ?_⟩
    cases mem_singleton.1 hc
    exact hw x hxc (.of_mem hb hx)

theorem Staged.writes_once {bs cs : List Expr} (h : Staged (bs ++ b :: cs)) (hx : x ∈ writes b) :
    ∀ c ∈ bs ++ cs, x ∉ writes c := by
  obtain ⟨-, hrest, hcross⟩ := pairwise_append.1 h.disjoint
  intro c hc hxc
  rcases mem_append.1 hc with hc | hc
  · exact hcross c hc b mem_cons_self x hxc hx
  · exact (pairwise_cons.1 hrest).1 c hc x hx hxc

end

/-! ### The head of a draft -/

namespace GroupProgram.Draft

variable {C : Const → Prop} {U : String → Prop} {d : Draft} {b c : Expr} {m x : String}

theorem split_append {α : Type} {k r before after : List α} {b : α}
    (h : k ++ r = before ++ b :: after) :
    (∃ more, k = before ++ b :: more) ∨ ∃ more, before = k ++ more ∧ r = more ++ b :: after := by
  rcases append_eq_append_iff.1 h with h | ⟨more, hk, hmore⟩
  · exact .inr h
  · cases more with
    | nil => exact .inr ⟨[], by simpa using hk.symm, by simpa using hmore.symm⟩
    | cons b' more =>
      cases hmore
      exact .inl ⟨more, hk⟩

/-- A binding of the rows that is not computed for itself sets what one of the keys sets. -/
theorem Hygienic.writes_key (h : d.Hygienic C U) (hC : ∀ c, C c → c.Written)
    (hkey : Ordered d.namer.entries d.keyScope.bindings)
    (hrow : Ordered d.namer.entries d.rowScope.bindings) (hm : (m, b) ∈ d.rowScope.bindings)
    (hshared : d.keyScope.hasVar m = true) :
    ∃ c, (m, c) ∈ d.keyScope.bindings ∧ writes b = writes c := by
  obtain ⟨c, hc⟩ := Option.isSome_iff_exists.1 hshared
  have hmc := Scope.mem_of_binding? hc
  have halike := (h.row.helper hm).alike hC h.namer (h.key.helper hmc)
    (hrow.origin hm).mem_writes (hkey.origin hmc).mem_writes
  exact ⟨c, hmc, halike.writes_eq⟩

/-- What a statement at the head of a row uses is set by one before it. -/
theorem Grounded.uses_before (h : d.Grounded) (hC : ∀ c, C c → c.Written) (hh : d.Hygienic C U)
    {before after : List Expr} (hd : d.helpers = before ++ b :: after) (hx : Uses b x c) :
    ∃ b' ∈ before, x ∈ writes b' := by
  rw [helpers, map_append] at hd
  rcases split_append hd with ⟨more, hkey⟩ | ⟨more, rfl, hrow⟩
  · obtain ⟨first, last, hB, rfl, hlast⟩ := map_eq_append_iff.1 hkey
    obtain ⟨⟨name, b'⟩, last, rfl, rfl, -⟩ := map_eq_cons_iff.1 hlast
    have hordered := h.key
    rw [hB] at hordered
    obtain ⟨m, hm, hw⟩ := hordered.uses_before hx
    exact ⟨c, mem_map.2 ⟨_, hm, rfl⟩, hw⟩
  · -- a helper of the rows: what it uses is computed for the rows, or has been for the keys
    obtain ⟨first, last, hfilter, rfl, hlast⟩ := map_eq_append_iff.1 hrow
    obtain ⟨⟨name, b'⟩, last, rfl, rfl, -⟩ := map_eq_cons_iff.1 hlast
    obtain ⟨B₁, rest, hB, hfirst, hrest⟩ := filter_eq_append_iff.1 hfilter
    obtain ⟨skipped, B₂, rfl, hskipped, -, -⟩ := filter_eq_cons_iff.1 hrest
    have hordered := h.row
    rw [hB, ← append_assoc] at hordered
    obtain ⟨m, hm, hw⟩ := hordered.uses_before hx
    have hmem : (m, c) ∈ d.rowScope.bindings := by
      rw [hB, ← append_assoc]
      exact mem_append_left _ hm
    cases hshared : d.keyScope.hasVar m with
    | true =>
      obtain ⟨c', hc', hwrites⟩ := hh.writes_key hC h.key h.row hmem hshared
      exact ⟨c', mem_append_left _ (mem_map.2 ⟨_, hc', rfl⟩), hwrites ▸ hw⟩
    | false =>
      refine ⟨c, mem_append_right _ (mem_map.2 ⟨(m, c), ?_, rfl⟩), hw⟩
      rw [← hfirst]
      rcases mem_append.1 hm with hm | hm
      · exact mem_filter.2 ⟨hm, by simp [hshared]⟩
      · exact absurd (by simp [hshared]) (hskipped _ hm)

/-- The one statement at the head of a row that sets a variable of the keys or of the rows: it has
    the text that the variable was lowered against, and nothing up to it uses the variable. -/
theorem Grounded.exists_setter (h : d.Grounded) (hC : ∀ c, C c → c.Written) (hh : d.Hygienic C U)
    (hb : (m, b) ∈ d.keyScope.bindings ∨ (m, b) ∈ d.rowScope.bindings) (hx : x ∈ writes b) :
    ∃ before b' after, d.helpers = before ++ b' :: after ∧ x ∈ writes b' ∧ b'.text = b.text ∧
      (∀ c ∈ before ++ after, x ∉ writes c) ∧ ∀ c ∈ before ++ [b'], ∀ a, ¬Uses c x a := by
  obtain ⟨hstaged, hkeys, hrows⟩ := h.staged hC hh
  have hknown : Known d.helpers x ∧ x ∉ awkVariables ∧
      Helper (Expr.Lowered C) d.namer.entries m b := by
    rcases hb with hb | hb
    · exact ⟨hkeys _ hb x hx, (h.key.origin hb).writes_not_awk hx, hh.key.helper hb⟩
    · exact ⟨hrows _ hb x hx, (h.row.origin hb).writes_not_awk hx, hh.row.helper hb⟩
  obtain ⟨hw | ⟨b', hb', hx'⟩, hawk, hhelper⟩ := hknown
  · exact absurd hw hawk
  obtain ⟨m', hhelper'⟩ := hh.helper hb'
  have htext := (hhelper'.alike hC hh.namer hhelper hx' hx).text_eq
  obtain ⟨before, after, hd⟩ := append_of_mem hb'
  have honce := (hd ▸ hstaged).writes_once hx'
  refine ⟨before, b', after, hd, hx', htext, honce, fun c hc a ha => ?_⟩
  -- whatever used the variable so early would follow another statement that sets it
  obtain ⟨first, rest, hsplit⟩ := append_of_mem hc
  have hprefix : d.helpers = first ++ c :: (rest ++ after) := by
    rw [hd, ← singleton_append, ← append_assoc, hsplit]
    simp
  obtain ⟨c', hc', hxc⟩ := h.uses_before hC hh hprefix ha
  refine honce c' (mem_append_left _ ?_) hxc
  have hlast : first ++ (c :: rest) = before ++ [b'] := hsplit.symm
  rcases eq_nil_or_concat rest with rfl | ⟨rest, b'', rfl⟩
  · obtain ⟨rfl, -⟩ := append_inj' hlast rfl
    exact hc'
  · rw [concat_eq_append, ← cons_append, ← append_assoc] at hlast
    obtain ⟨rfl, -⟩ := append_inj' hlast rfl
    exact mem_append_left _ hc'

end GroupProgram.Draft

/-! ### Compiled programs -/

namespace GroupProgram

/-- The helpers of a row are computed once and before they are used. Whatever the keys, the
    arguments of aggregates that are updated and the helpers themselves use is set by one line at
    the head of the row. That line stands before all lines of helpers that use it, and has the text
    of the statement that its user was lowered against. -/
theorem helpers_precede_uses {schema : Schema} {key : Option String}
    {aggregates : List (Category × String)} {options : Options} {c : Compiled}
    (hc : compile schema key aggregates options = .ok c) :
    ∃ head rest, c.program.row = head.map (fun b => .line (.prepare b)) ++ rest ∧
      rest.prepared = [] ∧
      ∀ e ∈ head ++ rest.taken, ∀ x b, Uses e x b →
        ∃ before b' after, head = before ++ b' :: after ∧ x ∈ writes b' ∧ b'.text = b.text ∧
          (∀ a ∈ before ++ after, x ∉ writes a) ∧ ∀ a ∈ before ++ [b'], ∀ b, ¬Uses a x b := by
  obtain ⟨d, projection, derived, hd, hp, -, rfl⟩ := compile_eq_ok hc
  obtain ⟨-, hprepared, htaken⟩ := block_cases hp
  have hprepared : (d.program options projection.block).row.prepared = d.helpers :=
    Draft.prepared_program hprepared
  have htaken : (d.program options projection.block).row.taken
      = d.keys.map Key.value ++ d.folds.flatMap Fold.args := Draft.taken_program htaken
  have hground := grounded_draft hd
  obtain ⟨-, hh⟩ := orderly_draft hd
  have hC : ∀ c : Const, c.Written → c.Written := fun _ h => h
  obtain ⟨rest, hrow⟩ : ∃ rest, (d.program options projection.block).row
      = d.helpers.map (fun b => .line (.prepare b)) ++ rest := by
    simp only [Draft.program, List.append_assoc]
    exact ⟨_, rfl⟩
  have hhead : ∀ f : Line → List Expr, Block.gather f (d.helpers.map fun b => .line (.prepare b))
      = d.helpers.flatMap fun b => f (.prepare b) := fun f => Block.gather_lines Line.prepare _
  rw [hrow, Block.prepared, Block.gather_append, hhead] at hprepared
  rw [hrow, Block.taken, Block.gather_append, hhead] at htaken
  refine ⟨d.helpers, rest, hrow, ?_, fun e he x b hx => ?_⟩
  · simpa [Line.prepared, Block.prepared] using hprepared
  have hset : ∃ m, ((m, b) ∈ d.keyScope.bindings ∨ (m, b) ∈ d.rowScope.bindings) ∧
      x ∈ writes b := by
    rcases List.mem_append.1 he with he | he
    · obtain ⟨⟨m, e⟩, hm, rfl⟩ := List.mem_map.1 he
      rcases List.mem_append.1 hm with hm | hm
      · obtain ⟨m, hm, hw⟩ := ((hground.key.origin hm).linked hground.key.linked).uses hx
        exact ⟨m, .inl hm, hw⟩
      · obtain ⟨m, hm, hw⟩ := ((hground.row.origin (List.mem_of_mem_filter hm)).linked
          hground.row.linked).uses hx
        exact ⟨m, .inr hm, hw⟩
    · have he : e ∈ d.keys.map Key.value ++ d.folds.flatMap Fold.args := by
        rw [← htaken]
        exact List.mem_append_right _ he
      rcases hground.taken_value he with hv | hv
      · obtain ⟨m, hm, hw⟩ := hv.uses hground.key hx
        exact ⟨m, .inl hm, hw⟩
      · obtain ⟨m, hm, hw⟩ := hv.uses hground.row hx
        exact ⟨m, .inr hm, hw⟩
  obtain ⟨m, hm, hw⟩ := hset
  exact hground.exists_setter hC hh hm hw

open RowProgram (twoColumns) in
/-- Helpers that the keys and the rows share, among them an array. -/
theorem helpers_precede_uses_twoColumns :
    ∃ c head rest, compile twoColumns (some "k = abs(a - 1); unjoin(',', a, 0)")
        [(.group, "y = sum(max(b, abs(a - 1)) + unjoin_count(',', a))")] {} = .ok c ∧
      c.program.row.prepared.map Expr.text = ["_abs0 = ($1 - 1)",
        "_spcnt0 = split($1, _split0, \",\")", "_max0 = ((_abs0 < 0)?-(_abs0):_abs0)"] ∧
      c.program.row.taken.map Expr.text = ["((_abs0 < 0)?-(_abs0):_abs0)", "_split0[(0 + 1)]",
        "((($2 > _max0)?$2:_max0) + _spcnt0)"] ∧
      c.program.row = head.map (fun b => .line (.prepare b)) ++ rest ∧ rest.prepared = [] ∧
      ∀ e ∈ head ++ rest.taken, ∀ x b, Uses e x b →
        ∃ before b' after, head = before ++ b' :: after ∧ x ∈ writes b' ∧ b'.text = b.text ∧
          (∀ a ∈ before ++ after, x ∉ writes a) ∧ ∀ a ∈ before ++ [b'], ∀ b, ¬Uses a x b := by
  simp only [exists_and_left]
  exact exists_ok_of (by decide +kernel) fun c hc =>
    ⟨of_ok hc (by decide +kernel), of_ok hc (by decide +kernel), helpers_precede_uses hc⟩

end GroupProgram

end RowAwk.Compile
