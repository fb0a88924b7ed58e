import RowAwk.Proofs.Weakening

/-!
The least and the greatest of some values, as balanced trees of comparisons.

The values are split in halves down to single ones. Each node compares what its sides choose and
takes one of them, so the values stand at the leaves in order, and no leaf is deeper than it has to
be. A value that is no column is held in a helper, and values with one text share it:

    min(a + 1, b, a + 1)       _min0 = ($1 + 1)
                               ((_min0 < (($2 < _min0)?$2:_min0))?_min0:(($2 < _min0)?$2:_min0))

Awk computes texts, so what a value is worth is decided by its text, and a helper is worth what it
was assigned.
-/

open List

namespace RowAwk

namespace Awk.Expr

/-- What a tree of choices can end in, from left to right. -/
def leaves : Expr → List Expr
  | .conditional _ yes no => leaves yes ++ leaves no
  | e => [e]

/-- How deep choices are nested. -/
def nesting : Expr → Nat
  | .conditional _ yes no => max (nesting yes) (nesting no) + 1
  | _ => 0

section

variable {V : Type} (value : String → V) (holds : Op → V → V → Bool)

mutual

/-- What a tree of choices is worth, if `value` gives the worth of every text and `holds` decides
    comparisons. A variable is worth what it is assigned. -/
def worth : Expr → V
  | .conditional test yes no => if passes test then worth yes else worth no
  | .var _ (.assign _ v) => value v.text
  | e => value e.text

/-- Whether a comparison holds. -/
def passes : Expr → Bool
  | .op o [left, right] => holds o (worth left) (worth right)
  | _ => false

end

end

end Awk.Expr

namespace Compile

open Awk (Expr)

/-! ### Holding values -/

/-- Whatever is bound under a stem and a number is a helper: an assignment of an expression to whose
    text the namer has given that number. -/
structure Uncaptured (stem : String) (s : State) : Prop where
  namer : s.namer.Sound
  helper : ∀ (i : Nat) (b : Expr), s.scope.binding? (stem ++ toString i) = some b →
    ∃ w, b = .assign (stem ++ toString i) w ∧ (stem, w.text, i) ∈ s.namer.entries

theorem uncaptured_start (schema : Schema) (stem : String) : Uncaptured stem (.start schema) where
  namer := Namer.sound_empty
  helper _ _ h := by cases h

/-- Helpers that are bound on the way from one scope to another: each holds one of some values that
    is no column, and no text is held twice or again. -/
structure NewHelpers (stem : String) (values : List Expr) (sc sc' : Scope)
    (fresh : List (String × Expr)) : Prop where
  bindings : sc'.bindings = sc.bindings ++ fresh
  holds : ∀ p ∈ fresh, ∃ (i : Nat) (v : Expr), v ∈ values ∧ v.isField = false ∧
    p = (stem ++ toString i, .assign (stem ++ toString i) v)
  bound : ∀ p ∈ fresh, sc'.binding? p.1 = some p.2
  distinct : (fresh.map fun p => p.2.boundValue.text).Nodup
  unheld : ∀ p ∈ fresh, ∀ (i : Nat) (w : Expr),
    sc.binding? (stem ++ toString i) = some (.assign (stem ++ toString i) w) →
      w.text ≠ p.2.boundValue.text

/-- Values are held by references, with new helpers where that is necessary. -/
structure Holding (stem : String) (values : List Expr) (s : State) (held : List Expr) (s' : State) :
    Prop where
  uncaptured : Uncaptured stem s'
  held : List.Forall₂ (Held s'.scope stem) values held
  fresh : ∃ fresh, NewHelpers stem values s.scope s'.scope fresh

section

variable {stem : String} {s s₁ s₂ : State} {values more held held' : List Expr}

theorem NewHelpers.refl (stem : String) (values : List Expr) (sc : Scope) :
    NewHelpers stem values sc sc [] where
  bindings := (append_nil _).symm
  holds _ h := by cases h
  bound _ h := by cases h
  distinct := nodup_nil
  unheld _ h := by cases h

/-- New helpers after new helpers: what the first ones hold is not held again. -/
theorem NewHelpers.append {sc sc₁ sc₂ : Scope} {fresh fresh' : List (String × Expr)}
    (h : NewHelpers stem values sc sc₁ fresh) (h' : NewHelpers stem more sc₁ sc₂ fresh') :
    NewHelpers stem (values ++ more) sc sc₂ (fresh ++ fresh') where
  bindings := by rw [h'.bindings, h.bindings, append_assoc]
  holds p hp := by
    rcases mem_append.1 hp with hp | hp
    · obtain ⟨i, v, hv, hf, rfl⟩ := h.holds p hp
      exact ⟨i, v, mem_append_left more hv, hf, rfl⟩
    · obtain ⟨i, v, hv, hf, rfl⟩ := h'.holds p hp
      exact ⟨i, v, mem_append_right values hv, hf, rfl⟩
  bound p hp := by
    rcases mem_append.1 hp with hp | hp
    · exact Scope.binding?_of_grows ⟨fresh', h'.bindings.symm⟩ (h.bound p hp)
    · exact h'.bound p hp
  distinct := by
    rw [map_append, nodup_append]
    refine ⟨h.distinct, h'.distinct, fun t ht t' ht' => ?_⟩
    obtain ⟨p, hp, rfl⟩ := mem_map.1 ht
    obtain ⟨q, hq, rfl⟩ := mem_map.1 ht'
    have hb := h.bound p hp
    obtain ⟨i, v, -, -, rfl⟩ := h.holds p hp
    exact h'.unheld q hq i v hb
  unheld p hp i w hw := by
    rcases mem_append.1 hp with hp | hp
    · exact h.unheld p hp i w hw
    · exact h'.unheld p hp i w (Scope.binding?_of_grows ⟨fresh, h.bindings.symm⟩ hw)

theorem Holding.append (h : Holding stem values s held s₁) (h' : Holding stem more s₁ held' s₂) :
    Holding stem (values ++ more) s (held ++ held') s₂ := by
  obtain ⟨fresh, hfresh⟩ := h.fresh
  obtain ⟨fresh', hfresh'⟩ := h'.fresh
  have hgrows : s₁.scope.bindings <+: s₂.scope.bindings := ⟨fresh', hfresh'.bindings.symm⟩
  refine ⟨h'.uncaptured, ?_, fresh ++ fresh', hfresh.append hfresh'⟩
  exact rel_append (h.held.imp fun _ _ hx => hx.mono hgrows) h'.held

theorem Uncaptured.named (hs : Uncaptured stem s) (stem' key : String) :
    Uncaptured stem (s.named stem' key) where
  namer := hs.namer.nameFor stem' key
  helper i b hb := by
    obtain ⟨w, hw, hm⟩ := hs.helper i b hb
    exact ⟨w, hw, (s.grows_named stem' key).namer.subset hm⟩

theorem Uncaptured.bound (hstem : stem ∈ stems) (hs : Uncaptured stem s) {i : Nat} {v : Expr}
    (hk : (stem, v.text, i) ∈ s.namer.entries) (hb : s.scope.binding? (stem ++ toString i) = none) :
    Uncaptured stem (s.bound (stem ++ toString i) (.assign (stem ++ toString i) v)) where
  namer := hs.namer
  helper j b hj := by
    by_cases hij : stem ++ toString i = stem ++ toString j
    · obtain ⟨-, rfl⟩ := stem_number_inj hstem hstem hij
      rw [State.binding?_bound hb] at hj
      cases hj
      exact ⟨v, rfl, hk⟩
    · rw [State.binding?_bound_of_ne hij] at hj
      exact hs.helper j b hj

/-- A helper that is bound under the number of a text is new: had the text been held before, the
    number would have been taken. -/
theorem Uncaptured.newHelper (hs : Uncaptured stem s) {i : Nat} {v : Expr}
    (hk : (stem, v.text, i) ∈ s.namer.entries) (hv : v.isField = false)
    (hb : s.scope.binding? (stem ++ toString i) = none) :
    NewHelpers stem [v] s.scope
      (s.bound (stem ++ toString i) (.assign (stem ++ toString i) v)).scope
      [(stem ++ toString i, .assign (stem ++ toString i) v)] where
  bindings := rfl
  holds p hp := by
    cases mem_singleton.1 hp
    exact ⟨i, v, mem_singleton_self v, hv, rfl⟩
  bound p hp := by
    cases mem_singleton.1 hp
    exact State.binding?_bound hb
  distinct := nodup_singleton _
  unheld p hp j w hw htext := by
    cases mem_singleton.1 hp
    obtain ⟨w', hw', hm⟩ := hs.helper j _ hw
    cases hw'
    rw [htext] at hm
    rw [hs.namer.number_inj hm hk, hb] at hw
    cases hw

/-- A value gets a reference: itself if it is a column, else the helper that holds its text, which
    is bound if there is none. -/
theorem Uncaptured.hold (hstem : stem ∈ stems) (hs : Uncaptured stem s) (v : Expr) :
    ∃ x s', (Lower.helper stem v).run s = .ok (x, s') ∧ Holding stem [v] s [x] s' := by
  rw [Lower.helper]
  by_cases hf : v.isField = true
  · rw [if_pos hf]
    exact ⟨v, s, rfl, hs, .cons (.column hf) .nil, [], .refl stem [v] s.scope⟩
  rw [if_neg hf]
  obtain ⟨i, hname, hk⟩ := s.namer.nameFor_fst stem v.text
  have hnamed := hs.named stem v.text
  obtain ⟨b, s', hrun, -⟩ := bindHelper_succeeds (s.named stem v.text) (stem ++ toString i)
    (.assign (stem ++ toString i) v)
  refine ⟨.var (stem ++ toString i) b, s', ?_, ?_⟩
  · exact Lower.bind_eq_ok.2 ⟨_, _, Lower.nameFor_eq_ok.2 ⟨hname.symm, rfl⟩, hrun⟩
  have hv := Bool.eq_false_iff.2 hf
  rcases Lower.bindHelper_cases hrun with ⟨c, hb, hc, rfl⟩ | ⟨hb, hc, rfl⟩
  · -- the helper that is there holds the same text, since its number is that of the text
    obtain ⟨w, rfl, hw⟩ := hnamed.helper i c hb
    cases hc
    exact ⟨hnamed, .cons (.var hv hb (hnamed.namer.key_inj hw hk)) .nil, [], .refl _ _ _⟩
  · cases hc
    have hbound := State.binding?_bound (b := .assign (stem ++ toString i) v) hb
    exact ⟨hnamed.bound hstem hk hb, .cons (.var hv hbound rfl) .nil, _, hnamed.newHelper hk hv hb⟩

/-- Values that are no columns have one helper exactly if they have one text. -/
theorem Uncaptured.held_eq_iff (hs : Uncaptured stem s) {v v' x x' : Expr}
    (h : Held s.scope stem v x) (h' : Held s.scope stem v' x') (hv : v.isField = false)
    (hv' : v'.isField = false) : x = x' ↔ v.text = v'.text := by
  cases h with
  | column hf =>
    rw [hv] at hf
    cases hf
  | @var w i _ hb ht =>
    cases h' with
    | column hf =>
      rw [hv'] at hf
      cases hf
    | @var w' j _ hb' ht' =>
      constructor
      · intro hx
        injection hx with _ hassign
        injection hassign with _ hw
        rw [← ht, ← ht', hw]
      · intro htext
        obtain ⟨_, hw, hi⟩ := hs.helper i _ hb
        obtain ⟨_, hw', hj⟩ := hs.helper j _ hb'
        cases hw
        cases hw'
        rw [ht, htext, ← ht'] at hi
        obtain rfl := hs.namer.number_inj hi hj
        rw [hb] at hb'
        cases hb'
        rfl

end

/-! ### Trees -/

/-- The two ways to choose among values. -/
inductive Extreme where
  | least | greatest
deriving DecidableEq

namespace Extreme

def function : Extreme → Function
  | .least => .min
  | .greatest => .max

/-- The comparison that decides for the left side. -/
def op : Extreme → Awk.Op
  | .least => .less
  | .greatest => .greater

/-- The stem of the helpers. -/
def stem (e : Extreme) : String := "_" ++ e.function.name

variable {V : Type} [LinearOrder V]

/-- Which of two values goes before the other, by the strict part of an order. -/
def Precedes : Extreme → V → V → Prop
  | .least, a, b => a < b
  | .greatest, a, b => b < a

/-- The extreme one of some values. -/
def of? : Extreme → List V → Option V
  | .least, vs => vs.min?
  | .greatest, vs => vs.max?

theorem stem_mem_stems (e : Extreme) : e.stem ∈ stems := by
  cases e <;> decide

theorem of?_singleton (e : Extreme) (a : V) : e.of? [a] = some a := by
  cases e <;> rfl

/-- Of two extremes the one that goes before the other is the extreme of all. -/
theorem of?_append (e : Extreme) {as bs : List V} {a b : V} [Decidable (e.Precedes a b)]
    (ha : e.of? as = some a) (hb : e.of? bs = some b) :
    e.of? (as ++ bs) = some (if e.Precedes a b then a else b) := by
  cases e with
  | least =>
    simp only [of?, Precedes, List.min?_eq_some_iff] at ha hb ⊢
    grind
  | greatest =>
    simp only [of?, Precedes, List.max?_eq_some_iff] at ha hb ⊢
    grind

end Extreme

/-- The depth of a balanced tree over so many leaves, from those of its halves. -/
theorem clog_halves {n : Nat} (h : 2 ≤ n) :
    Nat.clog 2 n = max (Nat.clog 2 (n / 2)) (Nat.clog 2 (n - n / 2)) + 1 := by
  have hle : Nat.clog 2 (n / 2) ≤ Nat.clog 2 (n - n / 2) := Nat.clog_mono_right 2 (by omega)
  have hup : n - n / 2 = (n + 2 - 1) / 2 := by omega
  rw [max_eq_right hle, Nat.clog_of_two_le (by decide) h, hup]

/-- References are no trees themselves. -/
theorem Held.leaves_nesting {sc : Scope} {stem : String} {v x : Expr} (h : Held sc stem v x) :
    x.leaves = [x] ∧ x.nesting = 0 := by
  cases h with
  | column hv =>
    cases v with
    | field => exact ⟨rfl, rfl⟩
    | _ => cases hv
  | var => exact ⟨rfl, rfl⟩

section

variable {V : Type} {value : String → V} {holds : Awk.Op → V → V → Bool}

/-- A reference is worth what the value that it is for is worth. -/
theorem Held.worth_eq {sc : Scope} {stem : String} {v x : Expr} (h : Held sc stem v x) :
    x.worth value holds = value v.text := by
  cases h with
  | column hv =>
    cases v with
    | field => rfl
    | _ => cases hv
  | var _ _ ht => rw [Expr.worth, ht]

theorem map_worth_held {sc : Scope} {stem : String} {values held : List Expr}
    (h : List.Forall₂ (Held sc stem) values held) :
    held.map (Expr.worth value holds) = values.map fun v => value v.text := by
  induction h with
  | nil => rfl
  | cons hx _ ih => rw [map_cons, map_cons, hx.worth_eq, ih]

variable [LinearOrder V]

/-- A tree of comparisons is worth the extreme one of what its leaves are worth. -/
theorem Compared.worth_eq {e : Extreme} (ho : ∀ a b, holds e.op a b = true ↔ e.Precedes a b)
    {xs : List Expr} {x : Expr} (h : Compared e.op xs x) :
    e.of? (xs.map (Expr.worth value holds)) = some (x.worth value holds) := by
  classical
  induction h with
  | one => exact e.of?_singleton _
  | @node xs ys left right _ _ ihl ihr =>
    rw [map_append, e.of?_append ihl ihr, Expr.worth, Expr.passes]
    simp only [ho]

end

/-- What choosing among values gives: a balanced tree over references for the values. -/
structure Chosen (e : Extreme) (values : List Expr) (s : State) (x : Expr) (s' : State) : Prop where
  holding : Holding e.stem values s x.leaves s'
  compared : Compared e.op x.leaves x
  nesting : x.nesting = Nat.clog 2 values.length

/-- The halves are chosen from one after the other. -/
theorem Chosen.node {e : Extreme} {s s₁ s₂ : State} {values : List Expr} {left right : Expr}
    (hn : 2 ≤ values.length) (hl : Chosen e (values.take (values.length / 2)) s left s₁)
    (hr : Chosen e (values.drop (values.length / 2)) s₁ right s₂) :
    Chosen e values s (.conditional (.op e.op [left, right]) left right) s₂ where
  holding := by
    have h := hl.holding.append hr.holding
    rw [take_append_drop] at h
    rw [Expr.leaves]
    exact h
  compared := by
    rw [Expr.leaves]
    exact .node hl.compared hr.compared
  nesting := by
    rw [Expr.nesting, hl.nesting, hr.nesting, length_take, length_drop,
      Nat.min_eq_left (Nat.div_le_self _ _), ← clog_halves hn]

theorem chosen_comparisonTree (e : Extreme) (values : List Expr) (hne : values ≠ []) (s : State)
    (hs : Uncaptured e.stem s) :
    ∃ x s', (Library.comparisonTree e.function e.op values).run s = .ok (x, s') ∧
      Chosen e values s x s' := by
  induction values using Library.comparisonTree.induct generalizing s with
  | case1 => exact absurd rfl hne
  | case2 v =>
    rw [Library.comparisonTree]
    obtain ⟨x, s', hrun, h⟩ := hs.hold e.stem_mem_stems v
    obtain _ | ⟨hx, _⟩ := h.held
    obtain ⟨hleaves, hnesting⟩ := hx.leaves_nesting
    refine ⟨x, s', hrun, ?_, ?_, ?_⟩
    · rw [hleaves]
      exact h
    · rw [hleaves]
      exact .one
    · rw [hnesting, length_singleton, Nat.clog_one_right]
  | case3 a b more half ihl ihr =>
    have hn : 2 ≤ (a :: b :: more).length := by simp
    have hleft : (a :: b :: more).take half ≠ [] :=
      ne_nil_of_length_pos (by rw [length_take]; omega)
    have hright : (a :: b :: more).drop half ≠ [] :=
      ne_nil_of_length_pos (by rw [length_drop]; omega)
    obtain ⟨left, s₁, hl, hleft⟩ := ihl hleft s hs
    obtain ⟨right, s₂, hr, hright⟩ := ihr hright s₁ hleft.holding.uncaptured
    refine ⟨_, s₂, ?_, hleft.node hn hright⟩
    rw [Library.comparisonTree, Lower.bind_eq_ok]
    exact ⟨left, s₁, hl, Lower.bind_eq_ok.2 ⟨right, s₂, hr, rfl⟩⟩

/-- Choosing among no values is an error. Among others the choice is a tree of comparisons with a
    reference for each value at its leaves, in order; it is as deep as the logarithm of their
    number, each text that is no column is held by one helper, and the tree is worth the extreme one
    of what the values are worth, whatever order compares them. -/
theorem choices_balanced (e : Extreme) (values : List Expr) {s : State}
    (hs : Uncaptured e.stem s) :
    (values = [] → (Library.comparisonTree e.function e.op values).run s
      = .error ⟨.arity e.function.name .nothingGiven, []⟩) ∧
    (values ≠ [] → ∃ x s',
      (Library.comparisonTree e.function e.op values).run s = .ok (x, s') ∧
      Compared e.op x.leaves x ∧ x.leaves.length = values.length ∧
      List.Forall₂ (Held s'.scope e.stem) values x.leaves ∧
      x.nesting = Nat.clog 2 values.length ∧
      (∃ fresh, NewHelpers e.stem values s.scope s'.scope fresh) ∧
      (∀ {v v' y y'}, Held s'.scope e.stem v y → Held s'.scope e.stem v' y' →
        v.isField = false → v'.isField = false → (y = y' ↔ v.text = v'.text)) ∧
      ∀ {V : Type} [LinearOrder V] (value : String → V) (holds : Awk.Op → V → V → Bool),
        (∀ a b, holds e.op a b = true ↔ e.Precedes a b) →
          e.of? (values.map fun v => value v.text) = some (x.worth value holds)) := by
  constructor
  · rintro rfl
    rw [Library.comparisonTree]
    rfl
  · intro hne
    obtain ⟨x, s', hrun, h⟩ := chosen_comparisonTree e values hne s hs
    have hheld := h.holding.held
    refine ⟨x, s', hrun, h.compared, hheld.length_eq.symm, hheld, h.nesting, h.holding.fresh,
      h.holding.uncaptured.held_eq_iff, ?_⟩
    intro V _ value holds ho
    rw [← map_worth_held hheld, h.compared.worth_eq ho]

/-- Three values, two of which have one text. -/
def sharedText : List Expr :=
  [.op .add [.field "a" 1 .int, .int 1], .field "b" 2 .int, .op .add [.field "a" 1 .int, .int 1]]

open RowProgram (twoColumns) in
/-- Texts are worth their lengths. -/
theorem choices_balanced_sharedText :
    Uncaptured Extreme.least.stem (.start twoColumns) ∧
      ∃ x s', (Library.comparisonTree .min .less sharedText).run (.start twoColumns)
          = .ok (x, s') ∧
        x.nesting = 2 ∧ x.leaves.length = 3 ∧
        x.worth String.length (fun _ a b => decide (a < b)) = 2 := by
  have hs := uncaptured_start twoColumns Extreme.least.stem
  obtain ⟨x, s', hrun, -, hlength, -, hnesting, -, -, hworth⟩ :=
    (choices_balanced .least sharedText hs).2 (List.cons_ne_nil _ _)
  have hclog : Nat.clog 2 3 = 2 := by decide +kernel
  have hleast := hworth String.length (fun _ a b => decide (a < b)) fun _ _ => decide_eq_true_iff
  have hlengths : Extreme.least.of? (sharedText.map fun v => v.text.length) = some 2 := by
    decide +kernel
  rw [hlengths] at hleast
  exact ⟨hs, x, s', hrun, hnesting.trans hclog, hlength, (Option.some.inj hleast).symm⟩

end Compile

end RowAwk
