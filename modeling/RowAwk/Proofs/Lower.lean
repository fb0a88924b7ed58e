import RowAwk.Compile.Lowering
import RowAwk.Proofs.Namer
import RowAwk.Proofs.SourceTrees

/-!
What lowering does to the state it runs in.

A lowering that succeeds is a chain of smaller ones, each of which hands its state to the next; the
lemmas named `…_eq_ok` take such a chain apart. Whatever is lowered, the state only grows: names
are bound behind those that are there, in the scope and in that of the rows, the namer keeps what
it has named, and the functions that are needed stay needed.
-/

open List

namespace RowAwk.Awk.Routine

theorem mem_all (r : Routine) : r ∈ all := by
  cases r <;> decide

theorem mem_require {q r : Routine} {needed : List Routine} :
    q ∈ r.require needed ↔ q ∈ needed ∨ q = r ∨ q ∈ r.dependencies := by
  simp [require, mem_all]

end RowAwk.Awk.Routine

namespace RowAwk.Compile

open Awk (Aggregate Category Expr Routine)

/-! ### Taking computations apart -/

theorem noting_eq_ok {α : Type} {note : String} {x : Except Failure α} {a : α} :
    noting note x = .ok a ↔ x = .ok a := by
  cases x <;> simp [noting]

namespace Lower

variable {α β : Type} {s s' : State}

theorem pure_eq_ok {a b : α} : (pure a : Lower α).run s = .ok (b, s') ↔ a = b ∧ s = s' := by
  show (Except.ok (a, s) : Except Failure (α × State)) = .ok (b, s') ↔ _
  simp

theorem bind_eq_ok {m : Lower α} {f : α → Lower β} {b : β} :
    (m >>= f).run s = .ok (b, s') ↔
      ∃ a t, m.run s = .ok (a, t) ∧ (f a).run t = .ok (b, s') := by
  rw [StateT.run_bind, except_bind_eq_ok]
  constructor
  · rintro ⟨⟨a, t⟩, hm, hf⟩
    exact ⟨a, t, hm, hf⟩
  · rintro ⟨a, t, hm, hf⟩
    exact ⟨(a, t), hm, hf⟩

theorem bind_pure_eq_ok {m : Lower α} {f : α → β} {b : β} :
    (m >>= fun a => pure (f a)).run s = .ok (b, s') ↔ ∃ a, m.run s = .ok (a, s') ∧ f a = b := by
  simp only [bind_eq_ok, pure_eq_ok]
  constructor
  · rintro ⟨a, t, hm, rfl, rfl⟩
    exact ⟨a, hm, rfl⟩
  · rintro ⟨a, hm, rfl⟩
    exact ⟨a, s', hm, rfl, rfl⟩

theorem fail_ne_ok {e : CompileError} {r : α × State} : (fail e : Lower α).run s ≠ .ok r := by
  intro h
  cases h

theorem noting_eq_ok {note : String} {m : Lower α} {r : α × State} :
    (noting note m).run s = .ok r ↔ m.run s = .ok r :=
  Compile.noting_eq_ok

theorem lift_eq_ok {x : Except Failure α} {a : α} :
    (liftM x : Lower α).run s = .ok (a, s') ↔ x = .ok a ∧ s = s' := by
  cases x with
  | error e =>
    constructor
    · intro h
      cases h
    · rintro ⟨h, -⟩
      cases h
  | ok b =>
    show (Except.ok (b, s) : Except Failure (α × State)) = .ok (a, s') ↔ _
    simp

end Lower

/-! ### States -/

namespace State

/-- The state before anything is lowered. -/
def start (schema : Schema) : State := ⟨.of schema, .of schema, .empty, []⟩

/-- The state as the rows see it. -/
def flip (s : State) : State := { s with scope := s.rows, rows := s.scope }

/-- The state after a key has been named. -/
def named (s : State) (stem key : String) : State :=
  { s with namer := (s.namer.nameFor stem key).2 }

/-- The state with one more binding. -/
def bound (s : State) (name : String) (statement : Expr) : State :=
  { s with scope := ⟨s.scope.schema, s.scope.bindings ++ [(name, statement)]⟩ }

/-- Nothing is lost and nothing is reordered on the way from one state to another. -/
structure Grows (s s' : State) : Prop where
  schema : s'.scope.schema = s.scope.schema
  rowSchema : s'.rows.schema = s.rows.schema
  scope : s.scope.bindings <+: s'.scope.bindings
  rows : s.rows.bindings <+: s'.rows.bindings
  namer : s.namer.entries <+: s'.namer.entries
  routines : s.routines ⊆ s'.routines

variable {s t u : State}

theorem Grows.refl (s : State) : s.Grows s :=
  ⟨rfl, rfl, prefix_rfl, prefix_rfl, prefix_rfl, fun _ hr => hr⟩

theorem Grows.trans (h : s.Grows t) (k : t.Grows u) : s.Grows u :=
  ⟨k.schema.trans h.schema, k.rowSchema.trans h.rowSchema, h.scope.trans k.scope,
    h.rows.trans k.rows, h.namer.trans k.namer, fun _ hr => k.routines (h.routines hr)⟩

theorem Grows.flip (h : s.Grows t) : s.flip.Grows t.flip :=
  ⟨h.rowSchema, h.schema, h.rows, h.scope, h.namer, h.routines⟩

theorem grows_bound (s : State) (name : String) (statement : Expr) :
    s.Grows (s.bound name statement) :=
  ⟨rfl, rfl, prefix_append _ _, prefix_rfl, prefix_rfl, fun _ hr => hr⟩

theorem grows_named (s : State) (stem key : String) : s.Grows (s.named stem key) :=
  ⟨rfl, rfl, prefix_rfl, prefix_rfl, Namer.starts_nameFor s.namer stem key,
    fun _ hr => hr⟩

theorem grows_required (s : State) (r : Routine) :
    s.Grows { s with routines := r.require s.routines } := by
  refine ⟨rfl, rfl, prefix_rfl, prefix_rfl, prefix_rfl, fun q hq => ?_⟩
  exact Routine.mem_require.2 (.inl hq)

end State

namespace Scope

variable {name : String}
variable {sc sc' : Scope} {statement : Expr}

/-- A column is referred to by its name and by its position, from one. -/
theorem field?_cases {e : Expr} (h : sc.field? name = some e) :
    ∃ i type, sc.schema.fieldIndex? name = some i ∧ e = .field name (i + 1) type := by
  obtain ⟨i, hi, h⟩ := Option.bind_eq_some_iff.1 h
  obtain ⟨field, -, h⟩ := Option.bind_eq_some_iff.1 h
  cases h
  exact ⟨i, field.type, hi, rfl⟩

theorem mem_of_binding? {b : Expr} (h : sc.binding? name = some b) : (name, b) ∈ sc.bindings := by
  obtain ⟨⟨n, c⟩, hf, rfl⟩ := Option.map_eq_some_iff.1 h
  have hn := List.find?_some hf
  simp only [beq_iff_eq] at hn
  subst hn
  exact mem_of_find?_eq_some hf

theorem not_mem_of_binding? (h : sc.binding? name = none) : name ∉ sc.bindings.map Prod.fst := by
  intro hm
  obtain ⟨⟨n, b⟩, hb, rfl⟩ := mem_map.1 hm
  have := List.find?_eq_none.1 (Option.map_eq_none_iff.1 h) _ hb
  simp at this

theorem binding?_append {n : String} {b c : Expr} :
    (⟨sc.schema, sc.bindings ++ [(name, b)]⟩ : Scope).binding? n = some c ↔
      sc.binding? n = some c ∨ sc.binding? n = none ∧ name = n ∧ b = c := by
  simp only [binding?, List.find?_append, Option.map_or]
  cases hf : sc.bindings.find? fun p => p.1 == n with
  | some p => simp
  | none =>
    by_cases hn : name = n
    · simp [hn]
    · simp [hn]

theorem bind_eq_ok :
    sc.bind name statement none = .ok sc' ↔
      sc.binding? name = none ∧ sc' = ⟨sc.schema, sc.bindings ++ [(name, statement)]⟩ := by
  rw [bind, hasVar]
  cases hb : sc.binding? name with
  | some b => simp
  | none => simp [eq_comm]

theorem mem_bind {position : Option Nat} (h : sc.bind name statement position = .ok sc')
    {b : String × Expr} : b ∈ sc'.bindings ↔ b ∈ sc.bindings ∨ b = (name, statement) := by
  rw [bind] at h
  split at h
  · cases h
  · cases h
    have hsplit := take_append_drop (position.getD sc.bindings.length) sc.bindings
    rw [mem_append, mem_cons]
    conv_rhs => rw [← hsplit, mem_append]
    tauto

end Scope

theorem State.binding?_bound {s : State} {name : String} {b : Expr}
    (h : s.scope.binding? name = none) : (s.bound name b).scope.binding? name = some b :=
  Scope.binding?_append.2 (.inr ⟨h, rfl, rfl⟩)

namespace Lower

/-! ### What each step does -/

variable {s s' : State}
variable {name : String} {statement : Expr}

theorem nameFor_eq_ok {stem key : String} :
    (nameFor stem key).run s = .ok (name, s') ↔
      name = (s.namer.nameFor stem key).1 ∧ s' = s.named stem key := by
  show (Except.ok ((s.namer.nameFor stem key).1, s.named stem key) :
    Except Failure (String × State)) = .ok (name, s') ↔ _
  simp [eq_comm]

theorem run_bind_eq_ok {u : Unit} :
    (bind name statement).run s = .ok (u, s') ↔
      s.scope.binding? name = none ∧ s' = s.bound name statement := by
  rw [Lower.bind, bind_eq_ok]
  constructor
  · rintro ⟨t, t', hg, h⟩
    cases hg
    obtain ⟨sc, t, hl, hs⟩ := bind_eq_ok.1 h
    obtain ⟨hb, rfl⟩ := lift_eq_ok.1 hl
    obtain ⟨hn, rfl⟩ := Scope.bind_eq_ok.1 hb
    cases hs
    exact ⟨hn, rfl⟩
  · rintro ⟨hn, rfl⟩
    refine ⟨s, s, rfl, bind_eq_ok.2 ⟨_, s, lift_eq_ok.2 ⟨?_, rfl⟩, rfl⟩⟩
    exact Scope.bind_eq_ok.2 ⟨hn, rfl⟩

/-- A helper is the binding that is there, or a new one. -/
theorem bindHelper_cases {e : Expr} (h : (bindHelper name statement).run s = .ok (e, s')) :
    (∃ b, s.scope.binding? name = some b ∧ e = .var name b ∧ s' = s) ∨
      (s.scope.binding? name = none ∧ e = .var name statement ∧ s' = s.bound name statement) := by
  obtain ⟨t, t', hg, h⟩ := bind_eq_ok.1 h
  cases hg
  split at h
  · rename_i v hv
    obtain ⟨b, hb, rfl⟩ := Option.map_eq_some_iff.1 hv
    obtain ⟨rfl, rfl⟩ := pure_eq_ok.1 h
    exact .inl ⟨b, hb, rfl, rfl⟩
  · rename_i hv
    obtain ⟨u, t, hb, hp⟩ := bind_eq_ok.1 h
    obtain ⟨hn, rfl⟩ := run_bind_eq_ok.1 hb
    obtain ⟨rfl, rfl⟩ := pure_eq_ok.1 hp
    exact .inr ⟨hn, rfl, rfl⟩

theorem require_eq_ok {r : Routine} {u : Unit} :
    (require r).run s = .ok (u, s') ↔ s' = { s with routines := r.require s.routines } := by
  show (Except.ok ((), { s with routines := r.require s.routines }) :
    Except Failure (Unit × State)) = .ok (u, s') ↔ _
  simp [eq_comm]

theorem inRows_eq_ok {α : Type} {m : Lower α} {a : α} :
    (inRows m).run s = .ok (a, s') ↔ m.run s.flip = .ok (a, s'.flip) := by
  rw [inRows, bind_eq_ok]
  constructor
  · rintro ⟨u, t, ht, h⟩
    cases ht
    obtain ⟨b, t, hm, h⟩ := bind_eq_ok.1 h
    obtain ⟨v, t', ht', h⟩ := bind_eq_ok.1 h
    cases ht'
    obtain ⟨rfl, rfl⟩ := pure_eq_ok.1 h
    exact hm
  · intro hm
    refine ⟨(), s.flip, rfl, bind_eq_ok.2 ⟨a, s'.flip, hm, ?_⟩⟩
    exact bind_eq_ok.2 ⟨(), s', rfl, pure_eq_ok.2 ⟨rfl, rfl⟩⟩

/-- A name stands for a column, else for a binding, else for a variable that awk sets. -/
theorem resolve_cases {n : String} {e : Expr} (h : (Lowering.resolve n).run s = .ok (e, s')) :
    s' = s ∧ ((s.scope.field? n = some e ∧ Syntax.isInternal n = false) ∨
      (s.scope.field? n = none ∧ ∃ b, s.scope.binding? n = some b ∧ e = .var n b) ∨
      (s.scope.field? n = none ∧ s.scope.binding? n = none ∧ n ∈ awkVariables ∧
        e = .builtin n)) := by
  obtain ⟨t, t', hg, h⟩ := bind_eq_ok.1 h
  cases hg
  cases hf : s.scope.field? n with
  | some field =>
    simp only [hf] at h
    split at h
    · exact absurd h fail_ne_ok
    · rename_i hi
      obtain ⟨rfl, rfl⟩ := pure_eq_ok.1 h
      exact ⟨rfl, .inl ⟨rfl, Bool.eq_false_iff.2 hi⟩⟩
  | none =>
    cases hb : s.scope.binding? n with
    | some b =>
      simp only [hf, Scope.var?, hb, Option.map_some] at h
      obtain ⟨rfl, rfl⟩ := pure_eq_ok.1 h
      exact ⟨rfl, .inr (.inl ⟨rfl, b, rfl, rfl⟩)⟩
    | none =>
      simp only [hf, Scope.var?, hb, Option.map_none] at h
      split at h
      · rename_i hw
        obtain ⟨rfl, rfl⟩ := pure_eq_ok.1 h
        exact ⟨rfl, .inr (.inr ⟨rfl, rfl, contains_iff_mem.1 hw, rfl⟩)⟩
      · exact absurd h fail_ne_ok

end Lower

/-! ### Invariants along a lowering -/

/-- From a state with an invariant `I`, a lowering that succeeds keeps the invariant, only grows
    the state, and gives a result that has the property `Q` in the new state. -/
def Lands {α : Type} (I : State → Prop) (s : State) (m : Lower α) (Q : State → α → Prop) : Prop :=
  I s → ∀ a s', m.run s = .ok (a, s') → I s' ∧ s.Grows s' ∧ Q s' a

section Lands

variable {α β : Type} {I : State → Prop} {s : State} {m : Lower α}
variable {Q Q' : State → α → Prop} {R : State → β → Prop}

theorem lands_pure {a : α} (h : I s → Q s a) : Lands I s (pure a) Q := by
  intro hi b s' hr
  obtain ⟨rfl, rfl⟩ := Lower.pure_eq_ok.1 hr
  exact ⟨hi, .refl s, h hi⟩

theorem lands_fail {e : CompileError} : Lands I s (Lower.fail e : Lower α) Q :=
  fun _ _ _ hr => absurd hr Lower.fail_ne_ok

theorem Lands.noting {note : String} (h : Lands I s m Q) : Lands I s (Lower.noting note m) Q :=
  fun hi a s' hr => h hi a s' (Lower.noting_eq_ok.1 hr)

theorem Lands.imp (h : Lands I s m Q)
    (hq : ∀ a s', s.Grows s' → I s' → Q s' a → Q' s' a) : Lands I s m Q' := by
  intro hi a s' hr
  obtain ⟨hi', hg, ha⟩ := h hi a s' hr
  exact ⟨hi', hg, hq a s' hg hi' ha⟩

theorem Lands.both {J : State → Prop} {R : State → α → Prop} (hq : Lands I s m Q)
    (hr : Lands J s m R) :
    Lands (fun s => I s ∧ J s) s m fun s a => Q s a ∧ R s a := by
  intro hi a s' h
  obtain ⟨hi₁, hg, hq⟩ := hq hi.1 a s' h
  obtain ⟨hi₂, -, hr⟩ := hr hi.2 a s' h
  exact ⟨⟨hi₁, hi₂⟩, hg, hq, hr⟩

theorem Lands.bind {f : α → Lower β} (hm : Lands I s m Q)
    (hf : ∀ a s', s.Grows s' → I s' → Q s' a → Lands I s' (f a) R) : Lands I s (m >>= f) R := by
  intro hi b u hr
  obtain ⟨a, t, ha, hb⟩ := Lower.bind_eq_ok.1 hr
  obtain ⟨hi', hg, hq⟩ := hm hi a t ha
  obtain ⟨hi'', hg', hr'⟩ := hf a t hg hi' hq hi' b u hb
  exact ⟨hi'', hg.trans hg', hr'⟩

theorem lands_lift {x : Except Failure α} (h : ∀ a, x = .ok a → I s → Q s a) :
    Lands I s (liftM x) Q := by
  intro hi a s' hr
  obtain ⟨hx, rfl⟩ := Lower.lift_eq_ok.1 hr
  exact ⟨hi, .refl _, h a hx hi⟩

theorem lands_nameFor {stem key : String} (h : I s → I (s.named stem key)) :
    Lands I s (Lower.nameFor stem key) fun s name =>
      ∃ i : Nat, name = stem ++ toString i ∧ (stem, key, i) ∈ s.namer.entries := by
  intro hi name s' hr
  obtain ⟨rfl, rfl⟩ := Lower.nameFor_eq_ok.1 hr
  exact ⟨h hi, s.grows_named stem key, s.namer.nameFor_fst stem key⟩

theorem lands_bindHelper {name : String} {b : Expr}
    (h : I s → s.scope.binding? name = none → I (s.bound name b)) :
    Lands I s (Lower.bindHelper name b) fun s e =>
      ∃ c, e = .var name c ∧ s.scope.binding? name = some c := by
  intro hi e s' hr
  rcases Lower.bindHelper_cases hr with ⟨c, hc, rfl, rfl⟩ | ⟨hn, rfl, rfl⟩
  · exact ⟨hi, .refl _, c, rfl, hc⟩
  · exact ⟨h hi hn, s.grows_bound name b, b, rfl, State.binding?_bound hn⟩

theorem lands_forM {γ : Type} {f : γ → Lower PUnit} : ∀ {cs : List γ} {s : State},
    (∀ c ∈ cs, ∀ s, Lands I s (f c) fun _ _ => True) → Lands I s (cs.forM f) fun _ _ => True
  | [], _, _ => lands_pure fun _ => trivial
  | c :: cs, s, h => by
    show Lands I s (f c >>= fun _ => cs.forM f) _
    refine (h c mem_cons_self s).bind fun _ s' _ _ _ => ?_
    exact lands_forM fun d hd => h d (mem_cons_of_mem c hd)

/-- One invariant and property after the other, along a list. -/
theorem lands_mapM {γ : Type} {f : γ → Lower α} {P : State → γ → Prop}
    (hP : ∀ s s' c, s.Grows s' → P s c → P s' c) (hQ : ∀ s s' a, s.Grows s' → Q s a → Q s' a) :
    ∀ {cs : List γ} {s : State}, (∀ c ∈ cs, ∀ s, P s c → Lands I s (f c) Q) → (∀ c ∈ cs, P s c) →
      Lands I s (cs.mapM f) fun s as => as.length = cs.length ∧ ∀ a ∈ as, Q s a
  | [], s, _, _ => by
    rw [mapM_nil]
    exact lands_pure fun _ => ⟨rfl, fun a ha => by cases ha⟩
  | c :: cs, s, hf, hc => by
    rw [mapM_cons]
    refine (hf c mem_cons_self s (hc c mem_cons_self)).bind fun a s₁ hg _ ha => ?_
    refine (lands_mapM hP hQ (fun d hd => hf d (mem_cons_of_mem c hd)) fun d hd =>
      hP s s₁ d hg (hc d (mem_cons_of_mem c hd))).bind fun as s₂ hg' _ has => ?_
    refine lands_pure fun _ => ⟨by simp [has.1], fun x hx => ?_⟩
    rcases mem_cons.1 hx with rfl | hx
    · exact hQ s₁ s₂ _ hg' ha
    · exact has.2 x hx

end Lands

end RowAwk.Compile
