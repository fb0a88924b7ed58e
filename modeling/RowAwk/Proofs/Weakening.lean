import RowAwk.Proofs.Preservation

/-!
Lowering one expression in two states.

Whether an expression can be lowered depends on the state only through the names that it mentions.
All else that is checked stands in the tree: literals, the arguments of calls, the format of a time.
Helpers can be bound in every state, though under other names.

    x = abs(a - 1)          min(a - 1, b) < 2  ──▶  _min0, _min1
    y = min(b - 1, a)       min(a - 1, b) < 2  ──▶  _min1, b

So what can be lowered somewhere can be lowered wherever the names it mentions are known, and the
two results agree in whether they are literal texts.
-/

open List

namespace RowAwk.Compile

open Awk (Expr)
open Lower

/-- A name that an expression may mention in a scope. -/
def Scope.Resolves (sc : Scope) (name : String) : Prop :=
  if (sc.field? name).isSome then Syntax.isInternal name = false
  else sc.hasVar name = true ∨ name ∈ awkVariables

instance (sc : Scope) (name : String) : Decidable (sc.Resolves name) :=
  inferInstanceAs (Decidable (if (sc.field? name).isSome then Syntax.isInternal name = false
    else sc.hasVar name = true ∨ name ∈ awkVariables))

variable {s t : State} {name : String} {e : Expr}

theorem Scope.Resolves.grows (hg : s.Grows t) (h : s.scope.Resolves name) :
    t.scope.Resolves name := by
  have hfield : t.scope.field? name = s.scope.field? name := by
    rw [Scope.field?, Scope.field?, hg.schema]
  unfold Scope.Resolves at *
  rw [hfield]
  split at h
  · rw [if_pos ‹_›]
    exact h
  · rw [if_neg ‹_›]
    refine h.imp_left fun hv => ?_
    obtain ⟨more, hmore⟩ := hg.scope
    simp only [Scope.hasVar, Scope.binding?, Option.isSome_map, List.find?_isSome] at hv ⊢
    obtain ⟨b, hb, hn⟩ := hv
    exact ⟨b, hmore ▸ mem_append_left more hb, hn⟩

theorem Lowering.run_resolve (h : s.scope.Resolves name) :
    ∃ e, (resolve name).run s = .ok (e, s) ∧ e.asString? = none := by
  unfold Scope.Resolves at h
  cases hf : s.scope.field? name with
  | some e =>
    simp only [hf, Option.isSome_some, if_true] at h
    obtain ⟨i, type, -, rfl⟩ := Scope.field?_cases hf
    refine ⟨.field name (i + 1) type, bind_eq_ok.2 ⟨s, s, rfl, ?_⟩, rfl⟩
    simp only [hf, h]
    rfl
  | none =>
    simp only [hf, Option.isSome_none, Bool.false_eq_true, if_false, Scope.hasVar] at h
    cases hb : s.scope.binding? name with
    | some b =>
      refine ⟨.var name b, bind_eq_ok.2 ⟨s, s, rfl, ?_⟩, rfl⟩
      simp only [hf, Scope.var?, hb]
      rfl
    | none =>
      have hw : name ∈ awkVariables := h.resolve_left (by simp [hb])
      refine ⟨.builtin name, bind_eq_ok.2 ⟨s, s, rfl, ?_⟩, rfl⟩
      simp only [hf, Scope.var?, hb, Option.map_none, contains_iff_mem.2 hw, if_true]
      rfl

/-! ### One step in two states -/

/-- Wherever the first lowering starts, the second does the same from `s`: it succeeds if the first
    does, and its result is related to the other. -/
def Repeats {α : Type} (s : State) (m m' : Lower α) (R : α → α → Prop) : Prop :=
  ∀ s₁ a t₁, m.run s₁ = .ok (a, t₁) → ∃ a' t, m'.run s = .ok (a', t) ∧ s.Grows t ∧ R a a'

/-- Two expressions that are the same literal text, or none. -/
def Agree (x y : Expr) : Prop := x.asString? = y.asString?

/-- The same, one by one. -/
def AllAgree (xs ys : List Expr) : Prop := xs.map Expr.asString? = ys.map Expr.asString?

section

variable {α β : Type} {s : State} {m m' : Lower α} {R : α → α → Prop} {S : β → β → Prop}

theorem repeats_pure {a a' : α} (h : R a a') : Repeats s (pure a) (pure a') R := by
  intro s₁ b t₁ hr
  obtain ⟨rfl, rfl⟩ := Lower.pure_eq_ok.1 hr
  exact ⟨a', s, Lower.pure_eq_ok.2 ⟨rfl, rfl⟩, .refl s, h⟩

theorem repeats_fail {e : CompileError} : Repeats s (Lower.fail e) m' R :=
  fun _ _ _ hr => absurd hr fail_ne_ok

theorem Repeats.noting {note : String} (h : Repeats s m m' R) :
    Repeats s (Lower.noting note m) (Lower.noting note m') R := by
  intro s₁ a t₁ hr
  obtain ⟨a', t, hr', h⟩ := h s₁ a t₁ (noting_eq_ok.1 hr)
  exact ⟨a', t, noting_eq_ok.2 hr', h⟩

theorem Repeats.bind {f f' : α → Lower β} (hm : Repeats s m m' R)
    (hf : ∀ a a' t, s.Grows t → R a a' → Repeats t (f a) (f' a') S) :
    Repeats s (m >>= f) (m' >>= f') S := by
  intro s₁ b u₁ hr
  obtain ⟨a, t₁, ha, hb⟩ := bind_eq_ok.1 hr
  obtain ⟨a', t, ha', hg, hR⟩ := hm s₁ a t₁ ha
  obtain ⟨b', u, hb', hg', hS⟩ := hf a a' t hg hR t₁ b u₁ hb
  exact ⟨b', u, bind_eq_ok.2 ⟨a', t, ha', hb'⟩, hg.trans hg', hS⟩

theorem repeats_nameFor (stem key key' : String) :
    Repeats s (nameFor stem key) (nameFor stem key') fun _ _ => True :=
  fun _ _ _ _ => ⟨_, _, nameFor_eq_ok.2 ⟨rfl, rfl⟩, s.grows_named stem key', trivial⟩

theorem repeats_require (r : Awk.Routine) :
    Repeats s (Lower.require r) (Lower.require r) fun _ _ => True :=
  fun _ _ _ _ => ⟨(), _, require_eq_ok.2 rfl, s.grows_required r, trivial⟩

end

/-- A helper can be bound in every state: a name that is bound already is taken as it is. -/
theorem bindHelper_succeeds (s : State) (name : String) (b : Expr) :
    ∃ c t, (bindHelper name b).run s = .ok (.var name c, t) ∧ s.Grows t := by
  cases hb : s.scope.binding? name with
  | some c =>
    refine ⟨c, s, bind_eq_ok.2 ⟨s, s, rfl, ?_⟩, .refl s⟩
    simp only [Scope.var?, hb]
    rfl
  | none =>
    refine ⟨b, s.bound name b, bind_eq_ok.2 ⟨s, s, rfl, ?_⟩, s.grows_bound name b⟩
    simp only [Scope.var?, hb]
    exact bind_eq_ok.2 ⟨(), _, run_bind_eq_ok.2 ⟨hb, rfl⟩, rfl⟩

/-- So can a value be held in every state. -/
theorem helper_succeeds (s : State) (stem : String) (value : Expr) :
    ∃ e t, (helper stem value).run s = .ok (e, t) ∧ s.Grows t := by
  rw [helper]
  split
  · exact ⟨value, s, rfl, .refl s⟩
  · obtain ⟨c, t, hr, hg⟩ := bindHelper_succeeds (s.named stem value.text)
      (s.namer.nameFor stem value.text).1
      (.assign (s.namer.nameFor stem value.text).1 value)
    refine ⟨_, t, bind_eq_ok.2 ⟨_, _, nameFor_eq_ok.2 ⟨rfl, rfl⟩, hr⟩, ?_⟩
    exact (s.grows_named stem value.text).trans hg

theorem asString?_bindHelper {b : Expr} (h : (bindHelper name b).run s = .ok (e, t)) :
    e.asString? = none := by
  rcases bindHelper_cases h with ⟨_, -, rfl, -⟩ | ⟨-, rfl, -⟩ <;> rfl

theorem asString?_of_isField (h : e.isField = true) : e.asString? = none := by
  cases e <;> first | rfl | cases h

theorem asString?_helper {stem : String} {value : Expr}
    (h : (helper stem value).run s = .ok (e, t)) : e.asString? = none := by
  rw [helper] at h
  split at h
  · rename_i hfield
    obtain ⟨rfl, -⟩ := Lower.pure_eq_ok.1 h
    exact asString?_of_isField hfield
  · obtain ⟨name, t', -, hb⟩ := bind_eq_ok.1 h
    exact asString?_bindHelper hb

section

variable {s : State}

theorem repeats_bindHelper (name name' : String) (b b' : Expr) :
    Repeats s (bindHelper name b) (bindHelper name' b') Agree := by
  intro s₁ e t₁ hr
  obtain ⟨c, t, hr', hg⟩ := bindHelper_succeeds s name' b'
  exact ⟨.var name' c, t, hr', hg, asString?_bindHelper hr⟩

theorem repeats_helper (stem : String) (value value' : Expr) :
    Repeats s (helper stem value) (helper stem value') Agree := by
  intro s₁ e t₁ hr
  obtain ⟨e', t, hr', hg⟩ := helper_succeeds s stem value'
  exact ⟨e', t, hr', hg, (asString?_helper hr).trans (asString?_helper hr').symm⟩

end

/-! ### Calls of functions -/

namespace Library

variable {s : State}

theorem repeats_helpers (stem : String) : ∀ {args args' : List Expr} {s : State},
    args.length = args'.length →
      Repeats s (args.mapM (helper stem)) (args'.mapM (helper stem)) fun _ _ => True
  | [], [], _, _ => by
    rw [mapM_nil]
    exact repeats_pure trivial
  | a :: args, a' :: args', _, h => by
    rw [mapM_cons, mapM_cons]
    refine (repeats_helper stem a a').bind fun _ _ _ _ _ => ?_
    exact (repeats_helpers stem (Nat.succ.inj h)).bind fun _ _ _ _ _ => repeats_pure trivial

theorem repeats_lookUp (routine : Awk.Routine) {args args' : List Expr}
    (h : args.length = args'.length) :
    Repeats s (lookUp routine args) (lookUp routine args') Agree := by
  refine (repeats_require routine).bind fun _ _ _ _ _ => ?_
  exact (repeats_helpers _ h).bind fun _ _ _ _ _ => repeats_pure rfl

theorem repeats_comparisonTree (f : Function) (o : Awk.Op) :
    ∀ {values values' : List Expr} {s : State}, values.length = values'.length →
      Repeats s (comparisonTree f o values) (comparisonTree f o values') Agree
  | [], _, _, _ => by
    rw [comparisonTree]
    exact repeats_fail
  | [value], [value'], _, _ => by
    rw [comparisonTree, comparisonTree]
    exact repeats_helper _ value value'
  | a :: b :: more, a' :: b' :: more', s, h => by
    rw [comparisonTree, comparisonTree, ← h]
    refine (repeats_comparisonTree f o ?_).bind fun _ _ _ _ _ =>
      (repeats_comparisonTree f o ?_).bind fun _ _ _ _ _ => repeats_pure rfl
    · rw [length_take, length_take, h]
    · rw [length_drop, length_drop, h]
termination_by values => values.length
decreasing_by
  · simp only [length_take, length_cons]; omega
  · simp only [length_drop, length_cons]; omega

theorem repeats_split (delim delim' value value' : Expr) :
    Repeats s (split delim value) (split delim' value') fun p p' =>
      Agree p.1 p'.1 ∧ Agree p.2 p'.2 := by
  refine (repeats_nameFor "_spcnt" _ _).bind fun _ _ _ _ _ => ?_
  refine (repeats_nameFor "_split" _ _).bind fun _ _ _ _ _ => ?_
  exact (repeats_bindHelper _ _ _ _).bind fun _ _ _ _ hc => repeats_pure ⟨rfl, hc⟩

theorem asString?_arg (b : Bound Expr) (i : Nat) :
    (arg b i).asString? = (b.values.map Expr.asString?)[i]?.getD (some "") := by
  rw [arg, getD_eq_getElem?_getD, List.getElem?_map]
  cases b.values[i]? <;> rfl

/-- Calls whose arguments are alike are expanded alike. Only the format of a time has to be a
    literal text, and a comparison needs something to compare. -/
theorem repeats_expand (f : Function) {b b' : Bound Expr} (hv : AllAgree b.values b'.values)
    (hr : AllAgree b.rest b'.rest) : Repeats s (expand f b) (expand f b') Agree := by
  have hlength : b.rest.length = b'.rest.length := by simpa using congrArg List.length hr
  cases f with
  | abs => exact (repeats_helper "_abs" _ _).bind fun _ _ _ _ _ => repeats_pure rfl
  | crc32 => exact repeats_lookUp .crc32 rfl
  | domain | netlocator => exact repeats_pure rfl
  | isInFile => exact repeats_lookUp .isInFile rfl
  | join =>
    have hempty : b.rest.isEmpty = b'.rest.isEmpty := by
      rw [Bool.eq_iff_iff, isEmpty_iff_length_eq_zero, isEmpty_iff_length_eq_zero, hlength]
    refine repeats_pure ?_
    rw [Agree, join, join, hempty]
    split <;> rfl
  | mapFromFile => exact repeats_lookUp .mapFromFile rfl
  | max => exact repeats_comparisonTree .max .greater hlength
  | min => exact repeats_comparisonTree .min .less hlength
  | shell =>
    refine (repeats_nameFor "_sh" _ _).bind fun _ _ _ _ _ => ?_
    exact (repeats_bindHelper _ _ _ _).bind fun _ _ _ _ _ => repeats_pure rfl
  | strip => exact (repeats_helper "_strip" _ _).bind fun _ _ _ _ _ => repeats_pure rfl
  | strptime =>
    have hformat : (arg b 0).asString? = (arg b' 0).asString? := by
      rw [asString?_arg, asString?_arg, hv]
    rw [expand, expand, strptime, strptime, hformat]
    split
    · exact repeats_fail
    · split
      · exact repeats_fail
      · exact repeats_pure rfl
  | uniq =>
    refine (repeats_require .uniq).bind fun _ _ _ _ _ => ?_
    exact (repeats_helper "_uniq" _ _).bind fun _ _ _ _ _ => repeats_pure rfl
  | unjoin => exact (repeats_split _ _ _ _).bind fun _ _ _ _ _ => repeats_pure rfl
  | unjoinCount => exact (repeats_split _ _ _ _).bind fun _ _ _ _ h => repeats_pure h.2

end Library

/-! ### Expressions -/

namespace Lowering

theorem asString?_unary (op : Syntax.UnaryOp) (x : Expr) : (unary op x).asString? = none := by
  cases op <;> rfl

theorem asString?_binary (op : Syntax.BinaryOp) (x y : Expr) :
    (binary op x y).asString? = none := by
  cases op <;> rfl

theorem asString?_membership (op : Syntax.CompareOp) (x : Expr) (items : List Expr) :
    (membership op x items).asString? = none := by
  unfold membership
  split
  split
  · rename_i single h
    obtain ⟨item, -, rfl⟩ := mem_map.1 (h ▸ mem_singleton_self single)
    rfl
  · rfl

theorem repeats_index {s : State} (e : Syntax.Expr) :
    Repeats s (index e) (index e) fun _ _ => True := by
  have literals (v : Syntax.Literal) : Repeats s (literal v) (literal v) fun _ _ => True := by
    rw [literal]
    split
    · exact repeats_pure trivial
    · exact repeats_fail
  unfold index
  split
  · exact literals _
  · exact literals _
  · exact repeats_fail

mutual

/-- What can be lowered somewhere can be lowered wherever the names that it mentions are known. -/
theorem repeats_lower : ∀ {e : Syntax.Expr} {s : State}, (∀ n ∈ e.names, s.scope.Resolves n) →
    Repeats s (lower none e) (lower none e) Agree
  | .literal _ v, s, _ => by
    rw [lower, literal]
    split
    · exact repeats_pure rfl
    · exact repeats_fail
  | .name _ n, s, h => by
    rw [lower]
    intro s₁ e t₁ hr
    obtain ⟨e', hr', he'⟩ := run_resolve (h n (by simp [Syntax.Expr.leaves]))
    refine ⟨e', s, hr', .refl s, Eq.trans ?_ he'.symm⟩
    obtain ⟨-, ⟨hf, -⟩ | ⟨-, b, -, rfl⟩ | ⟨-, -, -, rfl⟩⟩ := resolve_cases hr
    · obtain ⟨i, type, -, rfl⟩ := Scope.field?_cases hf
      rfl
    · rfl
    · rfl
  | .tuple _ [], s, _ => by
    rw [lower]
    exact repeats_fail
  | .tuple _ (_ :: _), s, h | .boolean _ _ _, s, h => by
    rw [lower]
    exact (repeats_lowerAll _ h).bind fun _ _ _ _ _ => repeats_pure rfl
  | .list _ _, s, _ => by
    rw [lower]
    exact repeats_fail.noting
  | .call _ function args keywords, s, h => by
    simp only [Syntax.Expr.leaves, forall_mem_append] at h
    rw [lower]
    swap
    · simp
    refine (repeats_lowerAll _ h.1).bind fun xs xs' t hg hxs => ?_
    cases Function.ofName? function.text with
    | none =>
      dsimp only
      split
      · exact repeats_pure rfl
      · exact repeats_fail
    | some f =>
      dsimp only
      refine (repeats_lowerKeywords fun n hn => (h.2 n hn).grows hg).bind
        fun named named' u _ hnamed => ?_
      have hbind : (f.signature.bind xs named).map (Bound.map Expr.asString?)
          = (f.signature.bind xs' named').map (Bound.map Expr.asString?) := by
        rw [← Signature.bind_map, ← Signature.bind_map, hxs, hnamed]
      cases hb : f.signature.bind xs named with
      | error e => exact repeats_fail
      | ok b =>
        cases hb' : f.signature.bind xs' named' with
        | error e => simp [hb, hb', Except.map] at hbind
        | ok b' =>
          simp only [hb, hb', Except.map, Except.ok.injEq, Bound.map, Bound.mk.injEq] at hbind
          exact Library.repeats_expand f hbind.1 hbind.2
  | .subscript _ base i, s, h => by
    simp only [Syntax.Expr.leaves, forall_mem_append] at h
    rw [lower]
    refine (repeats_lower h.1).bind fun _ _ _ _ _ => ?_
    exact (repeats_index i).bind fun _ _ _ _ _ => repeats_pure rfl
  | .unary _ op operand, s, h => by
    rw [lower]
    refine (repeats_lower (e := operand) h).bind fun x x' _ _ _ => repeats_pure ?_
    rw [Agree, asString?_unary, asString?_unary]
  | .binary _ op lhs rhs, s, h => by
    simp only [Syntax.Expr.leaves, forall_mem_append] at h
    rw [lower]
    refine (repeats_lower h.1).bind fun _ _ _ hg _ => ?_
    refine (repeats_lower fun n hn => (h.2 n hn).grows hg).bind fun _ _ _ _ _ => repeats_pure ?_
    rw [Agree, asString?_binary, asString?_binary]
  | .compare _ op lhs rhs, s, h => by
    simp only [Syntax.Expr.leaves, forall_mem_append] at h
    unfold lower
    split
    · refine (repeats_lower h.1).bind fun _ _ _ hg _ => ?_
      refine (repeats_lower fun n hn => (h.2 n hn).grows hg).bind fun _ _ _ _ _ => ?_
      exact repeats_pure rfl
    · cases rhs with
      | list _ items | tuple _ items =>
        cases items with
        | nil => exact repeats_fail
        | cons item items =>
          refine (repeats_lower h.1).bind fun _ _ _ hg _ => ?_
          refine (repeats_lowerAll (item :: items) fun n hn => (h.2 n hn).grows hg).bind
            fun _ _ _ _ _ => repeats_pure ?_
          rw [Agree, asString?_membership, asString?_membership]
      | _ => exact repeats_fail
  | .conditional _ test yes no, s, h => by
    simp only [Syntax.Expr.leaves, forall_mem_append] at h
    rw [lower]
    refine (repeats_lower h.1).bind fun _ _ _ hg _ => ?_
    refine (repeats_lower fun n hn => (h.2.1 n hn).grows hg).bind fun _ _ _ hg' _ => ?_
    refine (repeats_lower fun n hn => (h.2.2 n hn).grows (hg.trans hg')).bind fun _ _ _ _ _ => ?_
    exact repeats_pure rfl

theorem repeats_lowerAll : ∀ (es : List Syntax.Expr) {s : State},
    (∀ n ∈ Syntax.Expr.leavesAll (fun n => [n]) (fun _ => []) es, s.scope.Resolves n) →
      Repeats s (lowerAll none es) (lowerAll none es) AllAgree
  | [], s, _ => by
    rw [lowerAll]
    exact repeats_pure rfl
  | e :: es, s, h => by
    simp only [Syntax.Expr.leavesAll, forall_mem_append] at h
    rw [lowerAll]
    refine (repeats_lower h.1).bind fun _ _ _ hg hx => ?_
    refine (repeats_lowerAll es fun n hn => (h.2 n hn).grows hg).bind fun _ _ _ _ hxs => ?_
    exact repeats_pure (cons_eq_cons.2 ⟨hx, hxs⟩)

theorem repeats_lowerKeywords : ∀ {ks : List (Syntax.KeywordArg Syntax.Expr)} {s : State},
    (∀ n ∈ Syntax.Expr.leavesKeywords (fun n => [n]) (fun _ => []) ks, s.scope.Resolves n) →
      Repeats s (lowerKeywords none ks) (lowerKeywords none ks) fun xs ys =>
        xs.map (fun p => (p.1, p.2.asString?)) = ys.map fun p => (p.1, p.2.asString?)
  | [], s, _ => by
    rw [lowerKeywords]
    exact repeats_pure rfl
  | ⟨name, e⟩ :: rest, s, h => by
    simp only [Syntax.Expr.leavesKeywords, forall_mem_append] at h
    rw [lowerKeywords]
    refine (repeats_lower h.1).bind fun _ _ _ hg hx => ?_
    refine (repeats_lowerKeywords fun n hn => (h.2 n hn).grows hg).bind fun _ _ _ _ hxs => ?_
    exact repeats_pure (cons_eq_cons.2 ⟨Prod.ext rfl hx, hxs⟩)

end

end Lowering

end RowAwk.Compile
