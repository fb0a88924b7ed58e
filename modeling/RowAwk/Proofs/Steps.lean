import RowAwk.Compile.GroupProgram
import RowAwk.Compile.RowProgram
import RowAwk.Proofs.Lower

/-!
What holds of a lowering because it holds of its steps.

Lowering an expression is a computation put together from few kinds of steps: it looks up a name,
asks for a name of its own, binds a helper under such a name or asks for a function, and fails or
goes on. A property of computations that all of these have, and that goes from two computations to
the one after the other, is one of every lowering, whatever expression is lowered.

    abs(a) + b   ──▶   look up a; ask for _abs0; bind it; look up b
-/

namespace RowAwk.Compile

open Awk (Aggregate Category Expr)
open Syntax (Literal Stmt isHidden)

variable {α β γ : Type}

theorem isHidden_append {stem : String} (h : isHidden stem = true) (rest : String) :
    isHidden (stem ++ rest) = true := by
  rw [isHidden, List.isPrefixOf_iff_prefix] at *
  rw [String.toList_append]
  exact h.trans (List.prefix_append _ _)

theorem isHidden_underscore (name : String) : isHidden ("_" ++ name) = true :=
  isHidden_append (by decide) name

namespace Lower

/-- A value that a computation gives from some state. -/
def Gives (m : Lower α) (a : α) : Prop := ∃ s t, m.run s = .ok (a, t)

/-- A property of computations that naming and binding helpers have, and that two computations in
    turn have if both do. -/
structure OfBindings (P : ∀ {α : Type}, Lower α → Prop) : Prop where
  pure {α : Type} (a : α) : P (pure a : Lower α)
  fail {α : Type} {e : CompileError} (h : ∀ cause, e ≠ .invalidSchema cause) : P (fail e : Lower α)
  bind {α β : Type} {m : Lower α} {f : α → Lower β} :
    P m → (∀ a, m.Gives a → P (f a)) → P (m >>= f)
  nameFor (stem key : String) : P (nameFor stem key)
  bindHelper {name : String} (statement : Expr) :
    isHidden name = true → P (bindHelper name statement)

/-- Such a property that all steps of lowering have. -/
structure OfSteps (P : ∀ {α : Type}, Lower α → Prop) : Prop extends OfBindings P where
  noting {α : Type} {m : Lower α} (note : String) : P m → P (noting note m)
  require (r : Awk.Routine) : P (require r)
  resolve (name : String) : P (Lowering.resolve name)

theorem isHidden_nameFor {stem key name : String} (hs : isHidden stem = true)
    (h : (nameFor stem key).Gives name) : isHidden name = true := by
  obtain ⟨s, t, h⟩ := h
  obtain ⟨rfl, -⟩ := nameFor_eq_ok.1 h
  obtain ⟨i, hi, -⟩ := s.namer.nameFor_fst stem key
  rw [hi]
  exact isHidden_append hs _

end Lower

variable {P : ∀ {α : Type}, Lower α → Prop}

namespace Lower.OfBindings

theorem helper (h : OfBindings P) {stem : String} (hs : isHidden stem = true) (value : Expr) :
    P (helper stem value) := by
  rw [Lower.helper]
  split
  · exact h.pure value
  · exact h.bind (h.nameFor stem _) fun name hn => h.bindHelper _ (isHidden_nameFor hs hn)

theorem mapM (h : OfBindings P) {f : γ → Lower α} : ∀ {cs : List γ}, (∀ c ∈ cs, P (f c)) →
    P (cs.mapM f)
  | [], _ => by
    rw [List.mapM_nil]
    exact h.pure []
  | c :: cs, hf => by
    obtain ⟨hc, hcs⟩ := List.forall_mem_cons.1 hf
    rw [List.mapM_cons]
    exact h.bind hc fun a _ => h.bind (h.mapM hcs) fun as _ => h.pure (a :: as)

end Lower.OfBindings

open Lower (OfBindings OfSteps)

/-! ### The function library -/

theorem Signature.error_of_bind {s : Signature} {positional : List α} {keywords : List (String × α)}
    {e : CompileError} (h : s.bind positional keywords = .error e) :
    ∀ cause, e ≠ .invalidSchema cause := by
  rw [Signature.bind] at h
  split at h
  · cases h
    exact nofun
  · split at h
    · cases h
      exact nofun
    · split at h
      · cases h
        exact nofun
      · cases h

namespace Library

theorem ofBindings_comparisonTree (h : OfBindings P) (f : Function) (o : Awk.Op) (values : List Expr) :
    P (comparisonTree f o values) := by
  induction values using comparisonTree.induct with
  | case1 =>
    rw [comparisonTree]
    exact h.fail nofun
  | case2 value =>
    rw [comparisonTree]
    exact h.helper (isHidden_underscore f.name) value
  | case3 a b more half ihl ihr =>
    rw [comparisonTree]
    exact h.bind ihl fun left _ => h.bind ihr fun right _ => h.pure _

theorem ofBindings_lookUp (h : OfBindings P) {r : Awk.Routine} (hr : P (Lower.require r))
    (args : List Expr) : P (lookUp r args) := by
  refine h.bind hr fun _ _ => ?_
  exact h.bind (h.mapM fun x _ => h.helper (isHidden_underscore r.name) x) fun held _ => h.pure _

theorem ofBindings_split (h : OfBindings P) (delim value : Expr) : P (split delim value) := by
  refine h.bind (h.nameFor "_spcnt" _) fun count hcount => ?_
  refine h.bind (h.nameFor "_split" _) fun array _ => ?_
  have hbound := h.bindHelper (.assign count (.call "split" [value, .builtin array, delim]))
    (Lower.isHidden_nameFor (by decide) hcount)
  exact h.bind hbound fun _ _ => h.pure _

theorem ofBindings_shell (h : OfBindings P) (command : Expr) : P (shell command) :=
  h.bind (h.nameFor "_sh" _) fun _ hn =>
    h.bind (h.bindHelper _ (Lower.isHidden_nameFor (by decide) hn)) fun _ _ => h.pure _

theorem ofBindings_strptime (h : OfBindings P) (format time : Expr) : P (strptime format time) := by
  rw [strptime]
  split
  · exact h.fail nofun
  · split
    · exact h.fail nofun
    · exact h.pure _

/-- A call of the library asks for the function of its name, if there is one. -/
theorem ofBindings_expand (h : OfBindings P) (f : Function)
    (hr : ∀ r, Awk.Routine.ofName? f.name = some r → P (Lower.require r)) (b : Bound Expr) :
    P (expand f b) := by
  cases f with
  | abs | strip => exact h.bind (h.helper (by decide) _) fun x _ => h.pure _
  | crc32 | isInFile | mapFromFile => exact ofBindings_lookUp h (hr _ rfl) _
  | domain | join | netlocator => exact h.pure _
  | max | min => exact ofBindings_comparisonTree h _ _ _
  | shell => exact ofBindings_shell h _
  | strptime => exact ofBindings_strptime h _ _
  | uniq =>
    exact h.bind (hr _ rfl) fun _ _ => h.bind (h.helper (by decide) _) fun x _ => h.pure _
  | unjoin | unjoinCount => exact h.bind (ofBindings_split h _ _) fun p _ => h.pure _

end Library

/-! ### Aggregates -/

namespace Aggregation

variable (c : Category) (a : Aggregate) (args : List Expr)

theorem ofBindings_accumulate (h : OfBindings P) (t : Templates) : P (accumulate c a t args) :=
  h.bind (h.nameFor _ _) fun _ _ => h.pure _

theorem ofBindings_expectArgs (h : OfBindings P) (count : Nat) : P (expectArgs a args count) := by
  rw [expectArgs]
  split
  · exact h.pure ()
  · exact h.fail nofun

theorem ofBindings_delimited (h : OfBindings P) (required : Nat) : P (delimited a args required) := by
  rw [delimited]
  split
  · exact h.pure _
  · split
    · split
      · exact h.pure _
      · split
        · exact h.pure _
        · exact h.fail nofun
    · exact h.fail nofun

theorem ofBindings_expand (h : OfBindings P) : P (expand c a args) := by
  have exactly (count : Nat) {m : Lower Expr} (hm : P m) :
      P (do expectArgs a args count; m) :=
    h.bind (ofBindings_expectArgs a args h count) fun _ _ => hm
  have accumulates := fun a t args => ofBindings_accumulate c a args h t
  cases a with
  | ifMin | ifMax | min | max | sum | product | cnt | median | first | last =>
    exact exactly _ (accumulates _ _ _)
  | concat | concatUniq | concatSorted | chainConcatUniq =>
    exact h.bind (ofBindings_delimited _ args h 1) fun p _ => accumulates _ _ p.1
  | avg =>
    refine exactly _ (h.bind (accumulates _ _ _) fun sum _ => ?_)
    exact h.bind (accumulates _ _ _) fun count _ => h.pure _
  | var =>
    refine exactly _ (h.bind (accumulates _ _ _) fun squares _ => ?_)
    refine h.bind (accumulates _ _ _) fun sum _ => ?_
    exact h.bind (accumulates _ _ _) fun count _ => h.pure _
  | concatSample =>
    refine h.bind (ofBindings_delimited _ _ h 2) fun p _ => ?_
    dsimp only
    split
    · exact accumulates _ _ _
    · exact h.fail nofun

end Aggregation

/-! ### Lowering -/

namespace Lowering

theorem ofSteps_literal (h : OfSteps P) (v : Literal) : P (literal v) := by
  rw [literal]
  split
  · exact h.pure _
  · exact h.fail nofun

theorem ofSteps_index (h : OfSteps P) (e : Syntax.Expr) : P (index e) := by
  rw [index.eq_def]
  split
  · exact ofSteps_literal h _
  · exact ofSteps_literal h _
  · exact h.fail nofun

mutual

/-- Every lowering has a property of its steps, where aggregates are lowered among the rows. -/
theorem ofSteps_lower (h : OfSteps P) {category : Option Category}
    (hrows : category ≠ none → ∀ {m : Lower (List Expr)}, P m → P m.inRows) :
    ∀ e, P (lower category e)
  | .literal _ v => by
    rw [lower]
    exact ofSteps_literal h v
  | .name _ n => by
    rw [lower]
    exact h.resolve n
  | .tuple _ [] => by
    rw [lower]
    exact h.fail nofun
  | .tuple _ (e :: es) => by
    rw [lower]
    exact h.bind (ofSteps_lowerAll h hrows (e :: es)) fun xs _ => h.pure _
  | .list _ _ => by
    rw [lower]
    exact h.noting _ (h.fail nofun)
  | .call _ function args keywords => by
    unfold lower
    split
    · split
      · refine h.bind (hrows nofun (ofSteps_lowerAll h (fun hc => absurd rfl hc) args))
          fun xs _ => ?_
        exact Aggregation.ofBindings_expand _ _ xs h.toOfBindings
      · exact h.fail nofun
    · refine h.bind (ofSteps_lowerAll h hrows args) fun xs _ => ?_
      split
      · refine h.bind (ofSteps_lowerKeywords h hrows keywords) fun named _ => ?_
        split
        · exact Library.ofBindings_expand h.toOfBindings _ (fun r _ => h.require r) _
        · rename_i he
          exact h.fail (Signature.error_of_bind he)
      · split
        · exact h.pure _
        · exact h.fail nofun
  | .subscript _ base i => by
    rw [lower]
    exact h.bind (ofSteps_lower h hrows base) fun x _ => h.bind (ofSteps_index h i) fun y _ =>
      h.pure _
  | .unary _ op operand => by
    rw [lower]
    exact h.bind (ofSteps_lower h hrows operand) fun x _ => h.pure _
  | .binary _ op lhs rhs => by
    rw [lower]
    refine h.bind (ofSteps_lower h hrows lhs) fun x _ => ?_
    exact h.bind (ofSteps_lower h hrows rhs) fun y _ => h.pure _
  | .boolean _ op operands => by
    rw [lower]
    exact h.bind (ofSteps_lowerAll h hrows operands) fun xs _ => h.pure _
  | .compare _ op lhs rhs => by
    unfold lower
    split
    · refine h.bind (ofSteps_lower h hrows lhs) fun x _ => ?_
      exact h.bind (ofSteps_lower h hrows rhs) fun y _ => h.pure _
    · cases rhs with
      | list _ items | tuple _ items =>
        cases items with
        | nil => exact h.fail nofun
        | cons item items =>
          refine h.bind (ofSteps_lower h hrows lhs) fun x _ => ?_
          exact h.bind (ofSteps_lowerAll h hrows (item :: items)) fun xs _ => h.pure _
      | _ => exact h.fail nofun
  | .conditional _ test yes no => by
    rw [lower]
    refine h.bind (ofSteps_lower h hrows test) fun x _ => ?_
    refine h.bind (ofSteps_lower h hrows yes) fun y _ => ?_
    exact h.bind (ofSteps_lower h hrows no) fun z _ => h.pure _

theorem ofSteps_lowerAll (h : OfSteps P) {category : Option Category}
    (hrows : category ≠ none → ∀ {m : Lower (List Expr)}, P m → P m.inRows) :
    ∀ es, P (lowerAll category es)
  | [] => by
    rw [lowerAll]
    exact h.pure []
  | e :: es => by
    rw [lowerAll]
    exact h.bind (ofSteps_lower h hrows e) fun x _ =>
      h.bind (ofSteps_lowerAll h hrows es) fun xs _ => h.pure _

theorem ofSteps_lowerKeywords (h : OfSteps P) {category : Option Category}
    (hrows : category ≠ none → ∀ {m : Lower (List Expr)}, P m → P m.inRows) :
    ∀ ks, P (lowerKeywords category ks)
  | [] => by
    rw [lowerKeywords]
    exact h.pure []
  | ⟨name, e⟩ :: rest => by
    rw [lowerKeywords]
    exact h.bind (ofSteps_lower h hrows e) fun x _ =>
      h.bind (ofSteps_lowerKeywords h hrows rest) fun named _ => h.pure _

end

theorem ofSteps_binding (h : OfSteps P) {category : Option Category}
    (hrows : category ≠ none → ∀ {m : Lower (List Expr)}, P m → P m.inRows) (stmt : Stmt) :
    P (binding category stmt) := by
  cases stmt with
  | assign target e => exact h.bind (ofSteps_lower h hrows e) fun x _ => h.pure _
  | value e =>
    rw [binding]
    split
    · exact h.bind (ofSteps_lower h hrows e) fun x _ => h.pure _
    · exact h.noting _ (h.fail nofun)

theorem ofSteps_value (h : OfSteps P) (stmt : Stmt) : P (value stmt) := by
  cases stmt with
  | assign target e => exact h.noting _ (h.fail nofun)
  | value e => exact ofSteps_lower h (fun hc => absurd rfl hc) e

end Lowering

/-! ### Growing -/

/-- Whatever a computation does, its state only grows. -/
theorem Lower.ofSteps_grows : OfSteps fun m => ∀ s a t, m.run s = .ok (a, t) → s.Grows t where
  pure a s b t h := by
    obtain ⟨-, rfl⟩ := Lower.pure_eq_ok.1 h
    exact .refl s
  fail _ _ _ _ h := absurd h Lower.fail_ne_ok
  bind hm hf s b u h := by
    obtain ⟨a, t, ha, hb⟩ := Lower.bind_eq_ok.1 h
    exact (hm s a t ha).trans (hf a ⟨s, t, ha⟩ t b u hb)
  nameFor stem key s name t h := by
    obtain ⟨-, rfl⟩ := Lower.nameFor_eq_ok.1 h
    exact s.grows_named stem key
  bindHelper statement _ s e t h := by
    rcases Lower.bindHelper_cases h with ⟨b, -, -, rfl⟩ | ⟨-, -, rfl⟩
    · exact .refl _
    · exact s.grows_bound _ _
  noting _ hm s a t h := hm s a t (Lower.noting_eq_ok.1 h)
  require r s u t h := by
    obtain rfl := Lower.require_eq_ok.1 h
    exact s.grows_required r
  resolve name s e t h := by
    obtain ⟨rfl, -⟩ := Lower.resolve_cases h
    exact .refl _

theorem Lowering.grows_lower {category : Option Category} {e : Syntax.Expr} {s t : State} {x : Expr}
    (h : (lower category e).run s = .ok (x, t)) : s.Grows t :=
  ofSteps_lower Lower.ofSteps_grows
    (fun _ _ hm _ a _ h => (hm _ a _ (Lower.inRows_eq_ok.1 h)).flip) e s x t h

end RowAwk.Compile
