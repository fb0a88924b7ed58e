import RowAwk.Proofs.Steps

/-!
Why statements do not compile.

Lowering fails over what is lowered: over a source that cannot be read, a name, a call, or a name
bound twice. It never looks at the description of the outputs, so it never fails over that one;
only the last step of compiling could.

    sources ──parse, lower, bind──▶ scope ──print──▶ columns ──describe──▶ description
              blames a source              empty               repeated names, stray order

`Blames` says this of one result, and of a lowering from every state.
-/

namespace RowAwk.Compile

open Awk (Aggregate Category Expr)
open Syntax (Literal Stmt)

variable {α β γ : Type}

/-- A failure that is not over the description of the outputs. -/
def Failure.OfSource (f : Failure) : Prop := ∀ cause, f.error ≠ .invalidSchema cause

/-- Whatever fails here does not fail over the description of the outputs. -/
def Blames (x : Except Failure α) : Prop := ∀ f, x = .error f → f.OfSource

theorem blames_ok (a : α) : Blames (.ok a) := nofun

theorem blames_error {f : Failure} (h : f.OfSource) : Blames (.error f : Except Failure α) := by
  rintro _ ⟨⟩
  exact h

theorem Blames.bind {x : Except Failure α} {f : α → Except Failure β} (hx : Blames x)
    (hf : ∀ a, x = .ok a → Blames (f a)) : Blames (x >>= f) := by
  cases x with
  | error e => exact blames_error (hx e rfl)
  | ok a => exact hf a rfl

theorem Blames.noting {x : Except Failure α} {note : String} (hx : Blames x) :
    Blames (noting note x) := by
  cases x with
  | error e => exact blames_error (hx e rfl)
  | ok a => exact blames_ok a

theorem blames_foldlM {f : β → α → Except Failure β} (hf : ∀ b a, Blames (f b a)) :
    ∀ (as : List α) (b : β), Blames (as.foldlM f b)
  | [], b => blames_ok b
  | a :: as, b => by
    rw [List.foldlM_cons]
    exact (hf b a).bind fun b' _ => blames_foldlM hf as b'

theorem blames_parseSource (source : String) : Blames (parseSource source) := by
  rw [parseSource]
  split
  · exact blames_ok _
  · exact blames_error nofun

theorem Scope.blames_bind (s : Scope) (name : String) (statement : Expr) (position : Option Nat) :
    Blames (s.bind name statement position) := by
  unfold Scope.bind
  split
  · exact blames_error nofun
  · exact blames_ok _

/-! ### Steps of a lowering -/

namespace Lower

/-- A lowering that blames what it lowers, from whatever state it starts. -/
def Blames (m : Lower α) : Prop := ∀ s, Compile.Blames (m.run s)

theorem blames_pure (a : α) : Blames (pure a : Lower α) := fun s => blames_ok (a, s)

theorem blames_fail {e : CompileError} (h : ∀ cause, e ≠ .invalidSchema cause) :
    Blames (fail e : Lower α) :=
  fun _ => blames_error h

theorem Blames.bind {m : Lower α} {f : α → Lower β} (hm : Blames m) (hf : ∀ a, Blames (f a)) :
    Blames (m >>= f) :=
  fun s => (hm s).bind fun r _ => hf r.1 r.2

theorem Blames.noting {m : Lower α} {note : String} (hm : Blames m) : Blames (noting note m) :=
  fun s => (hm s).noting

theorem blames_lift {x : Except Failure α} (hx : Compile.Blames x) : Blames (liftM x : Lower α) :=
  fun s => hx.bind fun a _ => blames_ok (a, s)

theorem blames_get : Blames (get : Lower State) := fun s => blames_ok (s, s)

theorem blames_modify (f : State → State) : Blames (modify f : Lower PUnit) :=
  fun s => blames_ok ((), f s)

theorem Blames.inRows {m : Lower α} (hm : Blames m) : Blames (inRows m) := by
  refine (blames_modify _).bind fun _ => hm.bind fun a => ?_
  exact (blames_modify _).bind fun _ => blames_pure a

theorem blames_require (r : Awk.Routine) : Blames (require r) := blames_modify _

theorem blames_nameFor (stem key : String) : Blames (nameFor stem key) := fun _ => blames_ok _

theorem blames_bind (name : String) (statement : Expr) : Blames (Lower.bind name statement) := by
  refine blames_get.bind fun s => ?_
  exact (blames_lift (s.scope.blames_bind name statement none)).bind fun _ _ => blames_ok _

theorem blames_bindHelper (name : String) (statement : Expr) :
    Blames (bindHelper name statement) := by
  refine blames_get.bind fun s => ?_
  split
  · exact blames_pure _
  · exact (blames_bind name statement).bind fun _ => blames_pure _

theorem blames_forM {f : γ → Lower PUnit} (hf : ∀ c, Blames (f c)) :
    ∀ cs : List γ, Blames (cs.forM f)
  | [] => blames_pure _
  | c :: cs => (hf c).bind fun _ => blames_forM hf cs

end Lower

open Lower (OfSteps blames_pure)

namespace Lowering

theorem blames_resolve (n : String) : (resolve n).Blames := by
  refine Lower.blames_get.bind fun s => ?_
  dsimp only
  split
  · split
    · exact Lower.blames_fail nofun
    · exact blames_pure _
  · exact blames_pure _
  · split
    · exact blames_pure _
    · exact Lower.blames_fail nofun

theorem ofSteps_blames : OfSteps Lower.Blames where
  pure := blames_pure
  fail := Lower.blames_fail
  noting _ hm := hm.noting
  bind hm hf s := (hm s).bind fun r hr => hf r.1 ⟨s, r.2, hr⟩ r.2
  nameFor := Lower.blames_nameFor
  require := Lower.blames_require
  bindHelper statement _ := Lower.blames_bindHelper _ statement
  resolve := blames_resolve

theorem blames_lower (category : Option Category) (e : Syntax.Expr) : (lower category e).Blames :=
  ofSteps_lower ofSteps_blames (fun _ _ hm => hm.inRows) e

theorem blames_binding (category : Option Category) (stmt : Stmt) :
    (binding category stmt).Blames :=
  ofSteps_binding ofSteps_blames (fun _ _ hm => hm.inRows) stmt

end Lowering

/-! ### Programs -/

namespace RowProgram

theorem blames_bindField (name : String) : (bindField name).Blames := by
  refine Lower.blames_get.bind fun s => ?_
  split
  · exact Lower.blames_bind _ _
  · exact blames_pure ()

theorem blames_bindRest (name : String) : (bindRest name).Blames := by
  refine Lower.blames_get.bind fun s => ?_
  split
  · exact blames_pure ()
  · exact blames_bindField name

theorem blames_bindStatement (schema : Schema) (source : String) (stmt : Stmt) :
    (bindStatement schema source stmt).Blames := by
  rw [bindStatement]
  split
  · exact Lower.blames_forM blames_bindField _
  · split
    · exact Lower.blames_forM blames_bindRest _
    · refine (Lowering.blames_binding none stmt).noting.bind fun p => ?_
      exact Lower.blames_bind p.1 p.2

/-- Statements and filters are to blame if they cannot be lowered. -/
theorem blames_lowerAll (schema : Schema) (filters maps : List String) :
    (lowerAll schema filters maps).Blames := by
  have steps := Lowering.ofSteps_blames
  have read (source : String) : Lower.Blames (liftM (parseSource source)) :=
    Lower.blames_lift (blames_parseSource source)
  refine (Lower.blames_forM (fun source => ?_) _).bind fun _ => ?_
  · exact (read source).bind fun stmts =>
      Lower.blames_forM (blames_bindStatement schema source) stmts
  · refine Lower.Blames.bind (steps.mapM fun source _ => ?_) fun tests => blames_pure _
    exact (read source).bind fun stmts =>
      steps.mapM fun stmt _ => (Lowering.ofSteps_value steps stmt).noting

end RowProgram

namespace GroupProgram

namespace Draft

theorem blames_keyParts (outputAll : Bool) (stmt : Stmt) : Blames (keyParts outputAll stmt) := by
  cases stmt with
  | assign target e => exact blames_ok _
  | value e =>
    rw [keyParts]
    split
    · split
      · exact blames_ok _
      · exact blames_error nofun
    · exact blames_ok _

theorem blames_bindKey (d : Draft) (keyName : String) (value : Expr) :
    Blames (d.bindKey keyName value) := by
  rw [bindKey]
  split
  · exact blames_ok _
  · exact (d.outScope.blames_bind _ _ _).bind fun out _ => blames_ok _

theorem blames_nameKey (d : Draft) (keyName name : String) (value : Expr) :
    Blames (d.nameKey keyName name value) := by
  refine (d.blames_bindKey keyName value).bind fun p _ => ?_
  refine (p.1.outScope.blames_bind _ _ _).bind fun out _ => ?_
  exact (p.1.groupScope.blames_bind _ _ _).bind fun group _ => blames_ok _

theorem blames_addKey (outputAll : Bool) (d : Draft) (stmt : Stmt) :
    Blames (addKey outputAll d stmt) := by
  refine (blames_keyParts outputAll stmt).bind fun p _ => ?_
  refine (Lowering.blames_lower none p.2 _).bind fun r _ => ?_
  dsimp only
  split
  · exact (blames_nameKey _ _ _ _).bind fun d' _ => blames_ok _
  · exact blames_ok _

theorem blames_bindMissing (bs : List (String × Expr)) (s : Scope) : Blames (bindMissing s bs) := by
  induction bs generalizing s with
  | nil => exact blames_ok s
  | cons b bs ih =>
    rw [bindMissing]
    split
    · exact ih s
    · exact (s.blames_bind _ _ _).bind fun s' _ => ih s'

theorem blames_addStatement (category : Category) (source : String) (d : Draft) (stmt : Stmt) :
    Blames (addStatement category source d stmt) := by
  refine (Lowering.blames_binding (some category) stmt _).noting.bind fun r _ => ?_
  refine (blames_bindMissing _ _).bind fun out _ => ?_
  refine (r.2.scope.blames_bind _ _ _).bind fun scope _ => ?_
  refine (out.blames_bind _ _ _).bind fun out' _ => ?_
  cases category with
  | group => exact blames_ok _
  | stream => exact (d.groupScope.blames_bind _ _ _).bind fun group _ => blames_ok _

end Draft

/-- Keys and statements are to blame if there is no draft. -/
theorem blames_draft (schema : Schema) (key : Option String)
    (aggregates : List (Category × String)) (options : Options) :
    Blames (draft schema key aggregates options) := by
  refine (blames_parseSource _).bind fun keys _ => ?_
  refine (blames_foldlM (Draft.blames_addKey _) keys _).bind fun d _ => ?_
  refine blames_foldlM (fun d p => ?_) aggregates d
  refine (blames_parseSource p.2).bind fun stmts _ => ?_
  exact blames_foldlM (Draft.blames_addStatement p.1 p.2) stmts d

end GroupProgram

end RowAwk.Compile
