import RowAwk.Proofs.Calls
import RowAwk.Proofs.Sources

/-!
The types of row expressions.

The type of an expression follows from its tree and from the types of the columns and of the names
bound before. It also follows from the text that it is lowered to, given the types of the words in
it, as long as no truth value is written beside its number:

    source    abs(a - 1)                   a : int                 ──▶    int
    text      ((_abs0 < 0)?-(_abs0):_abs0)      _abs0 : int             ──▶    int
    text      1                                 the number, or true     ──▶    ?

Comparisons and most functions have a type of their own, whatever stands below them.
-/

open List

namespace RowAwk

open Schema (Field FieldType)

/-! ### Types by shapes -/

namespace Awk

/-- The type of a call of a function on values of given types. -/
def callType (function : String) (types : List FieldType) : FieldType :=
  (callType? function).getD (if function = "-" then types.getD 0 .any else .any)

theorem Expr.type_call (function : String) (args : List Expr) :
    (Expr.call function args).type = callType function (Expr.types args) := by
  rw [Expr.type, callType]
  cases callType? function <;> rfl

theorem Expr.types_eq_map : ∀ es : List Expr, Expr.types es = es.map Expr.type
  | [] => by rw [Expr.types, map_nil]
  | e :: es => by rw [Expr.types, map_cons, types_eq_map es]

namespace Shape

variable (schema : Schema) (word : List Char → FieldType)

mutual

/-- The type of a shape, given those of its words. -/
def type : Shape → FieldType
  | .word cs => word cs
  | .string _ => .str
  | .field digits =>
    ((schema.fields[Nat.ofDigitChars 10 digits 0 - 1]?).map Field.type).getD .any
  | .call function args => callType function (types args)
  | .subscript _ _ => .any
  | .op o args => o.type (types args)
  | .conditional _ yes no => choiceType (type yes) (type no)

def types : List Shape → List FieldType
  | [] => []
  | s :: ss => type s :: types ss

end

end Shape

end Awk

namespace Compile

open Awk (Const Expr Op callType choiceType)
open Closed (Holds)
open Syntax (Literal Stmt)

/-! ### Types of sources -/

/-- Names and the types of what they are bound to. -/
abbrev TypeEnv := List (String × FieldType)

namespace Inference

def unary (op : Syntax.UnaryOp) (t : FieldType) : FieldType :=
  match op with
  | .negate => t
  | .complement => .int
  | .not => .bool

def binary (op : Syntax.BinaryOp) (s t : FieldType) : FieldType :=
  match op with
  | .add => Op.type .add [s, t]
  | .sub => Op.type .sub [s, t]
  | .mul => Op.type .mul [s, t]
  | .div => Op.type .div [s, t]
  | .mod => Op.type .mod [s, t]
  | .pow => Op.type .pow [s, t]
  | .floorDiv | .bitAnd | .bitOr | .shiftLeft | .shiftRight => .int

/-- The type of one of some values that is found by comparing halves. -/
def best (types : List FieldType) : FieldType :=
  match types with
  | [] => .any
  | [t] => t
  | s :: t :: more =>
    let half := (s :: t :: more).length / 2
    choiceType (best ((s :: t :: more).take half)) (best ((s :: t :: more).drop half))
termination_by types.length
decreasing_by
  · simp only [length_take, length_cons]; omega
  · simp only [length_drop, length_cons]; omega

/-- The type of a call of a function of the library. -/
def library (f : Function) (b : Bound FieldType) : FieldType :=
  let t := fun i => b.values.getD i .str
  match f with
  | .abs => choiceType (t 0) (t 0)
  | .crc32 | .strptime | .unjoinCount => .int
  | .domain | .netlocator | .strip | .uniq => .str
  | .isInFile | .mapFromFile | .shell | .unjoin => .any
  | .join => if b.rest.isEmpty then .str else Op.type .concat (b.rest.intersperse (t 0))
  | .max | .min => best b.rest

/-- A name has the type of the column, else of the binding. -/
def ofName (schema : Schema) (env : TypeEnv) (n : String) : FieldType :=
  match schema.field? n with
  | some f => f.type
  | none => (env.lookup n).getD .any

variable (schema : Schema)

mutual

/-- The type of an expression, given those of the names bound before. -/
def ofExpr (env : TypeEnv) : Syntax.Expr → FieldType
  | .literal _ v => ((Lowering.constant? v).map Const.type).getD .any
  | .name _ n => ofName schema env n
  | .tuple _ items => Op.type .concat (ofAll env items)
  | .list _ _ => .any
  | .call _ function args keywords =>
    match Function.ofName? function.text with
    | some f =>
      match f.signature.bind (ofAll env args) (ofKeywords env keywords) with
      | .ok bound => library f bound
      | .error _ => .any
    | none => callType function.text (ofAll env args)
  | .subscript _ _ _ => .any
  | .unary _ op operand => unary op (ofExpr env operand)
  | .binary _ op lhs rhs => binary op (ofExpr env lhs) (ofExpr env rhs)
  | .boolean _ _ _ => .bool
  | .compare _ _ _ _ => .bool
  | .conditional _ _ yes no => choiceType (ofExpr env yes) (ofExpr env no)

def ofAll (env : TypeEnv) : List Syntax.Expr → List FieldType
  | [] => []
  | e :: es => ofExpr env e :: ofAll env es

def ofKeywords (env : TypeEnv) :
    List (Syntax.KeywordArg Syntax.Expr) → List (String × FieldType)
  | [] => []
  | ⟨name, e⟩ :: rest => (name.text, ofExpr env e) :: ofKeywords env rest

end

theorem ofKeywords_eq (env : TypeEnv) (ks : List (Syntax.KeywordArg Syntax.Expr)) :
    ofKeywords schema env ks = (ks.map fun k => k.name.text).zip
      (ofAll schema env (ks.map Syntax.KeywordArg.value)) := by
  induction ks with
  | nil => rw [ofKeywords, map_nil, zip_nil_left]
  | cons k ks ih =>
    cases k
    rw [ofKeywords, ih, map_cons, map_cons, ofAll, zip_cons_cons]

/-- The types of what statements bind, each found with those of the statements before it. -/
def ofStatements (env : TypeEnv) : List Stmt → TypeEnv
  | [] => []
  | stmt :: stmts =>
    match boundName? stmt with
    | some n =>
      let t := ofExpr schema env (stmtExpr stmt)
      (n, t) :: ofStatements (env ++ [(n, t)]) stmts
    | none => ofStatements env stmts

section

variable {schema} {env env' : TypeEnv}

mutual

/-- The type of an expression depends on the types of the names that it mentions. -/
theorem ofExpr_congr : ∀ {e : Syntax.Expr}, (∀ n ∈ e.names, env.lookup n = env'.lookup n) →
    ofExpr schema env e = ofExpr schema env' e
  | .literal .., _ | .list .., _ | .subscript .., _ | .boolean .., _ | .compare .., _ => by
    rw [ofExpr, ofExpr]
  | .name _ n, h => by
    rw [ofExpr, ofExpr, ofName, ofName, h n (by simp [Syntax.Expr.leaves])]
  | .tuple _ items, h => by rw [ofExpr, ofExpr, ofAll_congr h]
  | .call _ function args keywords, h => by
    simp only [Syntax.Expr.leaves, forall_mem_append] at h
    rw [ofExpr, ofExpr, ofAll_congr h.1, ofKeywords_congr h.2]
  | .unary _ _ operand, h => by rw [ofExpr, ofExpr, ofExpr_congr (e := operand) h]
  | .binary _ _ lhs rhs, h => by
    simp only [Syntax.Expr.leaves, forall_mem_append] at h
    rw [ofExpr, ofExpr, ofExpr_congr h.1, ofExpr_congr h.2]
  | .conditional _ _ yes no, h => by
    simp only [Syntax.Expr.leaves, forall_mem_append] at h
    rw [ofExpr, ofExpr, ofExpr_congr h.2.1, ofExpr_congr h.2.2]

theorem ofAll_congr : ∀ {es : List Syntax.Expr},
    (∀ n ∈ Syntax.Expr.leavesAll (fun n => [n]) (fun _ => []) es, env.lookup n = env'.lookup n) →
      ofAll schema env es = ofAll schema env' es
  | [], _ => by rw [ofAll, ofAll]
  | e :: es, h => by
    simp only [Syntax.Expr.leavesAll, forall_mem_append] at h
    rw [ofAll, ofAll, ofExpr_congr h.1, ofAll_congr h.2]

theorem ofKeywords_congr : ∀ {ks : List (Syntax.KeywordArg Syntax.Expr)},
    (∀ n ∈ Syntax.Expr.leavesKeywords (fun n => [n]) (fun _ => []) ks,
      env.lookup n = env'.lookup n) → ofKeywords schema env ks = ofKeywords schema env' ks
  | [], _ => by rw [ofKeywords, ofKeywords]
  | ⟨name, e⟩ :: rest, h => by
    simp only [Syntax.Expr.leavesKeywords, forall_mem_append] at h
    rw [ofKeywords, ofKeywords, ofExpr_congr h.1, ofKeywords_congr h.2]

end

theorem ofStatements_congr {stmts : List Stmt}
    (h : ∀ stmt ∈ stmts, ∀ n ∈ (stmtExpr stmt).names, env.lookup n = env'.lookup n) :
    ofStatements schema env stmts = ofStatements schema env' stmts := by
  induction stmts generalizing env env' with
  | nil => rfl
  | cons stmt stmts ih =>
    rw [forall_mem_cons] at h
    rw [ofStatements, ofStatements, ofExpr_congr h.1]
    split
    · refine congrArg _ (ih fun stmt hm n hn => ?_)
      rw [lookup_append, lookup_append, h.2 stmt hm n hn]
    · exact ih h.2

theorem ofStatements_append (stmts stmts' : List Stmt) :
    ofStatements schema env (stmts ++ stmts') = ofStatements schema env stmts ++
      ofStatements schema (env ++ ofStatements schema env stmts) stmts' := by
  induction stmts generalizing env with
  | nil => rw [nil_append, ofStatements, nil_append, append_nil]
  | cons stmt stmts ih =>
    rw [cons_append, ofStatements, ofStatements]
    split
    · simp only [ih, cons_append, append_assoc, nil_append]
    · exact ih

end

end Inference

/-! ### Types of lowered expressions -/

attribute [local simp] Awk.Shape.type Awk.Shape.types

/-- Words that stand for no number and have no type: variables that awk sets, arrays, and lines that
    commands print. -/
def Untyped (name : String) : Prop :=
  name ∈ awkVariables ∨ ∃ i : Nat, name = "_split" ++ toString i ∨ name = "_sh" ++ toString i

/-- Types for all words that agree with the bindings of a scope, and with the numbers and truth
    values of the kind `C`. -/
structure Assigns (C : Const → Prop) (sc : Scope) (word : List Char → FieldType) : Prop where
  bound : ∀ m b, Syntax.isName m = true → sc.binding? m = some b →
    word m.toList = (Expr.var m b).type
  untyped : ∀ m, Untyped m → word m.toList = .any
  number : ∀ c, C c → word c.text.toList = c.type

/-- The type of an expression can be read off its shape. -/
def Reads (C : Const → Prop) (sc : Scope) (e : Expr) : Prop :=
  ∀ word, Assigns C sc word → e.type = e.shape.type sc.schema word

/-- Lowered expressions whose texts tell their types. -/
structure Told (C : Const → Prop) (sc : Scope) (e : Expr) : Prop where
  lowered : e.Lowered Const.Written
  reads : Reads C sc e

section

variable {C : Const → Prop} {sc sc' : Scope} {e : Expr}

theorem Reads.mono (h : Reads C sc e) (hs : sc'.schema = sc.schema)
    (hg : sc.bindings <+: sc'.bindings) : Reads C sc' e := by
  intro word hw
  rw [hs]
  exact h word ⟨fun m b hm hb => hw.bound m b hm (Scope.binding?_of_grows hg hb), hw.untyped,
    hw.number⟩

theorem Reads.const {c : Const} (hc : (∃ s, c = .str s) ∨ C c) : Reads C sc (.const c) := by
  intro word hw
  cases c with
  | str => rfl
  | _ =>
    rcases hc with ⟨s, hs⟩ | hc
    · cases hs
    · exact (hw.number _ hc).symm

/-- A column has the type that the description gives it. -/
theorem Reads.field {n : String} (h : sc.field? n = some e) :
    Reads C sc e ∧ ∃ f, sc.schema.field? n = some f ∧ e.type = f.type := by
  obtain ⟨i, hi, h⟩ := Option.bind_eq_some_iff.1 h
  obtain ⟨f, hf, h⟩ := Option.bind_eq_some_iff.1 h
  cases h
  refine ⟨fun word _ => ?_, f, hf, rfl⟩
  have hget : sc.schema.fields[i]? = some f := by
    rw [← hf, Schema.field?, List.find?_eq_bind_findIdx?_getElem?, ← Schema.fieldIndex?, hi]
    rfl
  rw [Expr.type, Expr.shape, Awk.Shape.type, Number.ofDigitChars_toString, Nat.add_sub_cancel, hget]
  rfl

variable {m : String} {args : List Expr}

theorem Reads.var {b : Expr} (hm : Syntax.isName m = true) (hb : sc.binding? m = some b) :
    Reads C sc (.var m b) :=
  fun word hw => by rw [Expr.shape, Awk.Shape.type, hw.bound m b hm hb]

theorem Reads.builtin (hm : m ∈ awkVariables) : Reads C sc (.builtin m) :=
  fun word hw => by rw [Expr.shape, Awk.Shape.type, hw.untyped m (.inl hm), Expr.type]

theorem Reads.sideEffect (hm : Untyped m) (cause : Expr) : Reads C sc (.sideEffect m cause) :=
  fun word hw => by rw [Expr.shape, Awk.Shape.type, hw.untyped m hm, Expr.type]

theorem Reads.subscript (base index : Expr) : Reads C sc (.subscript base index) :=
  fun word _ => by rw [Expr.shape, Awk.Shape.type, Expr.type]

theorem Reads.types (h : ∀ a ∈ args, Reads C sc a) {word : List Char → FieldType}
    (hw : Assigns C sc word) :
    Expr.types args = Awk.Shape.types sc.schema word (Expr.shapes args) := by
  induction args with
  | nil => rw [Expr.types, Expr.shapes, Awk.Shape.types]
  | cons a args ih =>
    rw [forall_mem_cons] at h
    rw [Expr.types, Expr.shapes, Awk.Shape.types, h.1 word hw, ih h.2]

theorem Reads.op {o : Op} (h : o.isPredicate = false → ∀ a ∈ args, Reads C sc a) :
    Reads C sc (.op o args) := by
  intro word hw
  rw [Expr.shape, Awk.Shape.type, Expr.type]
  cases ho : o.isPredicate with
  | true => simp only [Op.type, ho, if_true]
  | false => rw [Reads.types (h ho) hw]

theorem Reads.call {f : String} (h : f = "-" → ∀ a ∈ args, Reads C sc a) :
    Reads C sc (.call f args) := by
  intro word hw
  rw [Expr.shape, Awk.Shape.type, Expr.type_call]
  by_cases hf : f = "-"
  · rw [Reads.types (h hf) hw]
  · simp only [callType, if_neg hf]

theorem Reads.conditional {test yes no : Expr} (hy : Reads C sc yes) (hn : Reads C sc no) :
    Reads C sc (.conditional test yes no) :=
  fun word hw => by rw [Expr.shape, Awk.Shape.type, Expr.type, hy word hw, hn word hw]

end

/-! ### One text, one type -/

/-- The numbers and truth values that some literals write. -/
def Among (vs : List Literal) (c : Const) : Prop :=
  (∀ s, c ≠ .str s) ∧ ∃ v ∈ vs, v.Spelt ∧ Lowering.constant? v = some c

/-- Whether a truth value and a number are written alike. -/
def alike : Literal → Literal → Bool
  | .bool b, .number spelling =>
    Lowering.constant? (.number spelling) = some (.int (if b then 1 else 0))
  | _, _ => false

/-- No truth value is among some literals together with its number. -/
def Unmixed (vs : List Literal) : Prop := ∀ v ∈ vs, ∀ w ∈ vs, alike v w = false

instance (vs : List Literal) : Decidable (Unmixed vs) :=
  inferInstanceAs (Decidable (∀ v ∈ vs, ∀ w ∈ vs, alike v w = false))

section

variable {vs : List Literal} {c d : Const}

theorem Among.written (hc : Among vs c) : c.Written := by
  obtain ⟨-, v, -, hv, hc⟩ := hc
  exact Lowering.written_constant? hv hc

theorem Among.bool {b : Bool} (hc : Among vs (.bool b)) : .bool b ∈ vs := by
  obtain ⟨-, v, hv, -, hc⟩ := hc
  cases v with
  | bool => cases hc; exact hv
  | string => cases hc
  | number spelling =>
    simp only [Lowering.constant?] at hc
    split at hc
    · cases hc
    · obtain ⟨x, -, hx⟩ := Option.map_eq_some_iff.1 hc
      cases hx

theorem Among.int {n : Int} (hc : Among vs (.int n)) :
    ∃ spelling, .number spelling ∈ vs ∧ Lowering.constant? (.number spelling) = some (.int n) := by
  obtain ⟨-, v, hv, -, hc⟩ := hc
  cases v with
  | bool | string => cases hc
  | number spelling => exact ⟨spelling, hv, hc⟩

/-- Numbers and truth values of one text have one type, unless they are mixed. -/
theorem Unmixed.type_eq (h : Unmixed vs) (hc : Among vs c) (hd : Among vs d)
    (ht : c.text = d.text) : c.type = d.type := by
  have infinite {c : Const} (hc : Among vs c) (hn : c.isNumeral = false) :
      c = .float (.infinite false) := by
    cases hc.written with
    | infinite => rfl
    | str s => exact absurd rfl (hc.1 s)
    | _ => cases hn
  have apart {c d : Const} (hc : Among vs c) (hn : c.isNumeral = true)
      (hd : d = .float (.infinite false)) (ht : c.text = d.text) : False := by
    obtain ⟨-, x, xs, hx, hdigit⟩ := hc.written.numeral hn
    rw [ht, hd] at hx
    cases hx
    exact absurd hdigit (by decide)
  cases hnc : c.isNumeral with
  | false =>
    have hc' := infinite hc hnc
    cases hnd : d.isNumeral with
    | false => rw [hc', infinite hd hnd]
    | true => exact (apart hd hnd hc' ht.symm).elim
  | true =>
    cases hnd : d.isNumeral with
    | false => exact (apart hc hnc (infinite hd hnd) ht).elim
    | true =>
      have hplain := hc.written.plain_eq hd.written hnc hnd ht
      have mixed {b : Bool} {n : Int} (hb : Among vs (.bool b)) (hn : Among vs (.int n))
          (heq : n = if b then 1 else 0) : False := by
        obtain ⟨spelling, hs, hspelling⟩ := hn.int
        exact absurd (heq ▸ hspelling) (of_decide_eq_false (h _ hb.bool _ hs))
      cases c with
      | int n =>
        cases d with
        | int => rfl
        | bool b => exact (mixed hd hc (Const.int.inj hplain)).elim
        | _ => cases hplain
      | bool b =>
        cases d with
        | bool => rfl
        | int n => exact (mixed hc hd (Const.int.inj hplain).symm).elim
        | _ => cases hplain
      | float x =>
        cases d with
        | float => rfl
        | _ => cases hplain
      | str t => exact absurd rfl (hc.1 t)

end

/-- Numbers and truth values whose texts tell their types. -/
structure Telling (C : Const → Prop) : Prop where
  written : ∀ c, C c → c.Written
  notText : ∀ c, C c → ∀ s, c ≠ .str s
  type_eq : ∀ c d, C c → C d → c.text = d.text → c.type = d.type

theorem Unmixed.telling {vs : List Literal} (h : Unmixed vs) : Telling (Among vs) where
  written _ hc := hc.written
  notText _ hc := hc.1
  type_eq _ _ hc hd ht := h.type_eq hc hd ht

section

variable {C : Const → Prop} {n : Namer} {sc : Scope}

open Classical in
/-- The type of the numbers that are written as a word. -/
noncomputable def numberType (C : Const → Prop) (cs : List Char) : FieldType :=
  if h : ∃ c, C c ∧ c.text.toList = cs then h.choose.type else .any

/-- Types for the words of a scope: those of bindings, and of numbers else. -/
noncomputable def wordType (C : Const → Prop) (sc : Scope) (cs : List Char) : FieldType :=
  if Syntax.isName (String.ofList cs) then
    ((sc.binding? (String.ofList cs)).map fun b => (Expr.var (String.ofList cs) b).type).getD
      (numberType C cs)
  else numberType C cs

theorem Untyped.isName {m : String} (h : Untyped m) : Syntax.isName m = true ∧ m ≠ "inf" := by
  have key : ∀ w ∈ awkVariables, Syntax.isName w = true ∧ w ≠ "inf" := by decide
  rcases h with h | ⟨i, rfl | rfl⟩
  · exact key m h
  · exact ⟨isName_number (by decide) i, ne_inf_of_isGenerated (isGenerated_number (by decide) i)⟩
  · exact ⟨isName_number (by decide) i, ne_inf_of_isGenerated (isGenerated_number (by decide) i)⟩

/-- What is bound under a word without a type has none either. -/
theorem Untyped.binding {m : String} {b : Expr} (h : Untyped m)
    (hb : Entry Const.Written Distinct n.entries m b) : (Expr.var m b).type = .any := by
  cases hb with
  | source hm _ =>
    rcases h with h | ⟨i, rfl | rfl⟩
    · exact absurd h hm.notAwk
    · exact absurd hm.notGenerated (by rw [isGenerated_number (by decide)]; decide)
    · exact absurd hm.notGenerated (by rw [isGenerated_number (by decide)]; decide)
  | helper hb =>
    rcases h with h | ⟨i, rfl | rfl⟩
    · have key : ∀ w ∈ awkVariables, isGenerated w = false := by decide
      exact absurd hb.isGenerated (by rw [key m h]; decide)
    · exact absurd rfl (hb.ne_array i)
    · generalize hm : "_sh" ++ toString i = m at hb
      cases hb with
      | held hs =>
        obtain ⟨rfl, -⟩ := stem_number_inj (by decide) (mem_stems hs.1) hm
        exact absurd (by decide) hs.2
      | split =>
        obtain ⟨h, -⟩ := stem_number_inj (by decide) (by decide) hm
        exact absurd h (by decide)
      | line => rfl

/-- There are types for all words of a scope whose names are told apart. -/
theorem assigns_wordType (hs : sc.Hygienic Const.Written Distinct n.entries)
    (hC : Telling C) : Assigns C sc (wordType C sc) := by
  have hinf {c : Const} {m : String} (hc : C c) (hm : Syntax.isName m = true)
      (h : c.text.toList = m.toList) : m = "inf" := by
    rw [String.toList_inj] at h
    rw [← h]
    exact (eq_inf_of_isName (hC.written c hc) (hC.notText c hc) (h.symm ▸ hm)).2
  refine ⟨fun m b hm hb => ?_, fun m hm => ?_, fun c hc => ?_⟩
  · rw [wordType, String.ofList_toList, hm, hb]
    rfl
  · obtain ⟨hname, hne⟩ := hm.isName
    rw [wordType, String.ofList_toList, hname, if_pos rfl]
    cases hb : sc.binding? m with
    | none => exact dif_neg fun ⟨c, hc, h⟩ => hne (hinf hc hname h)
    | some b => exact hm.binding (hs m b (Scope.mem_of_binding? hb))
  · have hnumber : numberType C c.text.toList = c.type := by
      have h : ∃ d, C d ∧ d.text.toList = c.text.toList := ⟨c, hc, rfl⟩
      rw [numberType, dif_pos h]
      exact hC.type_eq _ _ h.choose_spec.1 hc (String.toList_inj.1 h.choose_spec.2)
    rw [wordType, String.ofList_toList]
    split
    · rename_i hname
      cases hb : sc.binding? c.text with
      | none => exact hnumber
      | some b =>
        -- nothing is bound under the text of an infinite number
        have htext := hinf hc hname rfl
        have hentry := hs _ b (Scope.mem_of_binding? hb)
        rw [htext] at hentry
        cases hentry with
        | source hm _ => exact absurd rfl hm.notInf
        | helper hb => exact absurd rfl (ne_inf_of_isGenerated hb.isGenerated)
    · exact hnumber

/-- Expressions of one text have one type. -/
theorem type_eq_of_text_eq (hs : sc.Hygienic Const.Written Distinct n.entries) (hC : Telling C)
    {v w : Expr} (hv : Told C sc v) (hw : Told C sc w) (h : v.text = w.text) : v.type = w.type := by
  have hword := assigns_wordType hs hC
  rw [hv.reads _ hword, hw.reads _ hword, hv.lowered.shape_eq (fun _ h => h) hw.lowered h]

end

end Compile

end RowAwk
