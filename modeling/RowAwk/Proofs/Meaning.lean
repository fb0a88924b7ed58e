import RowAwk.Proofs.Shapes

/-!
What row expressions mean.

The meaning of an expression is a value, computed from the tree of the expression alone: from the
columns of a row, the names bound before, and the variables that awk sets. Operators and functions
of awk mean whatever the machine says. The rest is fixed here: a tuple joins texts, `in` is
membership, `//` cuts a quotient, and the functions of the library have their own meanings.

    abs(a - 1) in [2, b]       ──▶       the number of `|a - 1| ∈ {2, b}`
    unjoin(",", a, 1)          ──▶       the element 1 + 1 of the parts of a

An expression that cannot be lowered, such as a list that stands alone, has no meaning.
-/

namespace RowAwk

namespace Awk

variable {V : Type} [LinearOrder V]

end Awk

namespace Compile

open Awk (Const Machine)
open Syntax (BinaryOp BoolOp CompareOp Literal Stmt UnaryOp)

/-- The value of an expression, and the text of a string that it is written as. -/
structure Meant (V : Type) where
  value : V
  text : Option String := none

/-- The names bound so far and their values. -/
abbrev Env (V : Type) := List (String × V)

namespace Meaning

section

variable {V : Type} (M : Machine V)

def const (c : Const) : Meant V where
  value := M.const c
  text := match c with
    | .str s => some s
    | _ => none

/-- A truth value. -/
def truth (b : Bool) : V := M.const (.bool b)

def unary (op : UnaryOp) (x : V) : V :=
  match op with
  | .negate => M.call "-" [x]
  | .complement => M.call "compl" [x]
  | .not => M.call "!" [x]

def binary (op : BinaryOp) (x y : V) : V :=
  match op with
  | .add => M.op .add [x, y]
  | .sub => M.op .sub [x, y]
  | .mul => M.op .mul [x, y]
  | .div => M.op .div [x, y]
  | .mod => M.op .mod [x, y]
  | .pow => M.op .pow [x, y]
  | .floorDiv => M.call "int" [M.op .div [x, y]]
  | .bitAnd => M.call "and" [x, y]
  | .bitOr => M.call "or" [x, y]
  | .shiftLeft => M.call "lshift" [x, y]
  | .shiftRight => M.call "rshift" [x, y]

def boolean (op : BoolOp) (xs : List V) : V :=
  match op with
  | .and => truth M (xs.all M.truth)
  | .or => truth M (xs.any M.truth)

/-- The argument of the parameter with a given number, which every bound call has. -/
def arg (b : Bound (Meant V)) (i : Nat) : Meant V := b.values.getD i (const M (.str ""))

/-- The text where a pattern matches is replaced, in the way that `how` says. -/
def gensub (pattern replacement how : String) (x : V) : V :=
  M.call "gensub" [M.const (.str pattern), M.const (.str replacement), M.const (.str how), x]

/-- A name denotes the column, else the binding, else the variable that awk sets. -/
def ofName (schema : Schema) (columns : Nat → V) (words : String → V) (env : Env V) (n : String) :
    Option V :=
  match schema.fieldIndex? n, env.lookup n with
  | some position, _ => some (columns (position + 1))
  | none, some v => some v
  | none, none => if n ∈ awkVariables then some (words n) else none

end

variable {V : Type} [LinearOrder V] (M : Machine V)

/-- A comparison of two values. Membership compares with a list, and is not among these. -/
def compare (op : CompareOp) (x y : V) : Option V :=
  match op with
  | .equal => some (truth M (x = y))
  | .notEqual => some (truth M (x ≠ y))
  | .less => some (truth M (x < y))
  | .lessEqual => some (truth M (x ≤ y))
  | .greater => some (truth M (y < x))
  | .greaterEqual => some (truth M (y ≤ x))
  | .isIn | .notIn => none

/-- The meaning of a call of a function of the library. The least and the greatest of no values are
    nothing, and a time is read only in a format that is written as a string. -/
def library (f : Function) (b : Bound (Meant V)) : Option (Meant V) :=
  let x := fun i => (arg M b i).value
  let rest := b.rest.map Meant.value
  match f with
  | .abs => some ⟨if x 0 < M.const (.int 0) then M.call "-" [x 0] else x 0, none⟩
  | .crc32 => some ⟨M.call "crc32" [x 0], none⟩
  | .domain => some ⟨gensub M "^https?://([^/?:#]+).*$" "\\1" "" (x 0), none⟩
  | .isInFile => some ⟨M.call "is_in_file" [x 0, x 1], none⟩
  | .join =>
    if rest.isEmpty then some (const M (.str ""))
    else some ⟨M.op .concat (rest.intersperse (x 0)), none⟩
  | .mapFromFile => some ⟨M.call "map_from_file" [x 0, x 1, x 2], none⟩
  | .max => rest.max?.map fun v => ⟨v, none⟩
  | .min => rest.min?.map fun v => ⟨v, none⟩
  | .netlocator => some ⟨gensub M "^https?://([^/?#]+).*$" "\\1" "" (x 0), none⟩
  | .shell => some ⟨M.line (x 0), none⟩
  | .strip => some ⟨gensub M "^[[:space:]]+|[[:space:]]+$" "" "G" (x 0), none⟩
  | .strptime => do
    let format ← (arg M b 0).text
    let pieces ← (TimeFormat.pieces format format.toList).toOption
    some ⟨M.call "mktime"
      [gensub M (TimeFormat.pattern pieces) (TimeFormat.replacement pieces) "" (x 1)], none⟩
  | .uniq => some ⟨M.call "uniq" [x 0, x 1], none⟩
  | .unjoin => some ⟨M.subscript (M.parts (x 1) (x 0)) (M.op .add [x 2, M.const (.int 1)]), none⟩
  | .unjoinCount => some ⟨M.size (M.parts (x 1) (x 0)), none⟩

/-! ### Expressions -/

variable (schema : Schema) (columns : Nat → V) (words : String → V)

mutual

/-- The meaning of an expression. -/
def ofExpr (env : Env V) : Syntax.Expr → Option (Meant V)
  | .literal _ v => (Lowering.constant? v).map (const M)
  | .name _ n => (ofName schema columns words env n).map fun v => ⟨v, none⟩
  | .tuple _ items => do
    let vs ← ofAll env items
    some ⟨M.op .concat (vs.map Meant.value), none⟩
  | .list _ _ => none
  | .call _ function args keywords => do
    let positional ← ofAll env args
    match Function.ofName? function.text with
    | some f =>
      let named ← ofKeywords env keywords
      let bound ← (f.signature.bind positional named).toOption
      library M f bound
    | none =>
      if keywords.isEmpty then
        some ⟨M.call function.text (positional.map Meant.value), none⟩
      else none
  | .subscript _ base index => do
    let x ← ofExpr env base
    let i ← ofExpr env index
    some ⟨M.subscript x.value i.value, none⟩
  | .unary _ op operand => do
    let x ← ofExpr env operand
    some ⟨unary M op x.value, none⟩
  | .binary _ op lhs rhs => do
    let x ← ofExpr env lhs
    let y ← ofExpr env rhs
    some ⟨binary M op x.value y.value, none⟩
  | .boolean _ op operands => do
    let xs ← ofAll env operands
    some ⟨boolean M op (xs.map Meant.value), none⟩
  | .compare _ .isIn lhs rhs => do
    let x ← ofExpr env lhs
    let items ← ofItems env rhs
    some ⟨truth M (x.value ∈ items.map Meant.value), none⟩
  | .compare _ .notIn lhs rhs => do
    let x ← ofExpr env lhs
    let items ← ofItems env rhs
    some ⟨truth M (x.value ∉ items.map Meant.value), none⟩
  | .compare _ op lhs rhs => do
    let x ← ofExpr env lhs
    let y ← ofExpr env rhs
    let v ← compare M op x.value y.value
    some ⟨v, none⟩
  | .conditional _ test yes no => do
    let t ← ofExpr env test
    let y ← ofExpr env yes
    let n ← ofExpr env no
    some ⟨if M.truth t.value then y.value else n.value, none⟩

/-- The items of a list, which may be written as a tuple. -/
def ofItems (env : Env V) : Syntax.Expr → Option (List (Meant V))
  | .list _ items => ofAll env items
  | .tuple _ items => ofAll env items
  | _ => none

def ofAll (env : Env V) : List Syntax.Expr → Option (List (Meant V))
  | [] => some []
  | e :: es => do
    let v ← ofExpr env e
    let vs ← ofAll env es
    some (v :: vs)

def ofKeywords (env : Env V) :
    List (Syntax.KeywordArg Syntax.Expr) → Option (List (String × Meant V))
  | [] => some []
  | ⟨name, e⟩ :: rest => do
    let v ← ofExpr env e
    let vs ← ofKeywords env rest
    some ((name.text, v) :: vs)

end

theorem ofKeywords_eq (env : Env V) (ks : List (Syntax.KeywordArg Syntax.Expr)) :
    ofKeywords M schema columns words env ks =
      (ofAll M schema columns words env (ks.map Syntax.KeywordArg.value)).map
        ((ks.map fun k => k.name.text).zip ·) := by
  induction ks with
  | nil =>
    simp only [ofKeywords, List.map_nil, ofAll]
    rfl
  | cons k ks ih =>
    obtain ⟨_, e⟩ := k
    simp only [ofKeywords, ih, List.map_cons, ofAll]
    cases ofExpr M schema columns words env e with
    | none => rfl
    | some v => cases ofAll M schema columns words env (ks.map Syntax.KeywordArg.value) <;> rfl

end Meaning

end Compile

end RowAwk
