import RowAwk.Proofs.Helpers
import RowAwk.Proofs.Shapes

/-!
What sources mention: the names and literals of an expression, and which numbers are finite.

A number that is too large for a double is read as infinite, and awk would take what is written for
it as the name of a variable. So two different expressions may have one text only if a source
writes such a number, or else binds a name of the compiler's own.
-/

namespace RowAwk

namespace Syntax.Expr

section

variable {α : Type} (name : String → List α) (literal : Literal → List α)

mutual

/-- What the names and literals of an expression give, from left to right. Functions are called by
    names, but these are none of the values that an expression mentions. -/
def leaves : Expr → List α
  | .literal _ v => literal v
  | .name _ n => name n
  | .tuple _ items => leavesAll items
  | .list _ items => leavesAll items
  | .call _ _ args keywords => leavesAll args ++ leavesKeywords keywords
  | .subscript _ base index => leaves base ++ leaves index
  | .unary _ _ operand => leaves operand
  | .binary _ _ lhs rhs => leaves lhs ++ leaves rhs
  | .boolean _ _ operands => leavesAll operands
  | .compare _ _ lhs rhs => leaves lhs ++ leaves rhs
  | .conditional _ test yes no => leaves test ++ (leaves yes ++ leaves no)

def leavesAll : List Expr → List α
  | [] => []
  | e :: es => leaves e ++ leavesAll es

def leavesKeywords : List (KeywordArg Expr) → List α
  | [] => []
  | ⟨_, e⟩ :: rest => leaves e ++ leavesKeywords rest

end

theorem leavesAll_singleton (e : Expr) : leavesAll name literal [e] = leaves name literal e := by
  rw [leavesAll, leavesAll, List.append_nil]

theorem leavesAll_keywords (ks : List (KeywordArg Expr)) :
    leavesAll name literal (ks.map KeywordArg.value) = leavesKeywords name literal ks := by
  induction ks with
  | nil => rw [List.map_nil, leavesAll, leavesKeywords]
  | cons k ks ih =>
    cases k
    rw [List.map_cons, leavesAll, leavesKeywords, ih]

end

/-- The names that an expression mentions. -/
abbrev names : Expr → List String := leaves (fun n => [n]) fun _ => []

/-- The literals of an expression. -/
abbrev literals : Expr → List Literal := leaves (fun _ => []) fun v => [v]

section

variable {P Q : Literal → Prop}

mutual

theorem WellFormed.and : ∀ {e : Expr}, e.WellFormed P → (∀ v ∈ e.literals, Q v) →
    e.WellFormed fun v => P v ∧ Q v
  | .literal _ v, he, hq => ⟨he, hq v (by simp [leaves])⟩
  | .name _ n, he, _ => he
  | .tuple _ items, he, hq | .list _ items, he, hq => AllWellFormed.and he hq
  | .call _ f args keywords, he, hq => by
    simp only [literals, leaves, List.forall_mem_append] at hq
    exact ⟨he.1, AllWellFormed.and he.2.1 hq.1, KeywordsWellFormed.and he.2.2 hq.2⟩
  | .unary _ _ operand, he, hq => WellFormed.and (e := operand) he hq
  | .boolean _ _ operands, he, hq => ⟨he.1, AllWellFormed.and he.2 hq⟩
  | .subscript _ lhs rhs, he, hq | .binary _ _ lhs rhs, he, hq | .compare _ _ lhs rhs, he, hq => by
    simp only [literals, leaves, List.forall_mem_append] at hq
    exact ⟨WellFormed.and he.1 hq.1, WellFormed.and he.2 hq.2⟩
  | .conditional _ test yes no, he, hq => by
    simp only [literals, leaves, List.forall_mem_append] at hq
    exact ⟨WellFormed.and he.1 hq.1, WellFormed.and he.2.1 hq.2.1, WellFormed.and he.2.2 hq.2.2⟩

theorem AllWellFormed.and : ∀ {es : List Expr}, AllWellFormed P es →
    (∀ v ∈ leavesAll (fun _ => []) (fun v => [v]) es, Q v) →
    AllWellFormed (fun v => P v ∧ Q v) es
  | [], _, _ => trivial
  | e :: es, he, hq => by
    simp only [leavesAll, List.forall_mem_append] at hq
    exact ⟨WellFormed.and he.1 hq.1, AllWellFormed.and he.2 hq.2⟩

theorem KeywordsWellFormed.and : ∀ {ks : List (KeywordArg Expr)}, KeywordsWellFormed P ks →
    (∀ v ∈ leavesKeywords (fun _ => []) (fun v => [v]) ks, Q v) →
    KeywordsWellFormed (fun v => P v ∧ Q v) ks
  | [], _, _ => trivial
  | ⟨_, e⟩ :: rest, he, hq => by
    simp only [leavesKeywords, List.forall_mem_append] at hq
    exact ⟨WellFormed.and he.1 hq.1, KeywordsWellFormed.and he.2 hq.2⟩

end

end

end Syntax.Expr

namespace Compile

open Awk (Const)
open Syntax (Literal)

/-- Literals that are written as numbers in the range of doubles, or not as numbers. -/
def finiteLiteral (v : Literal) : Bool :=
  match Lowering.constant? v with
  | some (.float x) => x.isFinite
  | _ => true

/-- Literals as they are read from sources, with finite numbers. -/
def Finite (v : Literal) : Prop := v.Spelt ∧ finiteLiteral v = true

theorem admits_finite : Admits Finite Const.Finite where
  string v := ⟨trivial, rfl⟩
  digit d hd := by
    refine ⟨Literal.spelt_digit d hd, ?_⟩
    fin_cases hd <;> decide
  const {v c} hv hc := by
    refine ⟨Lowering.written_constant? hv.1 hc, ?_⟩
    have hf := hv.2
    rw [finiteLiteral, hc] at hf
    cases c with
    | int | bool => exact .inr rfl
    | float x => exact .inr hf
    | str s => exact .inl ⟨s, rfl⟩
  written _ h := h.1

/-- Names that are told apart from helpers, variables of awk and infinite numbers. -/
structure Distinct (name : String) : Prop where
  notGenerated : isGenerated name = false
  notAwk : name ∉ awkVariables
  notInf : name ≠ "inf"

theorem ne_inf_of_isGenerated {name : String} (h : isGenerated name = true) : name ≠ "inf" := by
  rintro rfl
  exact absurd h (by decide)

/-- The only number that is written like a name is the infinite one. -/
theorem eq_inf_of_isName {c : Const} (hc : c.Written) (hs : ∀ s, c ≠ .str s)
    (hn : Syntax.isName c.text = true) : c = .float (.infinite false) ∧ c.text = "inf" := by
  cases hnum : c.isNumeral with
  | true =>
    -- a numeral starts with a digit, a name does not
    obtain ⟨-, d, ds, hd, hdigit⟩ := hc.numeral hnum
    rw [Syntax.isName, hd] at hn
    simp only [Bool.and_eq_true] at hn
    exact absurd hdigit (Syntax.Lexeme.isDigit_isNameStart hn.1)
  | false =>
    cases hc with
    | infinite => exact ⟨rfl, rfl⟩
    | str s => exact absurd rfl (hs s)
    | _ => cases hnum

end Compile

end RowAwk
