import RowAwk.Proofs.Helpers
import RowAwk.Proofs.Materialization
import RowAwk.Proofs.Precedence

/-!
What awk takes the text of an expression for.

Every operator is written with parentheses around it, so what is read is the tree of the expression
whatever the levels of its operators. There are four exceptions.

    join a and -b     ($1  -($2))     is read as a difference
    -a squared        (-($1) ^ 2)     is read as the sign of a power
    a["k"]            $1["k"]         is no expression: only names have elements
    a huge number     inf             is read as a name

`isClear` leaves them out. All other expressions that lowering gives are read as they are meant.
-/

open List

namespace RowAwk.Awk

open Grammar (Operand Reads StartsOperand Strung after? behind joint? operators)
open Syntax (isName)

/-! ### The trees that expressions stand for -/

/-- The symbols between the arguments of an operator. -/
def Op.signs : Op → List Symbol
  | .concat | .juxtapose => []
  | .add => [.sign ['+']]
  | .sub => [.sign ['-']]
  | .mul => [.sign ['*']]
  | .div => [.sign ['/']]
  | .pow => [.sign ['^']]
  | .mod => [.sign ['%']]
  | .and => [.sign ['&', '&']]
  | .or => [.sign ['|', '|']]
  | .equal => [.sign ['=', '=']]
  | .notEqual => [.sign ['!', '=']]
  | .greater => [.sign ['>']]
  | .less => [.sign ['<']]
  | .greaterEqual => [.sign ['>', '=']]
  | .lessEqual => [.sign ['<', '=']]

namespace Tree

/-- What is called on some arguments: a sign, or a function. -/
def applied (f : String) : List Tree → Tree
  | [t] => if f = "-" then .unary '-' t else if f = "!" then .unary '!' t else .call f.toList [t]
  | ts => .call f.toList ts

/-- An operator between its arguments; without any they make the empty text. -/
def joined (o : Op) : List Tree → Tree
  | [] => .string []
  | t :: ts => chain o t ts

end Tree

namespace Expr

mutual

/-- The operators of an expression and what they apply to. -/
def tree : Expr → Tree
  | .const (.str s) => .string s.toList
  | .const c => .number c.text.toList
  | .field _ position _ => .column (.number (toString position).toList)
  | .var name _ => .name name.toList
  | .builtin name => .name name.toList
  | .sideEffect name _ => .name name.toList
  | .call f args => .applied f (treeAll args)
  | .subscript base index => .subscript (tree base) (tree index)
  | .op o args => .joined o (treeAll args)
  | .conditional test yes no => .conditional (tree test) (tree yes) (tree no)
  | .assign _ value => tree value
  | .aggregate accumulator _ => .name accumulator.name.toList

def treeAll : List Expr → List Tree
  | [] => []
  | e :: es => tree e :: treeAll es

end

/-- Whether an expression is a sign before another one. -/
def isSigned : Expr → Bool
  | .call f [_] => f == "-" || f == "!"
  | _ => false

def isMinus : Expr → Bool
  | .call f [_] => f == "-"
  | _ => false

/-- Whether the text of an expression is a single name. -/
def isWord : Expr → Bool
  | .var .. | .builtin _ | .sideEffect .. | .aggregate .. => true
  | _ => false

/-- Whether the arguments of an operator are not taken apart: nothing is joined with a minus
    behind it, and nothing with a sign is raised to a power. -/
def holdTogether : Op → List Expr → Bool
  | .concat, _ :: more => more.all fun e => !e.isMinus
  | .pow, base :: _ => !base.isSigned
  | _, _ => true

mutual

/-- Whether no part of an expression is taken for something else. -/
def isClear : Expr → Bool
  | .const (.str _) => true
  | .const c => c.isNumeral
  | .call _ args => allClear args
  | .subscript base index => base.isWord && isClear base && isClear index
  | .op o args => holdTogether o args && allClear args
  | .conditional test yes no => isClear test && isClear yes && isClear no
  | .assign _ value => isClear value
  | _ => true

def allClear : List Expr → Bool
  | [] => true
  | e :: es => isClear e && allClear es

end

theorem treeAll_eq_map : ∀ es : List Expr, treeAll es = es.map tree
  | [] => rfl
  | e :: es => by rw [treeAll, treeAll_eq_map es, map_cons]

theorem allClear_iff : ∀ {es : List Expr}, allClear es = true ↔ ∀ e ∈ es, e.isClear = true
  | [] => by simp [allClear]
  | e :: es => by rw [allClear, Bool.and_eq_true, allClear_iff, forall_mem_cons]

/-! ### The symbols of a text -/

/-- What is called: a sign, or the name of a function. -/
def headSymbol (f : String) : Symbol :=
  if isName f then .function f.toList else .sign f.toList

/-- The symbol of a constant. -/
def constSymbol : Const → Symbol
  | .str s => .string s.toList
  | c => if c.isNumeral then .number c.text.toList else .name c.text.toList

mutual

/-- The symbols that the text of an expression is made of. -/
def symbols : Expr → List Symbol
  | .const c => [constSymbol c]
  | .field _ position _ => [.sign ['$'], .number (toString position).toList]
  | .var name _ => [.name name.toList]
  | .builtin name => [.name name.toList]
  | .sideEffect name _ => [.name name.toList]
  | .call f args =>
    headSymbol f :: .sign ['('] :: ([.sign [',']].intercalate (symbolsAll args) ++ [.sign [')']])
  | .subscript base index => symbols base ++ .sign ['['] :: (symbols index ++ [.sign [']']])
  | .op o args => .sign ['('] :: (o.signs.intercalate (symbolsAll args) ++ [.sign [')']])
  | .conditional test yes no =>
    .sign ['('] :: (symbols test ++ .sign ['?'] :: (symbols yes ++ .sign [':'] :: symbols no) ++
      [.sign [')']])
  | .assign _ value => symbols value
  | .aggregate accumulator _ => [.name accumulator.name.toList]

def symbolsAll : List Expr → List (List Symbol)
  | [] => []
  | e :: es => symbols e :: symbolsAll es

end

attribute [local simp] tree treeAll symbols symbolsAll

theorem symbolsAll_eq_map : ∀ es : List Expr, symbolsAll es = es.map symbols
  | [] => rfl
  | e :: es => by rw [symbolsAll, symbolsAll_eq_map es, map_cons]

end Expr

/-! ### From tokens to symbols -/

namespace Symbol

variable {ts : List Token} {ss : List Symbol}

attribute [local simp] scan

variable {c : Char}

theorem scan_mark (h : ∀ d us, ts = .mark d :: us → isDouble c d = false) :
    scan (.mark c :: ts) = consMark c (scan ts) := by
  cases ts with
  | nil => simp [scan]
  | cons t us =>
    cases t with
    | mark d => rw [scan, if_neg (by rw [h d us rfl]; exact Bool.false_ne_true)]
    | word cs | string cs => simp [scan]

/-- A mark that starts no double sign stands alone. -/
theorem scan_single (h : c ∉ ['&', '|', '=', '!', '>', '<', '+', '-']) (ts : List Token) :
    scan (.mark c :: ts) = consMark c (scan ts) := by
  refine scan_mark fun d us _ => ?_
  simp only [mem_cons, not_mem_nil, or_false, not_or] at h
  simp [isDouble, h]

/-- A mark that is nothing but itself. -/
theorem scan_sign (h : c ∉ ['&', '|', '=', '!', '>', '<', '+', '-', ' ']) (ts : List Token) :
    scan (.mark c :: ts) = .sign [c] :: scan ts := by
  simp only [mem_cons, not_mem_nil, or_false, not_or] at h
  rw [scan_single (by simp [h]), consMark, if_neg h.2.2.2.2.2.2.2.2]

theorem scan_blank (ts : List Token) : scan (.mark ' ' :: ts) = scan ts :=
  scan_single (by decide) ts

theorem scan_number {cs : List Char} (h : Const.Numeral cs) (ts : List Token) :
    scan (.word cs :: ts) = .number cs :: scan ts := by
  obtain ⟨-, c, rest, rfl, hc⟩ := h
  rw [scan, ofWord, List.head?_cons, Option.any_some, if_pos hc]

theorem ofWord_name {n : String} (h : isName n = true) (called : Bool) :
    ofWord n.toList called = if called then .function n.toList else .name n.toList := by
  have hdigit : ¬ n.toList.head?.any Char.isDigit = true := by
    rw [isName] at h
    cases hn : n.toList with
    | nil => exact Bool.false_ne_true
    | cons c cs =>
      simp only [hn, Bool.and_eq_true] at h
      exact Syntax.Lexeme.isDigit_isNameStart h.1
  rw [ofWord, if_neg hdigit]

/-- Tokens make symbols of their own before anything but a parenthesis. -/
def Scans (ts : List Token) (ss : List Symbol) : Prop :=
  ∀ us, opens us = false → scan (ts ++ us) = ss ++ scan us

theorem Scans.mark (h : Scans ts ss) {c : Char} (hc : c ≠ '(') (us : List Token) :
    scan (ts ++ .mark c :: us) = ss ++ scan (.mark c :: us) :=
  h _ (beq_eq_false_iff_ne.2 hc)

theorem scans_name {n : String} (h : isName n = true) :
    Scans [.word n.toList] [.name n.toList] := by
  intro us hus
  rw [singleton_append, scan, hus, ofWord_name h]
  rfl

/-- Marks between other tokens. -/
structure Parts (marks : List Token) (ss : List Symbol) : Prop where
  opens : ∀ us, Symbol.opens (marks ++ us) = false
  scan : ∀ us, Symbol.scan (marks ++ us) = ss ++ Symbol.scan us

/-- Tokens with marks between them are taken one by one. -/
theorem scans_intercalate {marks : List Token} (hm : Parts marks ss) :
    ∀ items : List (List Token × List Symbol), (∀ p ∈ items, Scans p.1 p.2) →
      Scans (marks.intercalate (items.map Prod.fst)) (ss.intercalate (items.map Prod.snd))
  | [], _ => fun _ _ => rfl
  | [p], h => by
    rw [map_singleton, map_singleton, intercalate_singleton, intercalate_singleton]
    exact h p mem_cons_self
  | p :: q :: items, h => by
    obtain ⟨hp, hrest⟩ := forall_mem_cons.1 h
    have hmore := scans_intercalate hm (q :: items) hrest
    rw [map_cons, map_cons] at hmore
    intro us hus
    rw [map_cons, map_cons, map_cons, map_cons, intercalate_cons_cons,
      intercalate_cons_cons, append_assoc, append_assoc, append_assoc,
      append_assoc, hp _ (hm.opens _), hm.scan, hmore us hus]

/-- The marks of an operator make its sign. -/
theorem parts_op (o : Op) : Parts (o.separator.toList.map .mark) o.signs where
  opens us := by cases o <;> rfl
  scan us := by
    have double {c d : Char} (h : isDouble c d = true) (us : List Token) :
        scan (.mark c :: .mark d :: us) = .sign [c, d] :: scan us := by rw [scan, if_pos h]
    have single {c : Char} (hc : isDouble c ' ' = false) (hb : c ≠ ' ') (us : List Token) :
        scan (.mark c :: .mark ' ' :: us) = .sign [c] :: scan us := by
      rw [scan_mark (by rintro d us ⟨⟩; exact hc), consMark, if_neg hb, scan_blank]
    cases o with
    | concat => exact (scan_blank _).trans (scan_blank _)
    | juxtapose => exact scan_blank _
    | add | sub | mul | div | pow | mod | greater | less =>
      exact (scan_blank _).trans (single rfl (by decide) us)
    | _ =>
      refine (scan_blank _).trans ((double rfl _).trans ?_)
      exact congrArg _ (scan_blank us)

theorem parts_comma : Parts [.mark ',', .mark ' '] [.sign [',']] where
  opens _ := rfl
  scan us := by
    rw [cons_append, scan_sign (by decide), singleton_append, scan_blank]
    rfl

end Symbol

/-! ### From texts to symbols -/

namespace Expr

open RowAwk.Awk.Symbol (Parts Scans scan scan_sign)

variable {e : Expr}
variable {f : String} {args : List Expr} {C : Const → Prop} {a b : Expr} {o : Op}

theorem headSymbol_of_isName (hf : isName f = true) :
    headSymbol f = .function f.toList := if_pos hf

theorem scans_const {c : Const} (h : c.Written) : Scans (constTokens c) [constSymbol c] := by
  have hnumber (hn : c.isNumeral = true) : Scans [.word c.text.toList] [.number c.text.toList] :=
    fun us _ => Symbol.scan_number (h.numeral hn) us
  cases h with
  | nat n | real hm | bool b => exact hnumber rfl
  | infinite => exact Symbol.scans_name (n := "inf") (by decide)
  | str s => exact fun _ _ => rfl

/-- The arguments of a call or an operator, in parentheses. -/
theorem scan_arguments {marks : List Token} {ss : List Symbol} (hm : Parts marks ss)
    (ih : ∀ a ∈ args, Scans a.tokens a.symbols) (us : List Token) :
    scan (.mark '(' :: (marks.intercalate (tokensAll args) ++ [.mark ')'] ++ us))
      = .sign ['('] :: (ss.intercalate (symbolsAll args) ++ [.sign [')']] ++ scan us) := by
  have hargs := Symbol.scans_intercalate hm (args.map fun a => (a.tokens, a.symbols))
    (forall_mem_map.2 ih)
  rw [map_map, map_map] at hargs
  rw [tokensAll_eq_map, symbolsAll_eq_map, scan_sign (by decide), append_assoc,
    append_assoc, singleton_append, singleton_append]
  exact congrArg _ ((hargs.mark (by decide) us).trans (congrArg _ (scan_sign (by decide) us)))

/-- The tokens of an expression make its symbols. -/
theorem Lowered.scans (hC : ∀ c, C c → c.Written) (h : Lowered C e) : Scans e.tokens e.symbols := by
  induction h with
  | const hc => exact scans_const (hC _ hc)
  | @field name position type =>
    intro us _
    have hnumber := Symbol.scan_number (Const.numeral_toString position) us
    rw [tokens, cons_append, scan_sign (by decide), singleton_append, hnumber, symbols]
    rfl
  | var hn | sideEffect hn | aggregate hn => exact Symbol.scans_name hn
  | builtin hn => exact Symbol.scans_name (isName_of_mem_awkVariables hn)
  | @call f args hf _ ih =>
    intro us _
    have hargs := scan_arguments Symbol.parts_comma ih us
    rw [tokens, headTokens_of_isName hf, append_assoc, singleton_append, cons_append,
      scan, hargs, symbols, headSymbol_of_isName hf, Symbol.ofWord_name hf]
    rfl
  | @sign f a hf _ ih =>
    intro us _
    have hargs := scan_arguments Symbol.parts_comma (forall_mem_singleton.2 ih) us
    have hsign {c : Char} (hc : Symbol.isDouble c '(' = false) (ts : List Token) :
        scan (.mark c :: .mark '(' :: ts) = Symbol.consMark c (scan (.mark '(' :: ts)) :=
      Symbol.scan_mark (by rintro d us ⟨⟩; exact hc)
    simp only [mem_cons, not_mem_nil, or_false] at hf
    rcases hf with rfl | rfl
    · exact (hsign rfl _).trans (congrArg _ hargs)
    · exact (hsign rfl _).trans (congrArg _ hargs)
  | @subscript base index _ _ ihb ihi =>
    intro us _
    have hindex : scan (.mark '[' :: (index.tokens ++ .mark ']' :: us))
        = .sign ['['] :: (index.symbols ++ .sign [']'] :: scan us) := by
      rw [scan_sign (by decide), ihi.mark (by decide), scan_sign (by decide)]
    simp only [tokens, symbols, append_assoc, cons_append, nil_append]
    rw [ihb.mark (by decide), hindex]
  | @op o args _ _ ih =>
    intro us _
    rw [tokens, symbols, cons_append, scan_arguments (Symbol.parts_op o) ih]
    rfl
  | @conditional test yes no _ _ _ iht ihy ihn =>
    intro us _
    simp only [tokens, symbols, append_assoc, cons_append, nil_append]
    rw [scan_sign (by decide), iht.mark (by decide), scan_sign (by decide), ihy.mark (by decide),
      scan_sign (by decide), ihn.mark (by decide), scan_sign (by decide)]

/-! ### What is read -/

open Grammar (intercalate_behind)

/-- An expression with its symbols, as an operand. -/
def operand (e : Expr) : Operand := (e.symbols, e.tree)

theorem symbolsAll_cons (a : Expr) (args : List Expr) :
    symbolsAll (a :: args) = (a.operand :: args.map operand).map Prod.fst := by
  rw [symbolsAll_eq_map, ← map_cons, map_map]
  rfl

theorem treeAll_cons (a : Expr) (args : List Expr) :
    treeAll (a :: args) = a.operand.2 :: (args.map operand).map Prod.snd := by
  rw [treeAll_eq_map, map_map]
  rfl

/-- An expression that is read as it is meant. Only a sign before it keeps it from being the base
    of a power, and only a minus from being joined. -/
structure Legible (e : Expr) : Prop where
  unary : Reads .unary e.symbols e.tree
  primary : e.isSigned = false → Reads .primary e.symbols e.tree ∧ StartsOperand e.symbols
  joins : e.isMinus = false → ∀ r, joint? (e.symbols ++ r) = some (.concat, .concat, e.symbols ++ r)
  opens : ∀ r, after? ['['] (e.symbols ++ r) = none ∧ after? [')'] (e.symbols ++ r) = none

theorem Legible.level (h : e.Legible) {l : Level} (hl : l.depth ≤ 7) : Reads l e.symbols e.tree :=
  h.unary.climb (Nat.le_refl 7) hl

theorem Legible.whole (h : e.Legible) : Reads .conditional e.symbols e.tree :=
  h.level (by decide)

/-- What stands alone is read wherever it stands. -/
theorem legible_of_primary (h : Reads .primary e.symbols e.tree) (hs : StartsOperand e.symbols) :
    e.Legible where
  unary := h.unary hs
  primary _ := ⟨h, hs⟩
  joins _ r := (hs.append r).joint?
  opens r := ⟨(hs.append r).after? (by decide), (hs.append r).after? (by decide)⟩

theorem legible_const {c : Const} (hc : isClear (.const c) = true) : (Expr.const c).Legible := by
  have hnumber (hs : constSymbol c = .number c.text.toList)
      (ht : tree (.const c) = .number c.text.toList) : (Expr.const c).Legible := by
    have hsymbols : symbols (.const c) = [.number c.text.toList] := by rw [symbols, hs]
    refine legible_of_primary ?_ ⟨_, _, hsymbols, rfl⟩
    rw [hsymbols, ht]
    exact Grammar.reads_number _
  cases c with
  | int n | bool b => exact hnumber rfl rfl
  | float x => exact hnumber (if_pos hc) rfl
  | str s => exact legible_of_primary (Grammar.reads_string s.toList) ⟨_, _, rfl, rfl⟩

/-- The only expressions that awk takes elements of. -/
theorem exists_name_of_isWord (h : e.isWord = true) :
    ∃ cs, e.symbols = [.name cs] ∧ e.tree = .name cs := by
  cases e with
  | var name b | builtin name | sideEffect name cause => exact ⟨name.toList, rfl, rfl⟩
  | aggregate a args => exact ⟨a.name.toList, rfl, rfl⟩
  | _ => cases h

theorem legible_word (h : e.isWord = true) : e.Legible := by
  obtain ⟨cs, hs, ht⟩ := exists_name_of_isWord h
  refine legible_of_primary ?_ ⟨_, _, hs, rfl⟩
  rw [hs, ht]
  exact Grammar.reads_name cs

theorem legible_field (name : String) (position : Nat) (type : Schema.FieldType) :
    (Expr.field name position type).Legible :=
  legible_of_primary (Grammar.reads_column _) ⟨_, _, rfl, rfl⟩

theorem legible_subscript {base index : Expr} (hb : base.isWord = true) (hi : index.Legible) :
    (Expr.subscript base index).Legible := by
  obtain ⟨cs, hs, ht⟩ := exists_name_of_isWord hb
  have hsymbols : (Expr.subscript base index).symbols
      = .name cs :: .sign ['['] :: (index.symbols ++ [.sign [']']]) := by
    rw [symbols, hs]
    rfl
  refine legible_of_primary ?_ ⟨_, _, hsymbols, rfl⟩
  rw [hsymbols, tree, ht]
  exact hi.whole.subscript cs

theorem applied_of_isName (hf : isName f = true) (ts : List Tree) :
    Tree.applied f ts = .call f.toList ts := by
  have hminus : f ≠ "-" := by
    rintro rfl
    exact absurd hf (by decide)
  have hnot : f ≠ "!" := by
    rintro rfl
    exact absurd hf (by decide)
  unfold Tree.applied
  split
  · rw [if_neg hminus, if_neg hnot]
  · rfl

theorem legible_call (hf : isName f = true) (ih : ∀ a ∈ args, a.Legible) :
    (Expr.call f args).Legible := by
  have hsymbols : (Expr.call f args).symbols = .function f.toList :: .sign ['('] ::
      ([.sign [',']].intercalate (symbolsAll args) ++ [.sign [')']]) := by
    rw [symbols, headSymbol_of_isName hf]
  refine legible_of_primary ?_ ⟨_, _, hsymbols, rfl⟩
  rw [hsymbols, tree, applied_of_isName hf]
  cases args with
  | nil => exact Grammar.reads_call_nil f.toList
  | cons a args =>
    rw [symbolsAll_cons, treeAll_cons, intercalate_behind, append_assoc]
    refine Grammar.reads_call f.toList ?_ fun r => ((ih a mem_cons_self).opens r).2
    rw [← map_cons]
    exact forall_mem_map.2 fun x hx => (ih x hx).whole

/-- A sign takes the argument in parentheses behind it, and nothing else. -/
theorem legible_sign (hf : f ∈ ["-", "!"]) (ih : a.Legible) : (Expr.call f [a]).Legible := by
  have hgroup : Reads .unary (.sign ['('] :: (a.symbols ++ [.sign [')']])) a.tree :=
    ih.whole.group.unary ⟨_, _, rfl, rfl⟩
  have hargs : [Symbol.sign [',']].intercalate (symbolsAll [a]) = a.symbols :=
    intercalate_singleton
  simp only [mem_cons, not_mem_nil, or_false] at hf
  rcases hf with rfl | rfl
  · have hsymbols : (Expr.call "-" [a]).symbols
        = .sign ['-'] :: .sign ['('] :: (a.symbols ++ [.sign [')']]) := by
      rw [symbols, hargs]
      rfl
    refine ⟨?_, nofun, nofun, fun r => ?_⟩
    · rw [hsymbols]
      exact hgroup.signed (by decide)
    · rw [hsymbols]
      exact ⟨rfl, rfl⟩
  · have hsymbols : (Expr.call "!" [a]).symbols
        = .sign ['!'] :: .sign ['('] :: (a.symbols ++ [.sign [')']]) := by
      rw [symbols, hargs]
      rfl
    refine ⟨?_, nofun, fun _ r => ?_, fun r => ?_⟩
    · rw [hsymbols]
      exact hgroup.signed (by decide)
    · rw [hsymbols]
      rfl
    · rw [hsymbols]
      exact ⟨rfl, rfl⟩

/-! ### Operators -/

open Compile (Fits)

theorem fits_two {n : Nat} (h : Fits o n) (ho : o ∉ [.concat, .and, .or]) : n = 2 := by
  cases o with
  | concat | and | or => exact absurd ho (by decide)
  | juxtapose => cases h
  | _ => exact h

/-- Concatenation has no sign, a power takes its base from the tightest level, and all other
    operators stand between operands of the level below their own. -/
theorem op_cases {n : Nat} (h : Fits o n) :
    o = .concat ∨ (o = .pow ∧ n = 2) ∨ ∃ cs l, (cs, l, o) ∈ operators ∧ l.isChain = true ∧
      o.signs = [.sign cs] ∧ (l = .comparison → n = 2) := by
  have hentry : o ∈ [.concat, .juxtapose] ∨ ∃ q ∈ operators, q.2.2 = o := by cases o <;> decide
  have hkey : ∀ q ∈ operators, q.2.2.signs = [.sign q.1] ∧
      (q.2.2 = .pow ∨ q.2.1.isChain = true) ∧
      (q.2.1 = .comparison → q.2.2 ∉ [.concat, .and, .or]) := by decide
  rcases hentry with hentry | ⟨⟨cs, l, o⟩, hq, rfl⟩
  · simp only [mem_cons, not_mem_nil, or_false] at hentry
    rcases hentry with rfl | rfl
    · exact .inl rfl
    · cases h
  · obtain ⟨hsigns, hchain, hcomparison⟩ := hkey _ hq
    rcases hchain with hpow | hchain
    · cases hpow
      exact .inr (.inl ⟨rfl, h⟩)
    · exact .inr (.inr ⟨cs, l, hq, hchain, hsigns, fun hl => fits_two h (hcomparison hl)⟩)

/-- Operands between which a sign, or none, stands for the operator of a level. -/
theorem strung_operands {l : Level} {o : Op} {a : Expr} {args : List Expr}
    (hl : l.isChain = true) (ih : ∀ x ∈ a :: args, x.Legible)
    (hjoint : ∀ x ∈ args, ∀ r, joint? (o.signs ++ (x.symbols ++ r)) = some (l, o, x.symbols ++ r) ∧
      after? ['['] (o.signs ++ (x.symbols ++ r)) = none)
    (hsingle : l = .comparison → args.length ≤ 1) :
    Strung l o o.signs a.operand (args.map operand) where
  reads := by
    have hdepth := Level.depth_chain hl
    have hbelow := Level.depth_below (l := l) (by omega)
    rw [← map_cons]
    exact forall_mem_map.2 fun x hx => (ih x hx).level (by omega)
  joint := forall_mem_map.2 hjoint
  single hc := by
    rw [length_map]
    exact hsingle hc

/-- The operands of an operator, without the parentheses around them. -/
theorem reads_operands (hfit : Fits o args.length) (hargs : holdTogether o args = true)
    (ih : ∀ x ∈ args, x.Legible) :
    Reads .conditional (o.signs.intercalate (symbolsAll args)) (.joined o (treeAll args)) := by
  obtain ⟨a, args, rfl⟩ : ∃ a more, args = a :: more := by
    cases args with
    | nil => cases o <;> cases hfit
    | cons a more => exact ⟨a, more, rfl⟩
  have hstrung {l : Level} (hl : l.isChain = true)
      (h : Strung l o o.signs a.operand (args.map operand)) :
      Reads .conditional (o.signs.intercalate (symbolsAll (a :: args)))
        (.joined o (treeAll (a :: args))) := by
    have hdepth := Level.depth_chain hl
    rw [symbolsAll_cons, treeAll_cons, intercalate_behind]
    exact (h.all hl).climb (by omega) (Nat.zero_le _)
  rcases op_cases hfit with rfl | ⟨rfl, hlen⟩ | ⟨cs, l, hq, hl, hsigns, hsingle⟩
  · refine hstrung (l := .concat) rfl (strung_operands rfl ih (fun x hx r => ?_) nofun)
    have hminus : x.isMinus = false := by
      have := all_eq_true.1 hargs x hx
      simpa using this
    have hx := ih x (mem_cons_of_mem _ hx)
    exact ⟨hx.joins hminus r, (hx.opens r).1⟩
  · obtain ⟨b, rfl⟩ : ∃ b, args = [b] := length_eq_one_iff.1 (Nat.succ.inj hlen)
    have hsigned : a.isSigned = false := by simpa [holdTogether] using hargs
    obtain ⟨hbase, hstart⟩ := (ih a mem_cons_self).primary hsigned
    have hpower := hbase.raised hstart (ih b (by simp)).unary
    have hwhole := hpower.climb (l := .conditional) (Nat.le_refl 7) (Nat.zero_le _)
    rw [symbolsAll_cons, intercalate_behind, behind, map_singleton, flatMap_singleton]
    exact hwhole
  · refine hstrung hl (strung_operands hl ih (fun x _ r => ?_) fun hc => ?_)
    · obtain ⟨hjoint, hindex, -⟩ := Grammar.joint?_operator hq (x.symbols ++ r)
      rw [hsigns]
      exact ⟨hjoint, hindex⟩
    · have hlen := hsingle hc
      rw [length_cons] at hlen
      omega

/-- The symbols of an expression that lowering gives are read as its tree. -/
theorem Lowered.legible (h : Lowered C e) (hc : e.isClear = true) : e.Legible := by
  induction h with
  | const _ => exact legible_const hc
  | field => exact legible_field _ _ _
  | var _ | builtin _ | sideEffect _ | aggregate _ => exact legible_word rfl
  | call hf _ ih =>
    rw [isClear, allClear_iff] at hc
    exact legible_call hf fun a ha => ih a ha (hc a ha)
  | sign hf _ ih =>
    rw [isClear, allClear_iff, forall_mem_singleton] at hc
    exact legible_sign hf (ih hc)
  | subscript _ _ _ ihi =>
    simp only [isClear, Bool.and_eq_true] at hc
    exact legible_subscript hc.1.1 (ihi hc.2)
  | op hfit _ ih =>
    rw [isClear, Bool.and_eq_true, allClear_iff] at hc
    have hoperands := reads_operands hfit hc.1 fun a ha => ih a ha (hc.2 a ha)
    exact legible_of_primary hoperands.group ⟨_, _, rfl, rfl⟩
  | conditional _ _ _ iht ihy ihn =>
    simp only [isClear, Bool.and_eq_true] at hc
    have hchoice := ((iht hc.1.1).level (by decide)).choice (ihy hc.1.2).whole (ihn hc.2).whole
    exact legible_of_primary hchoice.group ⟨_, _, rfl, rfl⟩

/-- What is read from the symbols of an expression is read from its text. -/
theorem Lowered.parse_of_reads (hC : ∀ c, C c → c.Written) (h : Lowered C e) {t : Tree}
    (hr : Reads .conditional e.symbols t) :
    ∃ t', Grammar.parse e.text = some t' ∧ t'.ungrouped = t := by
  refine hr.parse ?_
  have htext := h.lex_text hC [] Token.apart_nil
  have hscan := h.scans hC [] rfl
  rw [append_nil, Token.lex_nil] at htext
  rw [htext, hscan]
  exact append_nil _

/-! ### What is read as something else -/

/-- A text with a minus behind it has the symbols of a difference. -/
theorem reads_joined_minus (ha : a.Legible) (hb : b.Legible) :
    Reads .conditional (Expr.op .concat [a, .call "-" [b]]).symbols
      (.binary .sub a.tree b.tree) := by
  have hsymbols : (Expr.op .concat [a, .call "-" [b]]).symbols
      = (Expr.op .sub [a, .op .concat [b]]).symbols := by
    simp [symbols, symbolsAll, Op.signs, headSymbol, List.intercalate,
      show isName "-" = false from by decide]
  have hone : (Expr.op .concat [b]).Legible := by
    have hreads : Reads .conditional (Op.concat.signs.intercalate (symbolsAll [b])) b.tree :=
      reads_operands (o := .concat) (Nat.le_refl 1) rfl (by simpa using hb)
    exact legible_of_primary hreads.group ⟨_, _, rfl, rfl⟩
  have hreads : Reads .conditional (Op.sub.signs.intercalate (symbolsAll [a, .op .concat [b]]))
      (.binary .sub a.tree b.tree) :=
    reads_operands (o := .sub) rfl rfl (by simpa using ⟨ha, hone⟩)
  rw [hsymbols]
  exact (hreads.group.unary ⟨_, _, rfl, rfl⟩).climb (Nat.le_refl 7) (by decide)

/-- A sign before the base of a power is the sign of the power. -/
theorem reads_raised_sign (ha : a.Legible) (hb : b.Legible) :
    Reads .conditional (Expr.op .pow [.call "-" [a], b]).symbols
      (.unary '-' (.binary .pow a.tree b.tree)) := by
  have hbase : Reads .primary (.sign ['('] :: (a.symbols ++ [.sign [')']])) a.tree :=
    ha.whole.group
  have hpower := (hbase.raised ⟨_, _, rfl, rfl⟩ hb.unary).signed (c := '-') (by decide)
  have hreads := (hpower.climb (l := .conditional) (Nat.le_refl 7) (Nat.zero_le _)).group
  have hsymbols : (Expr.op .pow [.call "-" [a], b]).symbols = .sign ['('] ::
      ((.sign ['-'] :: ((.sign ['('] :: (a.symbols ++ [.sign [')']])) ++
        .sign ['^'] :: b.symbols)) ++ [.sign [')']]) := by
    simp [symbols, symbolsAll, Op.signs, headSymbol, List.intercalate,
      show isName "-" = false from by decide]
  rw [hsymbols]
  exact (hreads.unary ⟨_, _, rfl, rfl⟩).climb (Nat.le_refl 7) (by decide)

/-- Whatever is joined with a minus behind it, and whatever power has a sign before its base, is
    read as something else. -/
theorem Lowered.misread (hC : ∀ c, C c → c.Written) (ha : Lowered C a) (hb : Lowered C b)
    (hca : a.isClear = true) (hcb : b.isClear = true) :
    (∃ t, Grammar.parse (Expr.op .concat [a, .call "-" [b]]).text = some t ∧
      t.ungrouped = .binary .sub a.tree b.tree) ∧
    ∃ t, Grammar.parse (Expr.op .pow [.call "-" [a], b]).text = some t ∧
      t.ungrouped = .unary '-' (.binary .pow a.tree b.tree) := by
  have hjoined : Lowered C (.op .concat [a, .call "-" [b]]) := by
    refine .op (Nat.le_succ 1) ?_
    simpa using ⟨ha, Lowered.sign (f := "-") (by decide) hb⟩
  have hraised : Lowered C (.op .pow [.call "-" [a], b]) := by
    refine .op rfl ?_
    simpa using ⟨Lowered.sign (f := "-") (by decide) ha, hb⟩
  exact ⟨hjoined.parse_of_reads hC (reads_joined_minus (ha.legible hca) (hb.legible hcb)),
    hraised.parse_of_reads hC (reads_raised_sign (ha.legible hca) (hb.legible hcb))⟩

end Expr

end RowAwk.Awk

namespace RowAwk.Compile

open Awk (Category Const Expr Grammar.parse)
open RowProgram (twoColumns)

/-- What awk reads in the text of a lowered expression is the tree that the expression stands for,
    whatever has been lowered before. Nothing may be joined with a minus behind it, no base of a
    power may have a sign, only names may have elements, and numbers have to be finite. -/
theorem clear_text_reads_back {source : String} {e : Syntax.Expr}
    (hp : Syntax.Expr.parse source = .ok e) {category : Option Category} {s s' : State} {x : Expr}
    (h : (Lowering.lower category e).run s = .ok (x, s')) (hc : x.isClear = true) :
    ∃ t, Grammar.parse x.text = some t ∧ t.ungrouped = x.tree := by
  have htrue : Tolerant Const.Written fun _ => True :=
    ⟨fun _ => trivial, fun _ _ _ => trivial, fun _ _ => trivial⟩
  have hclosed := closed_lowered htrue admits_spelt
  obtain ⟨-, -, hx⟩ := hclosed.lower
    (fun c _ => closedRows_lowered htrue htrue admits_spelt (fun _ => Iff.rfl) c) e
    (Syntax.wellFormed_parse hp) s trivial x s' h
  exact hx.parse_of_reads (fun _ hw => hw) (hx.legible hc).whole

theorem clear_text_reads_back_twoColumns :
    ∃ e x s t, Syntax.Expr.parse "-a ** 2 + b, not a < b and (a, (0 - b)), max(a - 1, b)" = .ok e ∧
      (Lowering.lower none e).run (.start twoColumns) = .ok (x, s) ∧ x.isClear = true ∧
      Grammar.parse x.text = some t ∧ t.ungrouped = x.tree := by
  obtain ⟨e, hp, ⟨x, s⟩, h, hc⟩ :
      ∃ e, Syntax.Expr.parse "-a ** 2 + b, not a < b and (a, (0 - b)), max(a - 1, b)" = .ok e ∧
        ∃ p, (Lowering.lower none e).run (.start twoColumns) = .ok p ∧ p.1.isClear = true := by
    decide +kernel
  obtain ⟨t, ht, hu⟩ := clear_text_reads_back hp h hc
  exact ⟨e, x, s, t, hp, h, hc, ht, hu⟩

/-- The first column, joined with the second one's opposite. -/
def isJoinedMinus : Expr → Bool
  | .op op [.field _ p _, .call f [.field _ q _]] => op = .concat ∧ p = 1 ∧ f = "-" ∧ q = 2
  | _ => false

/-- The text of `a` joined with `-b` is read as a difference. -/
theorem joined_minus_reads_as_difference :
    ∃ e x s t, Syntax.Expr.parse "(a, -b)" = .ok e ∧
      (Lowering.lower none e).run (.start twoColumns) = .ok (x, s) ∧ x.text = "($1  -($2))" ∧
      x.tree = .binary .concat (.column (.number ['1'])) (.unary '-' (.column (.number ['2']))) ∧
      Grammar.parse x.text = some t ∧
      t.ungrouped = .binary .sub (.column (.number ['1'])) (.column (.number ['2'])) := by
  obtain ⟨e, hp, ⟨x, s⟩, h, hx⟩ : ∃ e, Syntax.Expr.parse "(a, -b)" = .ok e ∧
      ∃ p, (Lowering.lower none e).run (.start twoColumns) = .ok p ∧ isJoinedMinus p.1 = true := by
    decide +kernel
  delta isJoinedMinus at hx
  dsimp only at hx
  split at hx
  · rename_i a p τ f b q υ
    obtain ⟨rfl, rfl, rfl, rfl⟩ := of_decide_eq_true hx
    obtain ⟨⟨t, ht, hu⟩, -⟩ := Expr.Lowered.misread (C := Const.Written) (a := .field a 1 τ)
      (b := .field b 2 υ) (fun _ hw => hw) .field .field rfl rfl
    exact ⟨e, _, s, t, hp, h, by rfl, by rfl, ht, hu⟩
  · cases hx

end RowAwk.Compile
