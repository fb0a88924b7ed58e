import RowAwk.Syntax.Grammar

/-!
The grammar of row expressions as a relation between tokens and trees.

    program     sep* (statement (sep+ statement)*)? sep*
    statement   (NAME '=')? tuple
    tuple       expr (',' expr)* ','?
    expr        or ('if' or 'else' expr)?
    or, and     operands with the keyword between them, as one node
    not         'not' not | comparison
    comparison  bit_or (compare bit_or)?
    levels      | & (<< >>) (+ -) (* / // %), grouped to the left
    factor      ('-' | '~') factor | power
    power       primary ('**' factor)?
    primary     atom | NAME '(' arguments ')' | primary '[' tuple ']'
    atom        NAME | LITERAL | '(' ')' | '(' tuple ')' | '[' items ']'

`Derives` states these rules with no reader in mind: a sequence of tokens is cut into parts, each
part is derived by its rule, and the tree is put together. Trees have no places here.
-/

namespace RowAwk.Syntax

/-! ### Trees without places -/

/-- A place that says nothing. -/
def Span.nowhere : Span := ⟨0, 0⟩

namespace Expr

mutual

/-- The tree without the places of its nodes. -/
def unplaced : Expr → Expr
  | .literal _ value => .literal .nowhere value
  | .name _ n => .name .nowhere n
  | .tuple _ items => .tuple .nowhere (unplacedAll items)
  | .list _ items => .list .nowhere (unplacedAll items)
  | .call _ function args keywords =>
    .call .nowhere ⟨function.text, .nowhere⟩ (unplacedAll args) (unplacedKeywords keywords)
  | .subscript _ base index => .subscript .nowhere (unplaced base) (unplaced index)
  | .unary _ op operand => .unary .nowhere op (unplaced operand)
  | .binary _ op lhs rhs => .binary .nowhere op (unplaced lhs) (unplaced rhs)
  | .boolean _ op operands => .boolean .nowhere op (unplacedAll operands)
  | .compare _ op lhs rhs => .compare .nowhere op (unplaced lhs) (unplaced rhs)
  | .conditional _ test yes no =>
    .conditional .nowhere (unplaced test) (unplaced yes) (unplaced no)

def unplacedAll : List Expr → List Expr
  | [] => []
  | e :: es => unplaced e :: unplacedAll es

def unplacedKeywords : List (KeywordArg Expr) → List (KeywordArg Expr)
  | [] => []
  | ⟨n, e⟩ :: rest => ⟨⟨n.text, .nowhere⟩, unplaced e⟩ :: unplacedKeywords rest

end

end Expr

/-- The statement without places. -/
def Stmt.unplaced : Stmt → Stmt
  | .assign target e => .assign ⟨target.text, .nowhere⟩ e.unplaced
  | .value e => .value e.unplaced

/-! ### The rules -/

/-- The rules whose trees are expressions. -/
inductive Rule where
  | tuple | expr | chain (op : BoolOp) | negation | comparison | level (l : Grammar.Level)
  | factor | power | primary | atom
deriving DecidableEq

/-- The rule for the operands of a chain. -/
def chainOperand : BoolOp → Rule
  | .or => .chain .and
  | .and => .negation

/-- The rule for the operands of a level. -/
def levelOperand (l : Grammar.Level) : Rule :=
  match l.tighter? with
  | some m => .level m
  | none => .factor

/-- The tokens that write a comparison. -/
def CompareOp.tokens : CompareOp → List Token
  | .equal => [.symbol .equal]
  | .notEqual => [.symbol .notEqual]
  | .less => [.symbol .less]
  | .lessEqual => [.symbol .lessEqual]
  | .greater => [.symbol .greater]
  | .greaterEqual => [.symbol .greaterEqual]
  | .isIn => [.keyword .in]
  | .notIn => [.keyword .not, .keyword .in]

/-- The sign before a factor. -/
def sign? : Token → Option UnaryOp
  | .symbol .minus => some .negate
  | .symbol .tilde => some .complement
  | _ => none

def comma : Token := .symbol .comma

/-- Some tokens and the tree they are derived to. -/
abbrev Part := List Token × Expr

/-- An argument by name: the name, and the part that is its value. -/
abbrev NamedPart := String × Part

/-- Items with commas between them; one more comma may follow the last. -/
inductive Listed : List (List Token) → List Token → Prop
  | none : Listed [] []
  | last {ts} : Listed [ts] ts
  | more {ts items rest} : Listed items rest → Listed (ts :: items) (ts ++ comma :: rest)

/-- The tokens of parts that each have a keyword in front. -/
def linked (word : Keyword) (parts : List Part) : List Token :=
  parts.flatMap fun p => .keyword word :: p.1

/-- The arguments of a call: positional ones, then those by name. -/
def argumentTokens (args : List Part) (named : List NamedPart) : List (List Token) :=
  args.map Prod.fst ++ named.map fun k => .name k.1 :: .symbol .assign :: k.2.1

/-- An argument by name, without places. -/
def NamedPart.keyword (k : NamedPart) : KeywordArg Expr := ⟨⟨k.1, .nowhere⟩, k.2.2⟩

/-- A rule derives tokens to a tree. -/
inductive Derives : Rule → List Token → Expr → Prop
  | item {ts e} : Derives .expr ts e → Derives .tuple ts e
  | tuple {ts e rest} {parts : List Part} : Derives .expr ts e →
      (∀ p ∈ parts, Derives .expr p.1 p.2) → Listed (parts.map Prod.fst) rest →
      Derives .tuple (ts ++ comma :: rest) (.tuple .nowhere (e :: parts.map Prod.snd))
  | unconditional {ts e} : Derives (.chain .or) ts e → Derives .expr ts e
  | conditional {ys cs ns yes test no} : Derives (.chain .or) ys yes →
      Derives (.chain .or) cs test → Derives .expr ns no →
      Derives .expr (ys ++ .keyword .if :: (cs ++ .keyword .else :: ns))
        (.conditional .nowhere test yes no)
  | link {op ts e} : Derives (chainOperand op) ts e → Derives (.chain op) ts e
  | chain {op ts e} {parts : List Part} : Derives (chainOperand op) ts e →
      (∀ p ∈ parts, Derives (chainOperand op) p.1 p.2) → parts ≠ [] →
      Derives (.chain op) (ts ++ linked (Grammar.chainWord op) parts)
        (.boolean .nowhere op (e :: parts.map Prod.snd))
  | positive {ts e} : Derives .comparison ts e → Derives .negation ts e
  | not {ts e} : Derives .negation ts e →
      Derives .negation (.keyword .not :: ts) (.unary .nowhere .not e)
  | uncompared {ts e} : Derives (.level .bitOr) ts e → Derives .comparison ts e
  | compare {op ls rs lhs rhs} : Derives (.level .bitOr) ls lhs →
      Derives (.level .bitOr) rs rhs →
      Derives .comparison (ls ++ (op.tokens ++ rs)) (.compare .nowhere op lhs rhs)
  | operand {l ts e} : Derives (levelOperand l) ts e → Derives (.level l) ts e
  | binary {l t op ls rs lhs rhs} : l.op? t = some op → Derives (.level l) ls lhs →
      Derives (levelOperand l) rs rhs →
      Derives (.level l) (ls ++ t :: rs) (.binary .nowhere op lhs rhs)
  | unsigned {ts e} : Derives .power ts e → Derives .factor ts e
  | sign {t op ts e} : sign? t = some op → Derives .factor ts e →
      Derives .factor (t :: ts) (.unary .nowhere op e)
  | base {ts e} : Derives .primary ts e → Derives .power ts e
  | power {bs es base exponent} : Derives .primary bs base → Derives .factor es exponent →
      Derives .power (bs ++ .symbol .doubleStar :: es) (.binary .nowhere .pow base exponent)
  | bare {ts e} : Derives .atom ts e → Derives .primary ts e
  | call {fs f ts} {args : List Part} {named : List NamedPart} :
      Derives .primary fs (.name .nowhere f) → (∀ p ∈ args, Derives .expr p.1 p.2) →
      (∀ k ∈ named, Derives .expr k.2.1 k.2.2) → Listed (argumentTokens args named) ts →
      Derives .primary (fs ++ .symbol .openParen :: (ts ++ [.symbol .closeParen]))
        (.call .nowhere ⟨f, .nowhere⟩ (args.map Prod.snd) (named.map NamedPart.keyword))
  | subscript {bs is base index} : Derives .primary bs base → Derives .tuple is index →
      Derives .primary (bs ++ .symbol .openBracket :: (is ++ [.symbol .closeBracket]))
        (.subscript .nowhere base index)
  | name (n : String) : Derives .atom [.name n] (.name .nowhere n)
  | literal (v : Literal) : Derives .atom [.literal v] (.literal .nowhere v)
  | empty : Derives .atom [.symbol .openParen, .symbol .closeParen] (.tuple .nowhere [])
  | group {ts e} : Derives .tuple ts e →
      Derives .atom (.symbol .openParen :: (ts ++ [.symbol .closeParen])) e
  | list {ts} {parts : List Part} : (∀ p ∈ parts, Derives .expr p.1 p.2) →
      Listed (parts.map Prod.fst) ts →
      Derives .atom (.symbol .openBracket :: (ts ++ [.symbol .closeBracket]))
        (.list .nowhere (parts.map Prod.snd))

/-- A statement, as its tokens are derived. -/
inductive DerivesStmt : List Token → Stmt → Prop
  | value {ts e} : Derives .tuple ts e → DerivesStmt ts (.value e)
  | assign {n ts e} : Derives .tuple ts e →
      DerivesStmt (.name n :: .symbol .assign :: ts) (.assign ⟨n, .nowhere⟩ e)

/-- Tokens that all end statements. -/
def Separators (ts : List Token) : Prop := ∀ t ∈ ts, Grammar.isSeparator t = true

/-- A statement with the separators in front of it. -/
structure Separated where
  before : List Token
  tokens : List Token
  stmt : Stmt

/-- The tokens of a source that the rules are about: without the line breaks that brackets enclose,
    where `depth` brackets are open in front of them. -/
def unbroken : Nat → List Token → List Token
  | _, [] => []
  | 0, .newline :: ts => .newline :: unbroken 0 ts
  | depth + 1, .newline :: ts => unbroken (depth + 1) ts
  | depth, .symbol .openParen :: ts => .symbol .openParen :: unbroken (depth + 1) ts
  | depth, .symbol .openBracket :: ts => .symbol .openBracket :: unbroken (depth + 1) ts
  | depth, .symbol .closeParen :: ts => .symbol .closeParen :: unbroken (depth - 1) ts
  | depth, .symbol .closeBracket :: ts => .symbol .closeBracket :: unbroken (depth - 1) ts
  | depth, t :: ts => t :: unbroken depth ts

/-- A program, as its tokens are derived. -/
inductive DerivesProgram : List Token → List Stmt → Prop
  | blank {seps} : Separators seps → DerivesProgram seps []
  | statements {lead head stmt trail} {more : List Separated} : Separators lead →
      DerivesStmt head stmt →
      (∀ m ∈ more, Separators m.before ∧ m.before ≠ [] ∧ DerivesStmt m.tokens m.stmt) →
      Separators trail →
      DerivesProgram (lead ++ (head ++ ((more.flatMap fun m => m.before ++ m.tokens) ++ trail)))
        (stmt :: more.map Separated.stmt)

/-! ### Putting programs together -/

variable {ts : List Token} {stmts : List Stmt} {stmt : Stmt}

theorem DerivesProgram.separator {t : Token} (ht : Grammar.isSeparator t = true)
    (h : DerivesProgram ts stmts) : DerivesProgram (t :: ts) stmts := by
  cases h with
  | blank hs => exact .blank (List.forall_mem_cons.2 ⟨ht, hs⟩)
  | statements hl hh hm htrail =>
    exact .statements (List.forall_mem_cons.2 ⟨ht, hl⟩) hh hm htrail

theorem DerivesProgram.single (h : DerivesStmt ts stmt) : DerivesProgram ts [stmt] := by
  have hp := DerivesProgram.statements (List.forall_mem_nil _) h (List.forall_mem_nil _)
    (List.forall_mem_nil _)
  simpa using hp

theorem DerivesProgram.cons {t : Token} {us : List Token} (hs : DerivesStmt ts stmt)
    (ht : Grammar.isSeparator t = true) (h : DerivesProgram us stmts) :
    DerivesProgram (ts ++ t :: us) (stmt :: stmts) := by
  cases h with
  | blank hseps =>
    exact .statements (List.forall_mem_nil _) hs (List.forall_mem_nil _)
      (List.forall_mem_cons.2 ⟨ht, hseps⟩)
  | statements hl hh hm htrail =>
    rename_i lead head next trail more
    have hlead : Separators (t :: lead) := List.forall_mem_cons.2 ⟨ht, hl⟩
    have hmore : ∀ m ∈ (⟨t :: lead, head, next⟩ : Separated) :: more,
        Separators m.before ∧ m.before ≠ [] ∧ DerivesStmt m.tokens m.stmt :=
      List.forall_mem_cons.2 ⟨⟨hlead, List.cons_ne_nil t lead, hh⟩, hm⟩
    have hp := DerivesProgram.statements (List.forall_mem_nil _) hs hmore htrail
    simpa [List.append_assoc] using hp

end RowAwk.Syntax
