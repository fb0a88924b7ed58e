import RowAwk.Syntax.Cursor
import RowAwk.Syntax.Expr

/-!
The grammar of row expressions, read by recursive descent with a cursor.

Loosest first, the levels are

    conditional, or, and, not, comparison, |, &, << >>, + -, * / // %, unary - ~, **, call/subscript

Each rule takes a cursor and returns a `Read`: the tree it has read and the cursor after it, with
the fact that fewer lexemes are left. A rule that may read nothing at all is bounded by one more
than it was given. The rules call each other on what is left or one level further down, so
`32 * (lexemes left) + level` falls with each call and no rule can loop.
-/

namespace RowAwk.Syntax

namespace Grammar

/-- Whether an expression can start at a cursor. -/
def startsExpr (c : Cursor) : Bool :=
  match c.peek with
  | some (.name _) | some (.literal _) | some (.symbol .openParen) | some (.symbol .openBracket)
  | some (.symbol .minus) | some (.symbol .tilde) | some (.keyword .not) => true
  | _ => false

/-- The comparison that one token is. -/
def compareSign? : Token → Option CompareOp
  | .symbol .equal => some .equal
  | .symbol .notEqual => some .notEqual
  | .symbol .less => some .less
  | .symbol .lessEqual => some .lessEqual
  | .symbol .greater => some .greater
  | .symbol .greaterEqual => some .greaterEqual
  | .keyword .in => some .isIn
  | _ => none

/-- The comparison at a cursor; `not in` takes two tokens. -/
def compareOp? (c : Cursor) : Option (Read CompareOp c.left) := do
  let head ← c.next
  match compareSign? head.value.token with
  | some op => return head.map fun _ => op
  | none =>
    if head.value.token = .keyword .not ∧ c.peekNth 1 = some (.keyword .in) then
      let second ← head.rest.next
      return ⟨.notIn, second.rest, Nat.lt_trans second.fewer head.fewer⟩
    else none

/-- A name with an assignment sign after it. -/
def target? (c : Cursor) : Option (Read Name c.left) := do
  let head ← c.next
  match head.value.token, c.peekNth 1 with
  | .name n, some (.symbol .assign) =>
    let sign ← head.rest.next
    return ⟨⟨n, head.value.span⟩, sign.rest, Nat.lt_trans sign.fewer head.fewer⟩
  | _, _ => none

/-- The levels of binary operators that associate to the left. -/
inductive Level where
  | bitOr | bitAnd | shift | sum | term
deriving DecidableEq, Repr

namespace Level

/-- The level of the operands. -/
def tighter? : Level → Option Level
  | .bitOr => some .bitAnd
  | .bitAnd => some .shift
  | .shift => some .sum
  | .sum => some .term
  | .term => none

/-- How many levels bind tighter. -/
def rank : Level → Nat
  | .bitOr => 4
  | .bitAnd => 3
  | .shift => 2
  | .sum => 1
  | .term => 0

/-- The operator that a token is at a level. -/
def op? : Level → Token → Option BinaryOp
  | .bitOr, .symbol .pipe => some .bitOr
  | .bitAnd, .symbol .ampersand => some .bitAnd
  | .shift, .symbol .shiftLeft => some .shiftLeft
  | .shift, .symbol .shiftRight => some .shiftRight
  | .sum, .symbol .plus => some .add
  | .sum, .symbol .minus => some .sub
  | .term, .symbol .star => some .mul
  | .term, .symbol .slash => some .div
  | .term, .symbol .doubleSlash => some .floorDiv
  | .term, .symbol .percent => some .mod
  | _, _ => none

theorem rank_tighter? {l m : Level} (h : l.tighter? = some m) : m.rank < l.rank := by
  cases l <;> simp_all [tighter?, rank] <;> subst h <;> simp

theorem rank_le (l : Level) : l.rank ≤ 4 := by
  cases l <;> simp [rank]

end Level

/-- The keyword between the operands of a chain. -/
def chainWord : BoolOp → Keyword
  | .and => .and
  | .or => .or

/-- The place of a chain among the levels. -/
def chainRank : BoolOp → Nat
  | .and => 14
  | .or => 15

/-- The stretch from a first expression to the last of more. -/
def coverAll (first : Expr) (more : List Expr) : Span :=
  more.foldl (fun span e => span.cover e.span) first.span

/-- A unary operation whose operator stands at `span`. -/
def unary (span : Span) (op : UnaryOp) (operand : Expr) : Expr :=
  .unary (span.cover operand.span) op operand

def binary (op : BinaryOp) (lhs rhs : Expr) : Expr :=
  .binary (lhs.span.cover rhs.span) op lhs rhs

/-- The arguments of a call: positional ones, then those by name. -/
structure Arguments where
  positional : List Expr
  keywords : List (KeywordArg Expr)

mutual

/-- One expression, or several with commas between them as a tuple; a comma may also end it. -/
def tuple (c : Cursor) : Except SyntaxError (Read Expr c.left) := do
  let head ← expr c
  have hh := head.fewer
  if head.rest.peek = some (.symbol .comma) then
    let more ← tupleTail head.rest
    return ⟨.tuple (coverAll head.value more.value) (head.value :: more.value), more.rest, by
      have := more.fewer; omega⟩
  else return head
termination_by 32 * c.left + 17
decreasing_by all_goals omega

/-- The further items of a tuple, each after a comma. -/
def tupleTail (c : Cursor) : Except SyntaxError (Read (List Expr) (c.left + 1)) :=
  match c.eat (.symbol .comma) with
  | some sign =>
    have hs := sign.fewer
    if startsExpr sign.rest then do
      let item ← expr sign.rest
      have hi := item.fewer
      let more ← tupleTail item.rest
      return ⟨item.value :: more.value, more.rest, by have := more.fewer; omega⟩
    else .ok ⟨[], sign.rest, by omega⟩
  | none => .ok ⟨[], c, by omega⟩
termination_by 32 * c.left
decreasing_by all_goals omega

/-- A chain of `or`, or a choice between two expressions by a test. -/
def expr (c : Cursor) : Except SyntaxError (Read Expr c.left) := do
  let yes ← chain .or c
  have hy := yes.fewer
  match yes.rest.eat (.keyword .if) with
  | some mark =>
    have hm := mark.fewer
    let test ← chain .or mark.rest
    have ht := test.fewer
    let other ← test.rest.expect (.keyword .else) .elseBranch
    have ho := other.fewer
    let no ← expr other.rest
    return ⟨.conditional (yes.value.span.cover no.value.span) test.value yes.value no.value,
      no.rest, by have := no.fewer; omega⟩
  | none => return yes
termination_by 32 * c.left + 16
decreasing_by all_goals (try simp only [chainRank]); omega

/-- Operands with `or`, or with `and`, between them. -/
def chain (op : BoolOp) (c : Cursor) : Except SyntaxError (Read Expr c.left) := do
  let head ← (match op with
    | .or => chain .and c
    | .and => negation c)
  have hh := head.fewer
  let more ← chainTail op head.rest
  return ⟨match more.value with
    | [] => head.value
    | es => .boolean (coverAll head.value es) op (head.value :: es), more.rest, by
      have := more.fewer; omega⟩
termination_by 32 * c.left + chainRank op
decreasing_by all_goals (try simp only [chainRank]); omega

/-- The further operands of a chain, each after its keyword. -/
def chainTail (op : BoolOp) (c : Cursor) : Except SyntaxError (Read (List Expr) (c.left + 1)) :=
  match c.eat (.keyword (chainWord op)) with
  | some word => do
    have hw := word.fewer
    let item ← (match op with
      | .or => chain .and word.rest
      | .and => negation word.rest)
    have hi := item.fewer
    let more ← chainTail op item.rest
    return ⟨item.value :: more.value, more.rest, by have := more.fewer; omega⟩
  | none => .ok ⟨[], c, by omega⟩
termination_by 32 * c.left
decreasing_by all_goals (try simp only [chainRank]); omega

/-- A comparison, with any number of `not` in front of it. -/
def negation (c : Cursor) : Except SyntaxError (Read Expr c.left) :=
  match c.eat (.keyword .not) with
  | some word => do
    have hw := word.fewer
    let operand ← negation word.rest
    return ⟨unary word.value .not operand.value, operand.rest, by have := operand.fewer; omega⟩
  | none => comparison c
termination_by 32 * c.left + 13
decreasing_by all_goals omega

/-- At most one comparison between two operands. -/
def comparison (c : Cursor) : Except SyntaxError (Read Expr c.left) := do
  let lhs ← level .bitOr c
  have hl := lhs.fewer
  match compareOp? lhs.rest with
  | none => return lhs
  | some op =>
    have ho := op.fewer
    let rhs ← level .bitOr op.rest
    match compareOp? rhs.rest with
    | some _ => .error (.unsupported .chainedComparison rhs.rest.location)
    | none =>
      return ⟨.compare (lhs.value.span.cover rhs.value.span) op.value lhs.value rhs.value,
        rhs.rest, by have := rhs.fewer; omega⟩
termination_by 32 * c.left + 12
decreasing_by all_goals (try simp only [Level.rank]); omega

/-- Operands with operators of one level between them, grouped to the left. -/
def level (l : Level) (c : Cursor) : Except SyntaxError (Read Expr c.left) := do
  let head ← (match h : l.tighter? with
    | some m =>
      have hm := Level.rank_tighter? h
      level m c
    | none => factor c)
  have hh := head.fewer
  let more ← levelTail l head.value head.rest
  return more.weaken (by omega)
termination_by 32 * c.left + 7 + l.rank
decreasing_by all_goals omega

/-- The operators and operands of a level after a left operand. -/
def levelTail (l : Level) (lhs : Expr) (c : Cursor) :
    Except SyntaxError (Read Expr (c.left + 1)) :=
  match c.next with
  | none => .ok ⟨lhs, c, by omega⟩
  | some head =>
    have hh := head.fewer
    match l.op? head.value.token with
    | none => .ok ⟨lhs, c, by omega⟩
    | some op => do
      let rhs ← (match h : l.tighter? with
        | some m =>
          have hm := Level.rank_tighter? h
          level m head.rest
        | none => factor head.rest)
      have hr := rhs.fewer
      let more ← levelTail l (binary op lhs rhs.value) rhs.rest
      return more.weaken (by omega)
termination_by 32 * c.left
decreasing_by all_goals (try have := l.rank_le); omega

/-- A power, with any number of `-` and `~` in front of it. -/
def factor (c : Cursor) : Except SyntaxError (Read Expr c.left) :=
  match c.eat (.symbol .minus) with
  | some sign => do
    have hs := sign.fewer
    let operand ← factor sign.rest
    return ⟨unary sign.value .negate operand.value, operand.rest, by
      have := operand.fewer; omega⟩
  | none =>
    match c.eat (.symbol .tilde) with
    | some sign => do
      have hs := sign.fewer
      let operand ← factor sign.rest
      return ⟨unary sign.value .complement operand.value, operand.rest, by
        have := operand.fewer; omega⟩
    | none => power c
termination_by 32 * c.left + 6
decreasing_by all_goals omega

/-- A base, raised to a factor if `**` follows. -/
def power (c : Cursor) : Except SyntaxError (Read Expr c.left) := do
  let base ← primary c
  have hb := base.fewer
  match base.rest.eat (.symbol .doubleStar) with
  | some sign =>
    have hs := sign.fewer
    let exponent ← factor sign.rest
    return ⟨binary .pow base.value exponent.value, exponent.rest, by
      have := exponent.fewer; omega⟩
  | none => return base
termination_by 32 * c.left + 5
decreasing_by all_goals omega

/-- An atom with the calls and subscripts applied to it. -/
def primary (c : Cursor) : Except SyntaxError (Read Expr c.left) := do
  let base ← atom c
  have hb := base.fewer
  let whole ← primaryTail base.value base.rest
  return whole.weaken (by omega)
termination_by 32 * c.left + 4
decreasing_by all_goals omega

/-- The calls and subscripts after an expression. Only a name can be called. -/
def primaryTail (base : Expr) (c : Cursor) : Except SyntaxError (Read Expr (c.left + 1)) :=
  match c.eat (.symbol .openParen) with
  | some left =>
    have hl := left.fewer
    match base.callee? with
    | some callee => do
      let args ← arguments false left.rest
      have ha := args.fewer
      let close ← args.rest.expect (.symbol .closeParen) .closeParen
      have hc := close.fewer
      let call := .call (callee.span.cover close.value) callee args.value.positional
        args.value.keywords
      let whole ← primaryTail call close.rest
      return whole.weaken (by omega)
    | none => .error (.unsupported .computedCallee left.value)
  | none =>
    match c.eat (.symbol .openBracket) with
    | some left => do
      have hl := left.fewer
      let index ← tuple left.rest
      have hi := index.fewer
      let close ← index.rest.expect (.symbol .closeBracket) .closeBracket
      have hc := close.fewer
      let element := .subscript (base.span.cover close.value) base index.value
      let whole ← primaryTail element close.rest
      return whole.weaken (by omega)
    | none => .ok ⟨base, c, by omega⟩
termination_by 32 * c.left
decreasing_by all_goals omega

/-- The arguments of a call up to its closing parenthesis, of which `named` says whether one by
    name has come already. -/
def arguments (named : Bool) (c : Cursor) : Except SyntaxError (Read Arguments (c.left + 1)) :=
  match c.peek with
  | some (.symbol .closeParen) => .ok ⟨⟨[], []⟩, c, by omega⟩
  | some (.symbol .star) | some (.symbol .doubleStar) =>
    .error (.unsupported .starArgument c.location)
  | _ =>
    match target? c with
    | some name => do
      have hn := name.fewer
      let value ← expr name.rest
      have hv := value.fewer
      let more ← argumentsTail true value.rest
      return ⟨⟨more.value.positional, ⟨name.value, value.value⟩ :: more.value.keywords⟩,
        more.rest, by have := more.fewer; omega⟩
    | none =>
      if named then .error (.unsupported .lateArgument c.location)
      else do
        let value ← expr c
        have hv := value.fewer
        let more ← argumentsTail false value.rest
        return ⟨⟨value.value :: more.value.positional, more.value.keywords⟩, more.rest, by
          have := more.fewer; omega⟩
termination_by 32 * c.left + 18
decreasing_by all_goals omega

/-- The arguments after one, if a comma follows it. -/
def argumentsTail (named : Bool) (c : Cursor) :
    Except SyntaxError (Read Arguments (c.left + 1)) :=
  match c.eat (.symbol .comma) with
  | some sign => do
    have hs := sign.fewer
    let more ← arguments named sign.rest
    return more.weaken (by omega)
  | none => .ok ⟨⟨[], []⟩, c, by omega⟩
termination_by 32 * c.left
decreasing_by all_goals omega

/-- The items of a list up to its closing bracket. -/
def items (c : Cursor) : Except SyntaxError (Read (List Expr) (c.left + 1)) :=
  if c.peek = some (.symbol .closeBracket) then .ok ⟨[], c, by omega⟩
  else do
    let item ← expr c
    have hi := item.fewer
    match item.rest.eat (.symbol .comma) with
    | some sign =>
      have hs := sign.fewer
      let more ← items sign.rest
      return ⟨item.value :: more.value, more.rest, by have := more.fewer; omega⟩
    | none => return ⟨[item.value], item.rest, by omega⟩
termination_by 32 * c.left + 18
decreasing_by all_goals omega

/-- A name, a literal, or an expression in brackets. Parentheses leave no trace in the tree. -/
def atom (c : Cursor) : Except SyntaxError (Read Expr c.left) :=
  match c.next with
  | none => .error (c.unexpected .expression)
  | some head =>
    have hh := head.fewer
    match head.value.token with
    | .name n => .ok (head.map fun l => .name l.span n)
    | .literal value => .ok (head.map fun l => .literal l.span value)
    | .symbol .openParen =>
      match head.rest.eat (.symbol .closeParen) with
      | some close =>
        .ok ⟨.tuple (head.value.span.cover close.value) [], close.rest,
          Nat.lt_trans close.fewer hh⟩
      | none => do
        let inner ← tuple head.rest
        have hi := inner.fewer
        let close ← inner.rest.expect (.symbol .closeParen) .closeParen
        return ⟨inner.value, close.rest, by have := close.fewer; omega⟩
    | .symbol .openBracket => do
      let inner ← items head.rest
      have hi := inner.fewer
      let close ← inner.rest.expect (.symbol .closeBracket) .closeBracket
      return ⟨.list (head.value.span.cover close.value) inner.value, close.rest, by
        have := close.fewer; omega⟩
    | token => .error (.unexpected token head.value.span .expression)
termination_by 32 * c.left + 3
decreasing_by all_goals omega

end

/-- Whether a token ends a statement. -/
def isSeparator : Token → Bool
  | .symbol .semicolon | .newline => true
  | _ => false

/-- Takes the next lexeme if it ends a statement. -/
def separator? (c : Cursor) : Option (Read Lexeme c.left) :=
  c.next.filter fun sign => isSeparator sign.value.token

/-- Refuses a statement that an assignment sign follows: its target was no single name. -/
def closed {bound : Nat} (whole : Read Stmt bound) :
    Except SyntaxError (Read Stmt bound) :=
  match whole.rest.eat (.symbol .assign) with
  | some sign => .error (.unsupported .compoundTarget sign.value)
  | none => .ok whole

/-- One statement. -/
def statement (c : Cursor) : Except SyntaxError (Read Stmt c.left) :=
  match target? c with
  | some name => do
    let value ← tuple name.rest
    closed ⟨.assign name.value value.value, value.rest, Nat.lt_trans value.fewer name.fewer⟩
  | none => do
    let value ← tuple c
    closed (value.map .value)

/-- Statements with separators between them, and any number of separators around them. -/
def statements (c : Cursor) : Except SyntaxError (List Stmt) :=
  match separator? c with
  | some sign => statements sign.rest
  | none =>
    if c.peek = none then .ok []
    else do
      let head ← statement c
      match separator? head.rest with
      | some sign =>
        let more ← statements sign.rest
        return head.value :: more
      | none =>
        if head.rest.peek = none then return [head.value]
        else .error (head.rest.unexpected .separator)
termination_by c.left
decreasing_by
  · exact sign.fewer
  · exact Nat.lt_trans sign.fewer head.fewer

end Grammar

/-- The expression that a whole source text is. -/
def Expr.parse (source : String) : Except SyntaxError Expr := do
  let c ← Cursor.start source
  let whole ← Grammar.tuple c
  if whole.rest.peek = none then return whole.value
  else .error (whole.rest.unexpected .endOfExpression)

/-- The statements of a source text. -/
def Stmt.parseAll (source : String) : Except SyntaxError (List Stmt) := do
  let c ← Cursor.start source
  Grammar.statements c

end RowAwk.Syntax
