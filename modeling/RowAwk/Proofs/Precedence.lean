import RowAwk.Proofs.Tokens

/-!
How awk reads expressions.

Blanks only part symbols, except that a name is called by a parenthesis directly behind it. Each
level of the grammar takes operands of the next one, from the loosest to the tightest:

    ? :     ||     &&     == != < <= > >=     juxtaposition     + -     * / %     ! + -     ^

Comparisons do not associate, a power takes what follows it to the right, signs included, and all
other operators group to the left. Two operands side by side are joined, unless the second one
starts with `+` or `-`: then there is a sum.

    a  b        joins a and b              -a ^ 2      the sign of a power
    a  -b       is a difference            2 ^ -a      a power with a sign

`Reads` says what is read at a level from some symbols with more behind them, up to parentheses.
One lemma for each rule of the grammar builds it up.
-/

open List

namespace RowAwk.Awk

open Option (bind_eq_bind bind_some)

/-! ### Symbols -/

/-- The symbols of awk. A name with a parenthesis directly behind it is that of a function. -/
inductive Symbol where
  | name (cs : List Char)
  | function (cs : List Char)
  | number (cs : List Char)
  | string (cs : List Char)
  | sign (cs : List Char)
deriving DecidableEq

namespace Symbol

/-- Whether two marks make one sign. -/
def isDouble (c d : Char) : Bool :=
  [['&', '&'], ['|', '|'], ['=', '='], ['!', '='], ['>', '='], ['<', '='], ['+', '+'],
    ['-', '-']].contains [c, d]

/-- Whether a parenthesis opens at the head of some tokens. -/
def opens : List Token → Bool
  | .mark c :: _ => c == '('
  | _ => false

/-- The symbol of a word. -/
def ofWord (cs : List Char) (called : Bool) : Symbol :=
  if cs.head?.any Char.isDigit then .number cs
  else if called then .function cs
  else .name cs

/-- Puts a mark before some symbols, if it is not blank. -/
def consMark (c : Char) (ss : List Symbol) : List Symbol :=
  if c = ' ' then ss else .sign [c] :: ss

/-- The symbols that some tokens make. -/
def scan : List Token → List Symbol
  | [] => []
  | .string cs :: ts => .string cs :: scan ts
  | .word cs :: ts => ofWord cs (opens ts) :: scan ts
  | .mark c :: .mark d :: ts =>
    if isDouble c d then .sign [c, d] :: scan ts else consMark c (scan (.mark d :: ts))
  | .mark c :: ts => consMark c (scan ts)

/-- Whether a symbol can start an operand that is no sum with the operand before it. -/
def isOperand : Symbol → Bool
  | .sign cs => cs == ['$'] || cs == ['(']
  | _ => true

theorem isOperand_sign {cs : List Char} :
    (Symbol.sign cs).isOperand = true ↔ cs = ['$'] ∨ cs = ['('] := by
  rw [isOperand, Bool.or_eq_true, beq_iff_eq, beq_iff_eq]

end Symbol

/-! ### Trees -/

/-- What awk takes an expression for. A group is an expression in parentheses. -/
inductive Tree where
  | name (cs : List Char)
  | number (cs : List Char)
  | string (cs : List Char)
  | column (position : Tree)
  | call (function : List Char) (args : List Tree)
  | subscript (base index : Tree)
  | unary (sign : Char) (operand : Tree)
  | binary (o : Op) (left right : Tree)
  | conditional (test yes no : Tree)
  | group (inner : Tree)

namespace Tree

mutual

/-- The tree without its groups. -/
def ungrouped : Tree → Tree
  | .name cs => .name cs
  | .number cs => .number cs
  | .string cs => .string cs
  | .column position => .column (ungrouped position)
  | .call function args => .call function (ungroupedAll args)
  | .subscript base index => .subscript (ungrouped base) (ungrouped index)
  | .unary sign operand => .unary sign (ungrouped operand)
  | .binary o left right => .binary o (ungrouped left) (ungrouped right)
  | .conditional test yes no => .conditional (ungrouped test) (ungrouped yes) (ungrouped no)
  | .group inner => ungrouped inner

def ungroupedAll : List Tree → List Tree
  | [] => []
  | t :: ts => ungrouped t :: ungroupedAll ts

end

/-- Operands with one operator between them, grouped to the left. -/
def chain (o : Op) (first : Tree) (more : List Tree) : Tree := more.foldl (Tree.binary o) first

end Tree

/-- The levels of the grammar, from the loosest to the tightest. -/
inductive Level where
  | conditional | or | and | comparison | concat | sum | product | unary | power | primary
deriving DecidableEq

namespace Level

/-- The level that the operands of a level have. -/
def below : Level → Level
  | .conditional => .or
  | .or => .and
  | .and => .comparison
  | .comparison => .concat
  | .concat => .sum
  | .sum => .product
  | .product => .unary
  | .unary => .power
  | .power => .primary
  | .primary => .primary

/-- How many levels are looser. -/
def depth : Level → Nat
  | .conditional => 0
  | .or => 1
  | .and => 2
  | .comparison => 3
  | .concat => 4
  | .sum => 5
  | .product => 6
  | .unary => 7
  | .power => 8
  | .primary => 9

/-- Whether a level strings operands together. -/
def isChain : Level → Bool
  | .or | .and | .comparison | .concat | .sum | .product => true
  | _ => false

theorem depth_le (l : Level) : l.depth ≤ 9 := by cases l <;> decide

variable {l : Level}

theorem depth_chain (h : l.isChain = true) : l.depth ≤ 6 := by
  cases l <;> first | decide | cases h

theorem depth_below (h : l.depth ≤ 8) : l.below.depth = l.depth + 1 := by
  cases l <;> first | rfl | exact absurd h (by decide)

theorem depth_injective {l' : Level} (h : l.depth = l'.depth) : l = l' := by
  cases l <;> cases l' <;> first | rfl | exact absurd h (by decide)

theorem isChain_of_depth (h : l.depth ≤ 6) (hc : l ≠ .conditional) : l.isChain = true := by
  cases l <;> first | rfl | exact absurd rfl hc | exact absurd h (by decide)

end Level

namespace Grammar

/-! ### Reading -/

/-- The signs between operands, with their levels. -/
def operators : List (List Char × Level × Op) :=
  [(['|', '|'], .or, .or), (['&', '&'], .and, .and),
    (['=', '='], .comparison, .equal), (['!', '='], .comparison, .notEqual),
    (['>'], .comparison, .greater), (['<'], .comparison, .less),
    (['>', '='], .comparison, .greaterEqual), (['<', '='], .comparison, .lessEqual),
    (['+'], .sum, .add), (['-'], .sum, .sub),
    (['*'], .product, .mul), (['/'], .product, .div), (['%'], .product, .mod),
    (['^'], .power, .pow)]

/-- How the symbols behind an operand go on: an operator with its level, and what follows it.
    Another operand is joined without a sign. -/
def joint? : List Symbol → Option (Level × Op × List Symbol)
  | [] => none
  | .sign cs :: rest =>
    if cs ∈ [['$'], ['('], ['!']] then some (.concat, .concat, .sign cs :: rest)
    else (operators.lookup cs).map fun found => (found.1, found.2, rest)
  | s :: rest => some (.concat, .concat, s :: rest)

/-- The operator of a level behind an operand, and what follows it. -/
def opAt? (l : Level) (ss : List Symbol) : Option (Op × List Symbol) :=
  (joint? ss).bind fun found => if found.1 = l then some found.2 else none

/-- What follows a sign at the head of some symbols. -/
def after? (cs : List Char) : List Symbol → Option (List Symbol)
  | .sign ds :: rest => if ds = cs then some rest else none
  | _ => none

/-- The sign before an operand, and what follows it. -/
def signAt? : List Symbol → Option (Char × List Symbol)
  | .sign [c] :: rest => if c ∈ ['!', '+', '-'] then some (c, rest) else none
  | _ => none

mutual

/-- Reads an expression of a level, with `fuel` to go. -/
def read (fuel : Nat) (l : Level) (ss : List Symbol) : Option (Tree × List Symbol) :=
  match fuel with
  | 0 => none
  | n + 1 =>
    match l with
    | .conditional => do
      let (test, rest) ← read n .or ss
      match after? ['?'] rest with
      | none => return (test, rest)
      | some rest =>
        let (yes, rest) ← read n .conditional rest
        let rest ← after? [':'] rest
        let (no, rest) ← read n .conditional rest
        return (.conditional test yes no, rest)
    | .unary =>
      match signAt? ss with
      | none => read n .power ss
      | some (c, rest) => do
        let (operand, rest) ← read n .unary rest
        return (.unary c operand, rest)
    | .power => do
      let (base, rest) ← read n .primary ss
      match opAt? .power rest with
      | none => return (base, rest)
      | some (o, rest) =>
        let (exponent, rest) ← read n .unary rest
        return (.binary o base exponent, rest)
    | .primary => readPrimary n ss
    | l => do
      let (first, rest) ← read n l.below ss
      readMore n l first rest

/-- Reads the further operands of a level. -/
def readMore (fuel : Nat) (l : Level) (left : Tree) (ss : List Symbol) :
    Option (Tree × List Symbol) :=
  match fuel with
  | 0 => none
  | n + 1 =>
    match opAt? l ss with
    | none => some (left, ss)
    | some (o, rest) => do
      let (right, rest) ← read n l.below rest
      if l = .comparison then return (.binary o left right, rest)
      else readMore n l (.binary o left right) rest

/-- Reads an expression without operators, or one in parentheses. -/
def readPrimary (fuel : Nat) (ss : List Symbol) : Option (Tree × List Symbol) :=
  match fuel with
  | 0 => none
  | n + 1 =>
    match ss with
    | [] => none
    | .number cs :: rest => some (.number cs, rest)
    | .string cs :: rest => some (.string cs, rest)
    | .name cs :: rest =>
      match after? ['['] rest with
      | none => some (.name cs, rest)
      | some rest => do
        let (index, rest) ← read n .conditional rest
        let rest ← after? [']'] rest
        return (.subscript (.name cs) index, rest)
    | .function cs :: rest => do
      let rest ← after? ['('] rest
      match after? [')'] rest with
      | some rest => return (.call cs [], rest)
      | none =>
        let (args, rest) ← readArgs n rest
        return (.call cs args, rest)
    | .sign cs :: rest =>
      if cs = ['$'] then do
        let (position, rest) ← read n .primary rest
        return (.column position, rest)
      else if cs = ['('] then do
        let (inner, rest) ← read n .conditional rest
        let rest ← after? [')'] rest
        return (.group inner, rest)
      else none

/-- Reads the arguments of a call, one at least, up to its closing parenthesis. -/
def readArgs (fuel : Nat) (ss : List Symbol) : Option (List Tree × List Symbol) :=
  match fuel with
  | 0 => none
  | n + 1 => do
    let (first, rest) ← read n .conditional ss
    match after? [')'] rest with
    | some rest => return ([first], rest)
    | none =>
      let rest ← after? [','] rest
      let (more, rest) ← readArgs n rest
      return (first :: more, rest)

end

/-- Reads a text that is one expression. Fewer than sixteen steps lie between two symbols. -/
def parse (text : String) : Option Tree := do
  let ss := Symbol.scan (Token.lex text.toList)
  let (t, rest) ← read (16 * ss.length) .conditional ss
  if rest.isEmpty then return t else none

/-! ### Where an operand ends -/

attribute [local simp] read readMore readPrimary readArgs

/-- Symbols that no part of a level goes on with. -/
structure Stops (l : Level) (r : List Symbol) : Prop where
  index : after? ['['] r = none
  test : l = .conditional → after? ['?'] r = none
  joint : ∀ found ∈ joint? r, found.1.depth < l.depth

section

variable {l l' : Level} {ss r : List Symbol} {t : Tree}

theorem Stops.tighter (h : Stops l r) (hl : l.depth < l'.depth) : Stops l' r where
  index := h.index
  test := by
    rintro rfl
    exact absurd hl (Nat.not_lt_zero _)
  joint found hf := Nat.lt_trans (h.joint found hf) hl

theorem Stops.opAt? (h : Stops l r) : Grammar.opAt? l r = none := by
  rw [Grammar.opAt?, Option.bind_eq_none_iff]
  intro found hf
  refine if_neg fun he => ?_
  have hlt := h.joint found hf
  rw [he] at hlt
  exact Nat.lt_irrefl _ hlt

theorem stops_nil (l : Level) : Stops l [] := ⟨rfl, fun _ => rfl, nofun⟩

/-- The signs that end a part of an expression in brackets. -/
theorem stops_closing (cs : List Char) (h : cs ∈ [[')'], [']'], [','], [':']]) (l : Level)
    (r : List Symbol) : Stops l (.sign cs :: r) := by
  simp only [mem_cons, not_mem_nil, or_false] at h
  rcases h with rfl | rfl | rfl | rfl <;> exact ⟨rfl, fun _ => rfl, nofun⟩

theorem stops_test (r : List Symbol) : Stops .or (.sign ['?'] :: r) := ⟨rfl, nofun, nofun⟩

theorem after?_self (cs : List Char) (r : List Symbol) : after? cs (.sign cs :: r) = some r :=
  if_pos rfl

variable {cs : List Char}

theorem after?_of_ne {ds : List Char} (h : ds ≠ cs) (r : List Symbol) :
    after? cs (.sign ds :: r) = none := if_neg h

/-- An operator goes on with its own level and with all looser ones. -/
theorem joint?_operator {o : Op} (h : (cs, l, o) ∈ operators) (r : List Symbol) :
    joint? (.sign cs :: r) = some (l, o, r) ∧ after? ['['] (.sign cs :: r) = none ∧
      after? ['?'] (.sign cs :: r) = none := by
  have key : ∀ q ∈ operators, q.1 ≠ ['['] ∧ q.1 ≠ ['?'] ∧ q.1 ∉ [['$'], ['('], ['!']] ∧
      operators.lookup q.1 = some q.2 := by decide
  obtain ⟨hindex, htest, hplain, hfound⟩ := key _ h
  refine ⟨?_, after?_of_ne hindex r, after?_of_ne htest r⟩
  rw [joint?, if_neg hplain, hfound]
  rfl

theorem stops_operator {o : Op} (h : (cs, l', o) ∈ operators) (hl : l'.depth < l.depth)
    (r : List Symbol) : Stops l (.sign cs :: r) := by
  obtain ⟨hjoint, hindex, htest⟩ := joint?_operator h r
  refine ⟨hindex, fun _ => htest, fun found hf => ?_⟩
  rw [hjoint] at hf
  cases hf
  exact hl

/-! ### What a level reads -/

/-- What is read at a level from some symbols, whatever ends it behind them, up to groups. -/
structure Reads (l : Level) (ss : List Symbol) (t : Tree) : Prop where
  nonempty : ss ≠ []
  read : ∀ {r n}, Stops l r → 16 * ss.length ≤ n + l.depth →
    ∃ t', Grammar.read n l (ss ++ r) = some (t', r) ∧ t'.ungrouped = t

theorem reads_of_succ (hne : ss ≠ [])
    (h : ∀ {r n}, Stops l r → 16 * ss.length ≤ n + 1 + l.depth →
      ∃ t', read (n + 1) l (ss ++ r) = some (t', r) ∧ t'.ungrouped = t) : Reads l ss t where
  nonempty := hne
  read := by
    intro r n hr hn
    have hlen := length_pos_iff.2 hne
    have hdepth := l.depth_le
    obtain _ | m := n
    · omega
    exact h hr hn

/-- An expression without a choice behind it. -/
theorem Reads.unconditional (h : Reads .or ss t) : Reads .conditional ss t := by
  refine reads_of_succ h.nonempty fun {r n} hr hn => ?_
  obtain ⟨t', ht, rfl⟩ := h.read (n := n) (hr.tighter (by decide)) hn
  refine ⟨t', ?_, rfl⟩
  rw [Grammar.read]
  simp only [ht, hr.test rfl, bind_eq_bind, bind_some]
  rfl

theorem Reads.choice {ys ns : List Symbol} {yes no : Tree} (ht : Reads .or ss t)
    (hy : Reads .conditional ys yes) (hn : Reads .conditional ns no) :
    Reads .conditional (ss ++ .sign ['?'] :: (ys ++ .sign [':'] :: ns))
      (.conditional t yes no) := by
  refine reads_of_succ (by simp) fun {r n} hr hlen => ?_
  simp only [length_append, length_cons, Level.depth] at hlen
  obtain ⟨t', htest, rfl⟩ := ht.read (n := n) (stops_test (ys ++ .sign [':'] :: (ns ++ r)))
    (by simp only [Level.depth]; omega)
  obtain ⟨y', hyes, rfl⟩ := hy.read (n := n) (stops_closing [':'] (by decide) _ (ns ++ r))
    (by simp only [Level.depth]; omega)
  obtain ⟨n', hno, rfl⟩ := hn.read (n := n) hr (by simp only [Level.depth]; omega)
  refine ⟨.conditional t' y' n', ?_, rfl⟩
  rw [Grammar.read, append_assoc, cons_append, append_assoc, cons_append]
  simp only [htest, hyes, hno, after?_self, bind_eq_bind, bind_some]
  rfl

/-- A sign takes an operand of its own level. -/
theorem Reads.signed (h : Reads .unary ss t) {c : Char} (hc : c ∈ ['!', '+', '-']) :
    Reads .unary (.sign [c] :: ss) (.unary c t) := by
  refine reads_of_succ (cons_ne_nil _ _) fun {r n} hr hn => ?_
  rw [length_cons] at hn
  obtain ⟨t', ht, rfl⟩ := h.read (n := n) hr (by omega)
  have hsign : signAt? (.sign [c] :: ss ++ r) = some (c, ss ++ r) := if_pos hc
  refine ⟨.unary c t', ?_, rfl⟩
  rw [Grammar.read, hsign]
  simp only [ht, bind_eq_bind, bind_some]
  rfl

/-- Symbols that start an operand without a sign. -/
def StartsOperand (ss : List Symbol) : Prop := ∃ s rest, ss = s :: rest ∧ s.isOperand = true

theorem StartsOperand.append (h : StartsOperand ss) (r : List Symbol) :
    StartsOperand (ss ++ r) := by
  obtain ⟨s, rest, rfl, hs⟩ := h
  exact ⟨s, rest ++ r, rfl, hs⟩

theorem StartsOperand.signAt? (h : StartsOperand ss) : Grammar.signAt? ss = none := by
  obtain ⟨s, rest, rfl, hs⟩ := h
  cases s with
  | sign cs =>
    rcases Symbol.isOperand_sign.1 hs with rfl | rfl <;> rfl
  | _ => rfl

/-- Another operand is joined. -/
theorem StartsOperand.joint? (h : StartsOperand ss) :
    Grammar.joint? ss = some (.concat, .concat, ss) := by
  obtain ⟨s, rest, rfl, hs⟩ := h
  cases s with
  | sign cs =>
    rcases Symbol.isOperand_sign.1 hs with rfl | rfl <;> rfl
  | _ => rfl

/-- An operand starts with no other sign than its own. -/
theorem StartsOperand.after? (h : StartsOperand ss) {cs : List Char}
    (hcs : cs ∉ [['$'], ['(']]) : Grammar.after? cs ss = none := by
  obtain ⟨s, rest, rfl, hs⟩ := h
  cases s with
  | sign ds =>
    refine after?_of_ne ?_ rest
    rintro rfl
    exact hcs (by simpa using Symbol.isOperand_sign.1 hs)
  | _ => rfl

/-- Without a sign, a power is read. -/
theorem reads_unsigned (hne : ss ≠ []) (hs : StartsOperand ss)
    (h : ∀ {r n}, Stops .unary r → 16 * ss.length ≤ n + 9 →
      ∃ t', read (n + 1) .power (ss ++ r) = some (t', r) ∧ t'.ungrouped = t) :
    Reads .unary ss t := by
  refine reads_of_succ hne fun {r n} hr hn => ?_
  have hlen := length_pos_iff.2 hne
  simp only [Level.depth] at hn
  obtain _ | m := n
  · omega
  rw [Grammar.read, (hs.append r).signAt?]
  exact h hr (by omega)

theorem Reads.unary (h : Reads .primary ss t) (hs : StartsOperand ss) : Reads .unary ss t := by
  refine reads_unsigned h.nonempty hs fun {r n} hr hn => ?_
  obtain ⟨t', ht, rfl⟩ := h.read (n := n) (hr.tighter (by decide)) hn
  have hpower : Stops .power r := hr.tighter (by decide)
  refine ⟨t', ?_, rfl⟩
  rw [Grammar.read]
  simp only [ht, hpower.opAt?, bind_eq_bind, bind_some]
  rfl

/-- A power takes all signs that follow it. -/
theorem Reads.raised {es : List Symbol} {exponent : Tree} (h : Reads .primary ss t)
    (hs : StartsOperand ss) (he : Reads .unary es exponent) :
    Reads .unary (ss ++ .sign ['^'] :: es) (.binary .pow t exponent) := by
  refine reads_unsigned (by simp) (hs.append _) fun {r n} hr hn => ?_
  simp only [length_append, length_cons] at hn
  have hsign : (['^'], Level.power, Op.pow) ∈ operators := by decide
  obtain ⟨t', ht, rfl⟩ := h.read (n := n) (stops_operator hsign (by decide) (es ++ r))
    (by simp only [Level.depth]; omega)
  obtain ⟨e', hexp, rfl⟩ := he.read (n := n) hr (by simp only [Level.depth]; omega)
  have hop : opAt? .power (.sign ['^'] :: (es ++ r)) = some (.pow, es ++ r) := rfl
  refine ⟨.binary .pow t' e', ?_, rfl⟩
  rw [Grammar.read, append_assoc, cons_append]
  simp only [ht, hexp, hop, bind_eq_bind, bind_some]
  rfl

/-! ### Operands side by side -/

/-- An operand: its symbols and what they are read as. -/
abbrev Operand := List Symbol × Tree

/-- Operands that a level reads, with symbols between them that stand for an operator. -/
structure Strung (l : Level) (o : Op) (sep : List Symbol) (first : Operand) (more : List Operand) :
    Prop where
  reads : ∀ item ∈ first :: more, Reads l.below item.1 item.2
  joint : ∀ item ∈ more, ∀ r, joint? (sep ++ (item.1 ++ r)) = some (l, o, item.1 ++ r) ∧
    after? ['['] (sep ++ (item.1 ++ r)) = none
  single : l = .comparison → more.length ≤ 1

/-- The symbols of operands that each have a separator before them. -/
def behind (sep : List Symbol) (more : List Operand) : List Symbol :=
  more.flatMap fun item => sep ++ item.1

theorem intercalate_behind (sep : List Symbol) : ∀ (first : Operand) (more : List Operand),
    sep.intercalate ((first :: more).map Prod.fst) = first.1 ++ behind sep more
  | first, [] => by
    rw [map_singleton, intercalate_singleton, behind, flatMap_nil, append_nil]
  | first, next :: more => by
    rw [map_cons, map_cons, intercalate_cons_cons, ← map_cons, intercalate_behind sep next more]
    simp [behind]

theorem behind_cons (sep : List Symbol) (item : Operand) (more : List Operand) (r : List Symbol) :
    behind sep (item :: more) ++ r = sep ++ (item.1 ++ (behind sep more ++ r)) := by
  simp [behind]

section

variable {o : Op} {sep : List Symbol} {first : Operand} {more : List Operand}

theorem Strung.stops (h : Strung l o sep first more) (hl : l.isChain = true) (hr : Stops l r) :
    Stops l.below (behind sep more ++ r) := by
  have hdepth := Level.depth_below (Nat.le_trans (Level.depth_chain hl) (by decide))
  cases more with
  | nil => exact hr.tighter (by omega)
  | cons item more =>
    rw [behind_cons]
    obtain ⟨hjoint, hindex⟩ := h.joint item mem_cons_self (behind sep more ++ r)
    refine ⟨hindex, fun hc => ?_, fun found hf => ?_⟩
    · rw [hc] at hdepth
      cases hdepth
    · rw [hjoint] at hf
      cases hf
      show l.depth < l.below.depth
      omega

theorem Strung.tail {item : Operand} (h : Strung l o sep first (item :: more)) :
    Strung l o sep item more where
  reads := (forall_mem_cons.1 h.reads).2
  joint := (forall_mem_cons.1 h.joint).2
  single hc := Nat.le_of_succ_le (h.single hc)

/-- The further operands of a level, one after the other. -/
theorem Strung.readMore (hl : l.isChain = true) (hr : Stops l r) :
    ∀ {more : List Operand} {first : Operand} (left : Tree) {n : Nat},
      Strung l o sep first more → 16 * (behind sep more).length + 8 ≤ n →
        ∃ t', Grammar.readMore n l left (behind sep more ++ r) = some (t', r) ∧
          t'.ungrouped = Tree.chain o left.ungrouped (more.map Prod.snd)
  | [], _, left, n, _, hn => by
    obtain _ | m := n
    · omega
    refine ⟨left, ?_, rfl⟩
    rw [behind, flatMap_nil, nil_append, Grammar.readMore, hr.opAt?]
  | item :: more, first, left, n, h, hn => by
    obtain _ | m := n
    · omega
    have hdepth := Level.depth_chain hl
    have hitem := h.reads item (mem_cons_of_mem _ mem_cons_self)
    have hpos := length_pos_iff.2 hitem.nonempty
    simp only [behind, flatMap_cons, length_append] at hn
    obtain ⟨t, ht, hitem'⟩ := hitem.read (n := m) (h.tail.stops hl hr) (by omega)
    have hop : Grammar.opAt? l (sep ++ (item.1 ++ (behind sep more ++ r)))
        = some (o, item.1 ++ (behind sep more ++ r)) := by
      rw [Grammar.opAt?, (h.joint item mem_cons_self _).1]
      exact if_pos rfl
    rw [behind_cons, Grammar.readMore, hop]
    simp only [ht, bind_eq_bind, bind_some]
    split
    · rename_i hc
      have hmore : more = [] := eq_nil_of_length_eq_zero (by simpa using h.single hc)
      subst hmore
      exact ⟨.binary o left t, rfl, by rw [Tree.ungrouped, hitem']; rfl⟩
    · obtain ⟨t', hm, ht'⟩ := Strung.readMore hl hr (.binary o left t) (n := m) h.tail
        (by simp only [behind]; omega)
      refine ⟨t', hm, ?_⟩
      rw [ht', Tree.ungrouped, hitem']
      rfl

/-- Operands of one level with an operator between them. -/
theorem Strung.all (h : Strung l o sep first more) (hl : l.isChain = true) :
    Reads l (first.1 ++ behind sep more) (Tree.chain o first.2 (more.map Prod.snd)) := by
  have hfirst := h.reads first mem_cons_self
  refine reads_of_succ (by simp [hfirst.nonempty]) fun {r n} hr hn => ?_
  have hread : ∀ ss, read (n + 1) l ss = (read n l.below ss).bind fun p =>
      Grammar.readMore n l p.1 p.2 := by
    intro ss
    cases l <;> first | rfl | cases hl
  have hdepth := Level.depth_chain hl
  have hbelow := Level.depth_below (Nat.le_trans hdepth (by decide))
  have hpos := length_pos_iff.2 hfirst.nonempty
  rw [length_append] at hn
  obtain ⟨t, ht, hfirst'⟩ := hfirst.read (n := n) (h.stops hl hr) (by omega)
  obtain ⟨t', hm, ht'⟩ := Strung.readMore hl hr t (n := n) h (by omega)
  refine ⟨t', ?_, by rw [ht', hfirst']⟩
  rw [hread, append_assoc, ht]
  exact hm

end

/-- What is read at a level is an operand of each looser one. -/
theorem Reads.climb (h : Reads l' ss t) (hl' : l'.depth ≤ 7) (hl : l.depth ≤ l'.depth) :
    Reads l ss t := by
  -- from the level below, one level at a time
  obtain ⟨k, hk⟩ := Nat.exists_eq_add_of_le hl
  induction k generalizing l with
  | zero =>
    cases Level.depth_injective hk
    exact h
  | succ k ih =>
    have hbelow := Level.depth_below (l := l) (by omega)
    have hoperand : Reads l.below ss t := ih (by omega) (by omega)
    by_cases hc : l = .conditional
    · subst hc
      exact hoperand.unconditional
    · have hstrung : Strung l .concat [] (ss, t) [] :=
        ⟨forall_mem_singleton.2 hoperand, forall_mem_nil _, fun _ => Nat.zero_le _⟩
      have hall := hstrung.all (Level.isChain_of_depth (by omega) hc)
      rwa [behind, flatMap_nil, append_nil] at hall

/-! ### What stands alone -/

theorem reads_primary (hne : ss ≠ [])
    (h : ∀ {r n}, after? ['['] r = none → 16 * ss.length ≤ n + 11 →
      ∃ t', readPrimary (n + 1) (ss ++ r) = some (t', r) ∧ t'.ungrouped = t) :
    Reads .primary ss t := by
  refine reads_of_succ hne fun {r n} hr hn => ?_
  have hlen := length_pos_iff.2 hne
  simp only [Level.depth] at hn
  obtain _ | m := n
  · omega
  exact h hr.index (by omega)

theorem reads_number (cs : List Char) : Reads .primary [.number cs] (.number cs) :=
  reads_primary (cons_ne_nil _ _) fun _ _ => ⟨.number cs, rfl, rfl⟩

theorem reads_string (cs : List Char) : Reads .primary [.string cs] (.string cs) :=
  reads_primary (cons_ne_nil _ _) fun _ _ => ⟨.string cs, rfl, rfl⟩

theorem reads_name (cs : List Char) : Reads .primary [.name cs] (.name cs) := by
  refine reads_primary (cons_ne_nil _ _) fun {r n} hr _ => ⟨.name cs, ?_, rfl⟩
  rw [singleton_append, readPrimary, hr]

theorem reads_column (cs : List Char) :
    Reads .primary [.sign ['$'], .number cs] (.column (.number cs)) := by
  refine reads_primary (cons_ne_nil _ _) fun {r n} _ hn => ⟨.column (.number cs), ?_, rfl⟩
  simp only [length_cons, length_nil] at hn
  obtain ⟨m, rfl⟩ : ∃ m, n = m + 2 := ⟨n - 2, by omega⟩
  rfl

theorem Reads.group (h : Reads .conditional ss t) :
    Reads .primary (.sign ['('] :: (ss ++ [.sign [')']])) t := by
  refine reads_primary (cons_ne_nil _ _) fun {r n} _ hn => ?_
  simp only [length_cons, length_append] at hn
  obtain ⟨t', ht, rfl⟩ := h.read (n := n) (stops_closing [')'] (by decide) _ r) (by omega)
  refine ⟨.group t', ?_, rfl⟩
  rw [cons_append, append_assoc, singleton_append, readPrimary, if_neg (by decide), if_pos rfl]
  simp only [ht, after?_self, bind_eq_bind, bind_some]
  rfl

theorem Reads.subscript (cs : List Char) (h : Reads .conditional ss t) :
    Reads .primary (.name cs :: .sign ['['] :: (ss ++ [.sign [']']]))
      (.subscript (.name cs) t) := by
  refine reads_primary (cons_ne_nil _ _) fun {r n} _ hn => ?_
  simp only [length_cons, length_append] at hn
  obtain ⟨t', ht, rfl⟩ := h.read (n := n) (stops_closing [']'] (by decide) _ r) (by omega)
  refine ⟨.subscript (.name cs) t', ?_, rfl⟩
  rw [cons_append, cons_append, append_assoc, singleton_append, readPrimary, after?_self]
  simp only [ht, after?_self, bind_eq_bind, bind_some]
  rfl

/-- The arguments of a call, one after the other. -/
theorem readArgs_closed {r : List Symbol} : ∀ {more : List Operand} {first : Operand} {n : Nat},
    (∀ a ∈ first :: more, Reads .conditional a.1 a.2) →
    16 * (first.1.length + (behind [.sign [',']] more).length) + 1 ≤ n →
      ∃ ts, readArgs n (first.1 ++ (behind [.sign [',']] more ++ .sign [')'] :: r)) = some (ts, r) ∧
        Tree.ungroupedAll ts = first.2 :: more.map Prod.snd
  | [], first, n, h, hn => by
    obtain _ | m := n
    · omega
    obtain ⟨t, ht, hfirst⟩ := (h first mem_cons_self).read (n := m)
      (stops_closing [')'] (by decide) _ r) (by omega)
    refine ⟨[t], ?_, by rw [Tree.ungroupedAll, hfirst]; rfl⟩
    rw [behind, flatMap_nil, nil_append, readArgs]
    simp only [ht, after?_self, bind_eq_bind, bind_some]
    rfl
  | next :: more, first, n, h, hn => by
    obtain _ | m := n
    · omega
    obtain ⟨hfirst, hrest⟩ := forall_mem_cons.1 h
    have hlen : (behind [.sign [',']] (next :: more)).length
        = 1 + (next.1.length + (behind [.sign [',']] more).length) := by
      simp [behind, Nat.add_comm, Nat.add_left_comm]
    rw [hlen] at hn
    obtain ⟨t, ht, hfirst'⟩ := hfirst.read (n := m) (stops_closing [','] (by decide) _
      (next.1 ++ (behind [.sign [',']] more ++ .sign [')'] :: r))) (by omega)
    obtain ⟨ts, hts, hmore⟩ := readArgs_closed (n := m) (r := r) hrest (by omega)
    refine ⟨t :: ts, ?_, by rw [Tree.ungroupedAll, hfirst', hmore]; rfl⟩
    rw [behind_cons, readArgs, singleton_append]
    simp only [ht, after?_of_ne (show [','] ≠ [')'] by decide), after?_self, hts,
      bind_eq_bind, bind_some]
    rfl

theorem reads_call_nil (f : List Char) :
    Reads .primary [.function f, .sign ['('], .sign [')']] (.call f []) :=
  reads_primary (cons_ne_nil _ _) fun _ _ => ⟨.call f [], rfl, rfl⟩

theorem reads_call (f : List Char) {first : Operand} {more : List Operand}
    (h : ∀ a ∈ first :: more, Reads .conditional a.1 a.2)
    (hopen : ∀ r, after? [')'] (first.1 ++ r) = none) :
    Reads .primary
      (.function f :: .sign ['('] :: (first.1 ++ (behind [.sign [',']] more ++ [.sign [')']])))
      (.call f (first.2 :: more.map Prod.snd)) := by
  refine reads_primary (cons_ne_nil _ _) fun {r n} _ hn => ?_
  simp only [length_cons, length_append] at hn
  obtain ⟨ts, hts, hargs⟩ := readArgs_closed (n := n) (r := r) h (by omega)
  refine ⟨.call f ts, ?_, by rw [Tree.ungrouped, hargs]⟩
  rw [cons_append, cons_append, append_assoc, append_assoc, singleton_append, readPrimary]
  simp only [after?_self, hopen, hts, bind_eq_bind, bind_some]
  rfl

/-- A text whose symbols are read as a whole. -/
theorem Reads.parse {text : String} (h : Reads .conditional ss t)
    (hs : Symbol.scan (Token.lex text.toList) = ss) :
    ∃ t', Grammar.parse text = some t' ∧ t'.ungrouped = t := by
  obtain ⟨t', ht, hu⟩ := h.read (n := 16 * ss.length) (stops_nil _) (Nat.le_add_right _ _)
  refine ⟨t', ?_, hu⟩
  rw [append_nil] at ht
  simp only [Grammar.parse, hs, ht, bind_eq_bind, bind_some]
  rfl

end

end Grammar

end RowAwk.Awk
