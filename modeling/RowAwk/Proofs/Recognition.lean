import RowAwk.Proofs.Placements

/-!
The reader of the grammar finds every tree that is placed on lexemes.

A rule reads greedily, so it must be told where to stop. Each token has a reach, the rank of the
tightest rule that it can continue, and what follows a rule has to reach further than the rule:

    a + b * c - d       c is a term; `-` reaches as far as sums, so the term ends there

With such a rest the rule gives the tree and leaves exactly the rest. The levels and the postfix rule
group to the left while they are read from the left, so for them the statement is that reading goes
on with the loop behind the part before it.

Derivations have places on whatever lexemes their tokens stand in. So derivations and readings are
the same, and since a reader has one answer, so has the grammar.
-/

open List

namespace RowAwk.Syntax

open Lexeme

variable {used : List Lexeme} {ts : List Token} {ls : List Lexeme} {rule : Rule}

/-! ### How far tokens reach -/

/-- How loose a rule is. -/
def Rule.rank : Rule → Nat
  | .tuple => 12
  | .expr => 11
  | .chain .or => 10
  | .chain .and => 9
  | .negation | .comparison => 8
  | .level l => l.rank + 3
  | .factor | .power => 2
  | .primary => 1
  | .atom => 0

/-- The rank of the tightest rule that may go on with a token after what it has read. A token that
    starts an expression may follow the comma that ends a tuple. -/
def Token.reach : Token → Nat
  | .symbol .openParen | .symbol .openBracket => 1
  | .symbol .doubleStar => 2
  | .symbol .star | .symbol .slash | .symbol .doubleSlash | .symbol .percent => 3
  | .symbol .plus | .symbol .minus => 4
  | .symbol .shiftLeft | .symbol .shiftRight => 5
  | .symbol .ampersand => 6
  | .symbol .pipe => 7
  | .symbol .equal | .symbol .notEqual | .symbol .less | .symbol .lessEqual | .symbol .greater
  | .symbol .greaterEqual | .keyword .in | .keyword .not => 8
  | .keyword .and => 9
  | .keyword .or => 10
  | .keyword .if => 11
  | .symbol .comma | .symbol .tilde | .name _ | .literal _ => 12
  | _ => 13

/-- No rule of a rank goes on with these lexemes. -/
def Stops (n : Nat) (rest : List Lexeme) : Prop := ∀ l ∈ rest.head?, n < l.token.reach

attribute [local simp] Rule.rank Token.reach CompareOp.tokens

@[simp] theorem stops_nil (n : Nat) : Stops n [] := nofun

@[simp] theorem stops_cons {n : Nat} {l : Lexeme} {rest : List Lexeme} :
    Stops n (l :: rest) ↔ n < l.token.reach := by
  simp [Stops]

theorem Stops.mono {m n : Nat} {rest : List Lexeme} (h : Stops n rest) (hmn : m ≤ n) :
    Stops m rest :=
  fun l hl => Nat.lt_of_le_of_lt hmn (h l hl)

/-- An atom stops before anything. -/
theorem stops_atom (rest : List Lexeme) : Stops Rule.atom.rank rest := by
  intro l _
  change 0 < l.token.reach
  unfold Token.reach
  split <;> simp

/-! ### How expressions start -/

/-- Whether a rule derives signs before a power. -/
def Rule.isSigned : Rule → Bool
  | .power | .primary | .atom => false
  | _ => true

/-- Whether a rule derives negations. -/
def Rule.isNegated : Rule → Bool
  | .tuple | .expr | .chain _ | .negation => true
  | _ => false

/-- Whether a token may start what a rule derives. -/
def Rule.opens (rule : Rule) : Token → Bool
  | .name _ | .literal _ | .symbol .openParen | .symbol .openBracket => true
  | .symbol .minus | .symbol .tilde => rule.isSigned
  | .keyword .not => rule.isNegated
  | _ => false

/-- A first token that may start a rule, and no `=` behind it if it is a name. -/
def Starts (rule : Rule) (ts : List Token) : Prop :=
  ∃ t us, ts = t :: us ∧ rule.opens t = true ∧
    ∀ n, t = .name n → us.head? ≠ some (.symbol .assign)

theorem Starts.append {more : List Token} (h : Starts rule ts)
    (hm : more.head? ≠ some (.symbol .assign)) : Starts rule (ts ++ more) := by
  obtain ⟨t, us, rfl, ht, hu⟩ := h
  refine ⟨t, us ++ more, rfl, ht, fun n hn => ?_⟩
  cases us with
  | nil => exact hm
  | cons u us => exact hu n hn

variable {rule' : Rule} {e : Expr} {us : List Token} {parts : List Part}
variable {stretches : List (List Lexeme)} {stmt : Stmt} {seps : List Lexeme} {stmts : List Stmt}
variable {source : String}

theorem Starts.loosen (h : Starts rule ts) (hs : rule.isSigned = true → rule'.isSigned = true)
    (hn : rule.isNegated = true → rule'.isNegated = true) : Starts rule' ts := by
  obtain ⟨t, us, rfl, ht, hu⟩ := h
  refine ⟨t, us, rfl, ?_, hu⟩
  unfold Rule.opens at ht ⊢
  split at ht
  case h_5 | h_6 => exact hs ht
  case h_7 => exact hn ht
  all_goals assumption

theorem Derives.starts (h : Derives rule ts e) : Starts rule ts := by
  induction h with
  | item _ ih | unconditional _ ih | uncompared _ ih | base _ ih | bare _ ih => exact ih
  | tuple _ _ _ ih _ => exact ih.append (by simp [comma])
  | conditional _ _ _ ih _ _ | power _ _ ih _ | call _ _ _ _ ih _ _ | subscript _ _ ih _ =>
    exact ih.append (by simp)
  | @link op _ _ _ ih => cases op <;> exact ih
  | @chain op ts e parts _ _ hne ih _ =>
    refine Starts.append (by cases op <;> exact ih) ?_
    cases parts with
    | nil => exact absurd rfl hne
    | cons p parts => simp [linked]
  | positive _ ih => exact ih.loosen (fun _ => rfl) (fun _ => rfl)
  | not _ _ | empty | group _ _ | list _ _ _ => exact ⟨_, _, rfl, rfl, nofun⟩
  | @compare op ls rs lhs rhs _ _ ih _ =>
    refine Starts.append ih ?_
    cases op <;> simp [CompareOp.tokens]
  | @operand l _ _ _ ih => cases l <;> exact ih
  | @binary l t op ls rs lhs rhs hop _ _ ih _ =>
    refine ih.append ?_
    rintro ⟨⟩
    cases l <;> cases hop
  | unsigned _ ih => exact ih.loosen (fun _ => rfl) id
  | @sign t op ts e ht _ _ =>
    unfold sign? at ht
    split at ht
    · exact ⟨_, _, rfl, rfl, nofun⟩
    · exact ⟨_, _, rfl, rfl, nofun⟩
    · cases ht
  | name n => exact ⟨.name n, [], rfl, rfl, by simp⟩
  | literal v => exact ⟨.literal v, [], rfl, rfl, nofun⟩

/-- The lexemes of tokens that start a rule. -/
theorem Starts.head (h : Starts rule ts) (hu : used.map token = ts) :
    ∃ l us, used = l :: us ∧ rule.opens l.token = true ∧
      ∀ n, l.token = .name n → us.head?.map token ≠ some (.symbol .assign) := by
  obtain ⟨t, us, rfl, ht, hn⟩ := h
  obtain ⟨l, ls, rfl, rfl, rfl⟩ := map_eq_cons_iff.1 hu
  exact ⟨l, ls, rfl, ht, by simpa [List.head?_map] using hn⟩

/-- The first lexeme of a tree. -/
theorem Places.head (h : Places rule ls e) :
    ∃ l us, ls = l :: us ∧ rule.opens l.token = true ∧
      ∀ n, l.token = .name n → us.head?.map token ≠ some (.symbol .assign) :=
  h.derives.starts.head rfl

/-! ### Reading -/

/-- A value is read, and a given rest is seen after it. -/
def Reads {α : Type} {bound : Nat} (v : α) (x : Except SyntaxError (Read α bound))
    (rest : List Lexeme) : Prop :=
  ∃ c h, x = .ok ⟨v, c, h⟩ ∧ c.view = rest

section

variable {α β : Type} {m n : Nat} {v : α} {w : β} {c : Cursor} {rest after : List Lexeme}

theorem reads_ok {h : c.left < m} (hv : c.view = rest) : Reads v (.ok (⟨v, c, h⟩ : Read α m)) rest :=
  ⟨c, h, rfl, hv⟩

theorem Reads.bind {x : Except SyntaxError (Read α m)}
    {f : Read α m → Except SyntaxError (Read β n)} (hx : Reads v x rest)
    (hf : ∀ c h, c.view = rest → Reads w (f ⟨v, c, h⟩) after) : Reads w (x >>= f) after := by
  obtain ⟨c, h, rfl, hv⟩ := hx
  exact hf c h hv

end

namespace Grammar

open Cursor (view_next exists_next exists_eat eat_eq_none peek_eq)

variable {rest : List Lexeme} {used : List Lexeme} {c : Cursor}

/-- The reader of a rule. -/
def run (rule : Rule) (c : Cursor) : Except SyntaxError (Read Expr c.left) :=
  match rule with
  | .tuple => tuple c
  | .expr => expr c
  | .chain op => chain op c
  | .negation => negation c
  | .comparison => comparison c
  | .level l => level l c
  | .factor => factor c
  | .power => power c
  | .primary => primary c
  | .atom => atom c

/-- The lexemes are read as the tree before any rest where the rule stops. -/
def Recognizes (rule : Rule) (used : List Lexeme) (e : Expr) : Prop :=
  ∀ ⦃c : Cursor⦄ ⦃rest : List Lexeme⦄, c.view = used ++ rest → Stops rule.rank rest →
    Reads e (run rule c) rest

/-- The same with the loops of the levels and the postfix rule still to be run. -/
def Continues : Rule → List Lexeme → Expr → Prop
  | .level l, used, e => ∀ ⦃c : Cursor⦄ ⦃rest : List Lexeme⦄, c.view = used ++ rest →
      Stops (levelOperand l).rank rest → ∀ v after,
        (∀ c' : Cursor, c'.view = rest → Reads v (levelTail l e c') after) →
          Reads v (level l c) after
  | .primary, used, e => ∀ ⦃c : Cursor⦄ ⦃rest : List Lexeme⦄, c.view = used ++ rest →
      ∀ v after, (∀ c' : Cursor, c'.view = rest → Reads v (primaryTail e c') after) →
        Reads v (primary c) after
  | rule, used, e => Recognizes rule used e

/-! ### What a cursor does not find -/

variable {t : Token} {e : Expr} {span : Span} {l : Level} {op : BoolOp} {more : List Lexeme}
variable {pieces : List Piece} {named : Bool} {a : Arguments} {stmt : Stmt}

theorem eat_stops {n : Nat} (hv : c.view = rest) (h : Stops n rest) (ht : t.reach ≤ n) :
    c.eat t = none := by
  rw [eat_eq_none, peek_eq, hv]
  intro hp
  obtain ⟨l, hl, rfl⟩ := Option.map_eq_some_iff.1 hp
  exact Nat.not_lt.2 ht (h l hl)

/-- A token that starts no expression of a rule is not the next one before such an expression. -/
theorem peek_ne (h : Places rule used e) (hv : c.view = used ++ rest) (ht : rule.opens t = false) :
    c.peek ≠ some t := by
  obtain ⟨l, us, rfl, ho, -⟩ := h.head
  rw [peek_eq, hv]
  rintro ⟨⟩
  rw [ho] at ht
  cases ht

/-- An expression starts with no target. -/
theorem target?_eq_none (h : Places rule used e) (hv : c.view = used ++ rest)
    (hr : rest.head?.map token ≠ some (.symbol .assign)) : target? c = none := by
  cases ht : target? c with
  | none => rfl
  | some name =>
    obtain ⟨l, us, rfl, -, hn⟩ := h.head
    obtain ⟨sign, hname⟩ := view_target? ht
    rw [hv] at hname
    cases us with
    | nil =>
      obtain ⟨rfl, rfl⟩ := cons_eq_cons.1 hname
      exact absurd rfl hr
    | cons u us =>
      obtain ⟨rfl, htail⟩ := cons_eq_cons.1 hname
      obtain ⟨rfl, -⟩ := cons_eq_cons.1 htail
      exact absurd rfl (hn _ rfl)

theorem exists_target {n : String} {sign : Span}
    (hv : c.view = ⟨.name n, span⟩ :: ⟨.symbol .assign, sign⟩ :: rest) :
    ∃ c' h, target? c = some ⟨⟨n, span⟩, c', h⟩ ∧ c'.view = rest := by
  obtain ⟨c₁, h₁, hn, hv₁⟩ := exists_next hv
  obtain ⟨c₂, h₂, hs, hv₂⟩ := exists_next hv₁
  refine ⟨c₂, Nat.lt_trans h₂ h₁, ?_, hv₂⟩
  rw [target?, hn, peekNth_one hv rfl]
  change c₁.next.bind _ = _
  rw [hs]
  rfl

theorem op?_of_rank_lt_reach (h : (Rule.level l).rank < t.reach) : l.op? t = none := by
  unfold Level.op?
  split
  all_goals first | rfl | simp [Rule.rank, Level.rank, Token.reach] at h

theorem reads_levelTail_stops {lhs : Expr} (hv : c.view = rest)
    (h : Stops (Rule.level l).rank rest) : Reads lhs (levelTail l lhs c) rest := by
  rw [levelTail]
  split
  · exact reads_ok hv
  · rename_i head hh
    rw [← hv, view_next hh] at h
    simp only [op?_of_rank_lt_reach (stops_cons.1 h)]
    exact reads_ok hv

theorem reads_primaryTail_stops {base : Expr} (hv : c.view = rest)
    (h : Stops Rule.primary.rank rest) : Reads base (primaryTail base c) rest := by
  rw [primaryTail, eat_stops hv h (by decide), eat_stops hv h (by decide)]
  exact reads_ok hv

theorem rank_levelOperand_lt (l : Level) : (levelOperand l).rank < (Rule.level l).rank := by
  cases l <;> decide

theorem rank_chainOperand_lt (op : BoolOp) : (chainOperand op).rank < (Rule.chain op).rank := by
  cases op <;> decide

/-- Before a rest where the rule stops, the loops end at once. -/
theorem Continues.recognizes (h : Continues rule used e) : Recognizes rule used e := by
  cases rule with
  | level l =>
    intro c rest hv hr
    exact h hv (hr.mono (Nat.le_of_lt (rank_levelOperand_lt l))) _ _
      fun _ hv' => reads_levelTail_stops hv' hr
  | primary =>
    intro c rest hv hr
    exact h hv _ _ fun _ hv' => reads_primaryTail_stops hv' hr
  | _ => exact h

theorem reads_expect {token : Token} {expected : Expected} (hv : c.view = ⟨token, span⟩ :: rest) :
    Reads span (c.expect token expected) rest := by
  obtain ⟨c', h, he, hv'⟩ := exists_eat hv
  rw [Cursor.expect, he]
  exact reads_ok hv'

theorem compareOp?_tokens {op : CompareOp} (h : used.map token = op.tokens)
    (hv : c.view = used ++ rest) :
    ∃ c' hc, compareOp? c = some ⟨op, c', hc⟩ ∧ c'.view = rest := by
  cases op with
  | notIn =>
    obtain ⟨⟨_, _⟩, _, rfl, rfl, hu⟩ := map_eq_cons_iff.1 h
    obtain ⟨⟨_, _⟩, _, rfl, rfl, hn⟩ := map_eq_cons_iff.1 hu
    cases map_eq_nil_iff.1 hn
    obtain ⟨c₁, h₁, hnot, hv₁⟩ := exists_next hv
    obtain ⟨c₂, h₂, hin, hv₂⟩ := exists_next hv₁
    refine ⟨c₂, Nat.lt_trans h₂ h₁, ?_, hv₂⟩
    rw [compareOp?, hnot, peekNth_one hv rfl]
    change c₁.next.bind _ = _
    rw [hin]
    rfl
  | _ =>
    obtain ⟨⟨_, _⟩, _, rfl, rfl, hu⟩ := map_eq_cons_iff.1 h
    cases map_eq_nil_iff.1 hu
    obtain ⟨c₁, h₁, hn, hv₁⟩ := exists_next hv
    refine ⟨c₁, h₁, ?_, hv₁⟩
    rw [compareOp?, hn]
    rfl

theorem stops_compare {op : CompareOp} (h : used.map token = op.tokens) :
    Stops (Rule.level .bitOr).rank (used ++ rest) := by
  have hreach : ∀ t ∈ op.tokens.head?, (Rule.level .bitOr).rank < t.reach := by
    cases op <;> simp [CompareOp.tokens, Rule.rank, Level.rank, Token.reach]
  cases used with
  | nil => cases op <;> cases h
  | cons l used =>
    rw [← h] at hreach
    simpa using hreach

theorem compareOp?_stops (hv : c.view = rest) (h : Stops Rule.comparison.rank rest) :
    compareOp? c = none := by
  cases hop : compareOp? c with
  | none => rfl
  | some op =>
    obtain ⟨signs, hu, ht⟩ := tokens_compareOp? hop
    have hreach : ∀ t ∈ op.value.tokens.head?, t.reach ≤ Rule.comparison.rank := by
      cases op.value <;> simp
    cases signs with
    | nil => cases hval : op.value <;> rw [hval] at ht <;> cases ht
    | cons l signs =>
      rw [← hv, hu, cons_append, stops_cons] at h
      rw [← ht] at hreach
      exact absurd h (Nat.not_lt.2 (hreach l.token rfl))

theorem reads_chainOperand {v : Expr} (h : Reads v (run (chainOperand op) c) rest) :
    Reads v (match op with
      | .or => chain .and c
      | .and => negation c) rest := by
  cases op <;> exact h

theorem reads_levelOperand {v : Expr} (h : Reads v (run (levelOperand l) c) rest) :
    Reads v (match _ : l.tighter? with
      | some m => level m c
      | none => factor c) rest := by
  cases l <;> exact h

/-! ### Lists -/

/-- A tree that is placed by a rule and found by its reader. -/
def Found (rule : Rule) (p : Piece) : Prop := Places rule p.1 p.2 ∧ Recognizes rule p.1 p.2

theorem startsExpr_of_places (h : Places .expr ls e) (hv : c.view = ls ++ rest) :
    startsExpr c = true := by
  obtain ⟨⟨token, span⟩, us, rfl, ho, -⟩ := h.head
  rw [startsExpr, peek_eq, hv]
  change Rule.expr.opens token = true at ho
  unfold Rule.opens at ho
  split at ho <;> first | rfl | cases ho

theorem startsExpr_stops (hv : c.view = rest) (h : Stops Rule.tuple.rank rest) :
    startsExpr c = false := by
  rw [startsExpr, peek_eq, hv]
  cases rest with
  | nil => rfl
  | cons l rest =>
    obtain ⟨token, span⟩ := l
    dsimp only [head?_cons, Option.map_some]
    split
    all_goals first | rfl | simp_all

theorem reads_tupleTail_stops (hv : c.view = rest) (h : Stops Rule.tuple.rank rest) :
    Reads [] (tupleTail c) rest := by
  rw [tupleTail, eat_stops hv h (by decide)]
  exact reads_ok hv

/-- One more item of a tuple, before lexemes that are its tail. -/
theorem reads_tupleTail_cons {p : Piece} {es : List Expr} (hp : Found .expr p)
    (hs : Stops Rule.expr.rank more) (hv : c.view = ⟨comma, span⟩ :: (p.1 ++ more))
    (hm : ∀ c' : Cursor, c'.view = more → Reads es (tupleTail c') rest) :
    Reads (p.2 :: es) (tupleTail c) rest := by
  rw [comma] at hv
  obtain ⟨c₁, _, he, hv₁⟩ := exists_eat hv
  rw [tupleTail, he]
  dsimp only
  rw [if_pos (startsExpr_of_places hp.1 hv₁)]
  exact (hp.2 hv₁ hs).bind fun c₂ _ hv₂ => (hm c₂ hv₂).bind fun _ _ => reads_ok

theorem reads_tupleTail (hp : ∀ p ∈ pieces, Found .expr p) (hl : Strung (pieces.map Prod.fst) ls)
    (hv : c.view = ⟨comma, span⟩ :: (ls ++ rest)) (hr : Stops Rule.tuple.rank rest) :
    Reads (pieces.map Prod.snd) (tupleTail c) rest := by
  generalize hitems : pieces.map Prod.fst = items at hl
  induction hl generalizing c pieces span with
  | none =>
    cases map_eq_nil_iff.1 hitems
    rw [comma] at hv
    obtain ⟨c₁, _, he, hv₁⟩ := exists_eat hv
    rw [tupleTail, he]
    dsimp only
    rw [if_neg (by rw [startsExpr_stops hv₁ hr]; exact Bool.false_ne_true)]
    exact reads_ok hv₁
  | last =>
    obtain ⟨p, pieces, rfl, rfl, hnil⟩ := map_eq_cons_iff.1 hitems
    cases map_eq_nil_iff.1 hnil
    exact reads_tupleTail_cons (hp p mem_cons_self) (hr.mono (by decide)) hv
      fun _ hv' => reads_tupleTail_stops hv' hr
  | more hmore ih =>
    obtain ⟨p, pieces, rfl, rfl, hmap⟩ := map_eq_cons_iff.1 hitems
    rw [forall_mem_cons] at hp
    rw [append_assoc] at hv
    exact reads_tupleTail_cons hp.1 (by simp [comma]) hv fun _ hv' => ih hp.2 hv' hmap

theorem reads_items (hp : ∀ p ∈ pieces, Found .expr p) (hl : Strung (pieces.map Prod.fst) ls)
    (hv : c.view = ls ++ ⟨.symbol .closeBracket, span⟩ :: rest) :
    Reads (pieces.map Prod.snd) (items c) (⟨.symbol .closeBracket, span⟩ :: rest) := by
  generalize hitems : pieces.map Prod.fst = stretches at hl
  induction hl generalizing c pieces with
  | none =>
    cases map_eq_nil_iff.1 hitems
    rw [items, if_pos (by rw [peek_eq, hv]; rfl)]
    exact reads_ok hv
  | last =>
    obtain ⟨p, pieces, rfl, rfl, hnil⟩ := map_eq_cons_iff.1 hitems
    cases map_eq_nil_iff.1 hnil
    obtain ⟨hplaces, hreads⟩ := hp p mem_cons_self
    rw [items, if_neg (peek_ne hplaces hv rfl)]
    refine (hreads hv (by simp)).bind fun c₁ _ hv₁ => ?_
    dsimp only
    rw [eat_eq_none.2 (by rw [peek_eq, hv₁]; simp)]
    exact reads_ok hv₁
  | more hmore ih =>
    obtain ⟨p, pieces, rfl, rfl, hmap⟩ := map_eq_cons_iff.1 hitems
    rw [forall_mem_cons] at hp
    rw [append_assoc] at hv
    rw [items, if_neg (peek_ne hp.1.1 hv rfl)]
    refine (hp.1.2 hv (by simp [comma])).bind fun c₁ _ hv₁ => ?_
    rw [cons_append, comma] at hv₁
    obtain ⟨c₂, _, he, hv₂⟩ := exists_eat hv₁
    dsimp only
    rw [he]
    exact (ih hp.2 hv₂ hmap).bind fun _ _ => reads_ok

theorem reads_chainTail_stops (hv : c.view = rest) (h : Stops (Rule.chain op).rank rest) :
    Reads [] (chainTail op c) rest := by
  rw [chainTail, eat_stops hv h (by cases op <;> decide)]
  exact reads_ok hv

theorem stops_chained {items : List (List Lexeme)} (h : Chained (chainWord op) items ls)
    (hr : Stops (Rule.chain op).rank rest) : Stops (chainOperand op).rank (ls ++ rest) := by
  cases h with
  | none => exact hr.mono (Nat.le_of_lt (rank_chainOperand_lt op))
  | more =>
    rw [cons_append, stops_cons]
    cases op
    · exact Nat.lt_add_one 8
    · exact Nat.lt_add_one 9

theorem reads_chainTail (hp : ∀ p ∈ pieces, Found (chainOperand op) p)
    (hl : Chained (chainWord op) (pieces.map Prod.fst) ls) (hv : c.view = ls ++ rest)
    (hr : Stops (Rule.chain op).rank rest) : Reads (pieces.map Prod.snd) (chainTail op c) rest := by
  generalize hitems : pieces.map Prod.fst = items at hl
  induction hl generalizing c pieces with
  | none =>
    cases map_eq_nil_iff.1 hitems
    exact reads_chainTail_stops hv hr
  | more hmore ih =>
    obtain ⟨p, pieces, rfl, rfl, hmap⟩ := map_eq_cons_iff.1 hitems
    rw [forall_mem_cons] at hp
    rw [cons_append, append_assoc] at hv
    obtain ⟨c₁, _, he, hv₁⟩ := exists_eat hv
    rw [chainTail.eq_def, he]
    refine (reads_chainOperand (hp.1.2 hv₁ (stops_chained hmore hr))).bind fun c₂ _ hv₂ => ?_
    exact (ih hp.2 hv₂ hmap).bind fun _ _ => reads_ok

theorem reads_argumentsTail_close (hv : c.view = ⟨.symbol .closeParen, span⟩ :: rest) :
    Reads ⟨[], []⟩ (argumentsTail named c) (⟨.symbol .closeParen, span⟩ :: rest) := by
  rw [argumentsTail, eat_eq_none.2 (by rw [peek_eq, hv]; simp)]
  exact reads_ok hv

theorem reads_argumentsTail_comma (hv : c.view = ⟨comma, span⟩ :: more)
    (h : ∀ c' : Cursor, c'.view = more → Reads a (arguments named c') rest) :
    Reads a (argumentsTail named c) rest := by
  rw [comma] at hv
  obtain ⟨c₁, _, he, hv₁⟩ := exists_eat hv
  rw [argumentsTail, he]
  exact (h c₁ hv₁).bind fun _ _ => reads_ok

theorem reads_arguments_positional {p : Piece} (hp : Found .expr p)
    (hs : Stops Rule.expr.rank more) (ha : more.head?.map token ≠ some (.symbol .assign))
    (hv : c.view = p.1 ++ more)
    (hm : ∀ c' : Cursor, c'.view = more → Reads a (argumentsTail false c') rest) :
    Reads ⟨p.2 :: a.positional, a.keywords⟩ (arguments false c) rest := by
  rw [arguments.eq_def]
  split
  · rename_i heq
    exact absurd heq (peek_ne hp.1 hv rfl)
  · rename_i heq
    exact absurd heq (peek_ne hp.1 hv rfl)
  · rename_i heq
    exact absurd heq (peek_ne hp.1 hv rfl)
  · rw [target?_eq_none hp.1 hv ha]
    dsimp only
    rw [if_neg Bool.false_ne_true]
    exact (hp.2 hv hs).bind fun c₁ _ hv₁ => (hm c₁ hv₁).bind fun _ _ => reads_ok

theorem reads_arguments_named {k : NamedPiece} (hk : Recognizes .expr k.value.1 k.value.2)
    (hs : Stops Rule.expr.rank more) (hv : c.view = k.lexemes ++ more)
    (hm : ∀ c' : Cursor, c'.view = more → Reads a (argumentsTail true c') rest) :
    Reads ⟨a.positional, k.keyword :: a.keywords⟩ (arguments named c) rest := by
  rw [NamedPiece.lexemes, cons_append, cons_append] at hv
  obtain ⟨c₁, _, ht, hv₁⟩ := exists_target hv
  rw [arguments.eq_def, peek_eq, hv]
  dsimp only [head?_cons, Option.map_some]
  rw [ht]
  exact (hk hv₁ hs).bind fun c₂ _ hv₂ => (hm c₂ hv₂).bind fun _ _ => reads_ok

theorem reads_arguments {args : List Piece} {keywords : List NamedPiece}
    (hp : ∀ p ∈ args, Found .expr p) (hk : ∀ k ∈ keywords, Recognizes .expr k.value.1 k.value.2)
    (hl : Strung (args.map Prod.fst ++ keywords.map NamedPiece.lexemes) ls)
    (hn : named = true → args = []) (hv : c.view = ls ++ ⟨.symbol .closeParen, span⟩ :: rest) :
    Reads ⟨args.map Prod.snd, keywords.map NamedPiece.keyword⟩ (arguments named c)
      (⟨.symbol .closeParen, span⟩ :: rest) := by
  generalize hitems : args.map Prod.fst ++ keywords.map NamedPiece.lexemes = items at hl
  induction hl generalizing c args keywords named with
  | none =>
    obtain ⟨ha, hk⟩ := append_eq_nil_iff.1 hitems
    cases map_eq_nil_iff.1 ha
    cases map_eq_nil_iff.1 hk
    rw [arguments.eq_def, peek_eq, hv]
    exact reads_ok hv
  | last =>
    cases args with
    | cons p args =>
      obtain ⟨rfl, hnil⟩ := cons_eq_cons.1 hitems
      obtain ⟨ha, hk⟩ := append_eq_nil_iff.1 hnil
      cases map_eq_nil_iff.1 ha
      cases map_eq_nil_iff.1 hk
      cases named with
      | true => cases hn rfl
      | false =>
        exact reads_arguments_positional (hp p mem_cons_self) (by simp) (by simp) hv
          fun _ => reads_argumentsTail_close
    | nil =>
      cases keywords with
      | nil => cases hitems
      | cons k keywords =>
        obtain ⟨rfl, hnil⟩ := cons_eq_cons.1 hitems
        cases map_eq_nil_iff.1 hnil
        exact reads_arguments_named (hk k mem_cons_self) (by simp) hv
          fun _ => reads_argumentsTail_close
  | more hmore ih =>
    rw [append_assoc] at hv
    cases args with
    | cons p args =>
      obtain ⟨rfl, hrest⟩ := cons_eq_cons.1 hitems
      rw [forall_mem_cons] at hp
      cases named with
      | true => cases hn rfl
      | false =>
        exact reads_arguments_positional hp.1 (by simp [comma]) (by simp [comma]) hv
          fun _ hv' => reads_argumentsTail_comma hv' fun _ hv'' => ih hp.2 hk (by nofun) hv'' hrest
    | nil =>
      cases keywords with
      | nil => cases hitems
      | cons k keywords =>
        obtain ⟨rfl, hrest⟩ := cons_eq_cons.1 hitems
        rw [forall_mem_cons] at hk
        exact reads_arguments_named hk.1 (by simp [comma]) hv
          fun _ hv' => reads_argumentsTail_comma hv' fun _ hv'' =>
            ih hp hk.2 (fun _ => rfl) hv'' hrest

/-! ### One rule at a time -/

section

variable {used : List Lexeme} {e : Expr}
variable {left right : Span}

theorem recognizes_item (h : Recognizes .expr used e) : Recognizes .tuple used e := by
  intro c rest hv hr
  rw [run, tuple]
  refine (h hv (hr.mono (by decide))).bind fun c₁ _ hv₁ => ?_
  dsimp only
  rw [if_neg (eat_eq_none.1 (eat_stops hv₁ hr (by decide)))]
  exact reads_ok hv₁

variable {span : Span} {pieces : List Piece} {op : BinaryOp} {rs bs : List Lexeme} {l : Level}
variable {sign : Lexeme} {base : Expr}

theorem recognizes_tuple (h : Recognizes .expr used e) (hp : ∀ p ∈ pieces, Found .expr p)
    (hl : Strung (pieces.map Prod.fst) ls) :
    Recognizes .tuple (used ++ ⟨comma, span⟩ :: ls)
      (.tuple (coverAll e (pieces.map Prod.snd)) (e :: pieces.map Prod.snd)) := by
  intro c rest hv hr
  rw [append_assoc] at hv
  rw [run, tuple]
  refine (h hv (by simp [comma])).bind fun c₁ _ hv₁ => ?_
  dsimp only
  rw [if_pos (by rw [peek_eq, hv₁]; rfl)]
  exact (reads_tupleTail hp hl hv₁ hr).bind fun _ _ => reads_ok

theorem recognizes_unconditional (h : Recognizes (.chain .or) used e) :
    Recognizes .expr used e := by
  intro c rest hv hr
  rw [run, expr]
  refine (h hv (hr.mono (by decide))).bind fun c₁ _ hv₁ => ?_
  dsimp only
  rw [eat_stops hv₁ hr (by decide)]
  exact reads_ok hv₁

theorem recognizes_conditional {ys cs ns : List Lexeme} {yes test no : Expr}
    (hy : Recognizes (.chain .or) ys yes) (hc : Recognizes (.chain .or) cs test)
    (hn : Recognizes .expr ns no) :
    Recognizes .expr (ys ++ ⟨.keyword .if, left⟩ :: (cs ++ ⟨.keyword .else, right⟩ :: ns))
      (.conditional (yes.span.cover no.span) test yes no) := by
  intro c rest hv hr
  rw [append_assoc, cons_append, append_assoc] at hv
  rw [run, expr]
  refine (hy hv (by simp)).bind fun c₁ _ hv₁ => ?_
  obtain ⟨c₂, _, he, hv₂⟩ := exists_eat hv₁
  dsimp only
  rw [he]
  refine (hc hv₂ (by simp)).bind fun c₃ _ hv₃ => ?_
  exact (reads_expect hv₃).bind fun _ _ hv₄ => (hn hv₄ hr).bind fun _ _ => reads_ok

theorem recognizes_chain {op : BoolOp} (pieces : List Piece)
    (h : Recognizes (chainOperand op) used e) (hp : ∀ p ∈ pieces, Found (chainOperand op) p)
    (hl : Chained (chainWord op) (pieces.map Prod.fst) ls) :
    Recognizes (.chain op) (used ++ ls)
      (match pieces.map Prod.snd with
        | [] => e
        | es => .boolean (coverAll e es) op (e :: es)) := by
  intro c rest hv hr
  rw [append_assoc] at hv
  rw [run, chain.eq_def]
  refine (reads_chainOperand (h hv (stops_chained hl hr))).bind fun _ _ hv₁ => ?_
  exact (reads_chainTail hp hl hv₁ hr).bind fun _ _ => reads_ok

theorem recognizes_positive (hp : Places .comparison used e)
    (h : Recognizes .comparison used e) : Recognizes .negation used e := by
  intro c rest hv hr
  rw [run, negation, eat_eq_none.2 (peek_ne hp hv rfl)]
  exact h hv hr

theorem recognizes_not (h : Recognizes .negation used e) :
    Recognizes .negation (⟨.keyword .not, span⟩ :: used) (unary span .not e) := by
  intro c rest hv hr
  obtain ⟨c₁, _, he, hv₁⟩ := exists_eat hv
  rw [run, negation, he]
  exact (h hv₁ hr).bind fun _ _ => reads_ok

theorem recognizes_uncompared (h : Recognizes (.level .bitOr) used e) :
    Recognizes .comparison used e := by
  intro c rest hv hr
  rw [run, comparison]
  refine (h hv (hr.mono (by decide))).bind fun c₁ _ hv₁ => ?_
  dsimp only
  rw [compareOp?_stops hv₁ hr]
  exact reads_ok hv₁

theorem recognizes_compare {op : CompareOp} {signs : List Lexeme} {lhs rhs : Expr}
    (hop : signs.map token = op.tokens) (hl : Recognizes (.level .bitOr) ls lhs)
    (hr : Recognizes (.level .bitOr) rs rhs) :
    Recognizes .comparison (ls ++ (signs ++ rs))
      (.compare (lhs.span.cover rhs.span) op lhs rhs) := by
  intro c rest hv hrest
  rw [append_assoc, append_assoc] at hv
  rw [run, comparison]
  refine (hl hv (stops_compare hop)).bind fun c₁ _ hv₁ => ?_
  obtain ⟨c₂, _, hc, hv₂⟩ := compareOp?_tokens hop hv₁
  dsimp only
  rw [hc]
  refine (hr hv₂ (hrest.mono (by decide))).bind fun c₃ _ hv₃ => ?_
  dsimp only
  rw [compareOp?_stops hv₃ hrest]
  exact reads_ok hv₃

theorem continues_operand (h : Recognizes (levelOperand l) used e) :
    Continues (.level l) used e := by
  intro c rest hv hr v after htail
  rw [level]
  exact (reads_levelOperand (h hv hr)).bind fun c₁ _ hv₁ =>
    (htail c₁ hv₁).bind fun _ _ => reads_ok

theorem rank_levelOperand_lt_reach {t : Token} (h : l.op? t = some op) :
    (levelOperand l).rank < t.reach := by
  unfold Level.op? at h
  split at h
  all_goals first | decide | cases h

theorem continues_binary {lhs rhs : Expr} (hop : l.op? sign.token = some op)
    (hl : Continues (.level l) ls lhs) (hr : Recognizes (levelOperand l) rs rhs) :
    Continues (.level l) (ls ++ sign :: rs) (binary op lhs rhs) := by
  intro c rest hv hrest v after htail
  rw [append_assoc] at hv
  refine hl hv (stops_cons.2 (rank_levelOperand_lt_reach hop)) v after fun c₁ hv₁ => ?_
  obtain ⟨c₂, _, hn, hv₂⟩ := exists_next hv₁
  rw [levelTail, hn]
  simp only [hop]
  exact (reads_levelOperand (hr hv₂ hrest)).bind fun c₃ _ hv₃ =>
    (htail c₃ hv₃).bind fun _ _ => reads_ok

theorem recognizes_unsigned (hp : Places .power used e) (h : Recognizes .power used e) :
    Recognizes .factor used e := by
  intro c rest hv hr
  rw [run, factor, eat_eq_none.2 (peek_ne hp hv rfl), eat_eq_none.2 (peek_ne hp hv rfl)]
  exact h hv hr

theorem recognizes_sign {op : UnaryOp} (ht : sign? sign.token = some op)
    (h : Recognizes .factor used e) : Recognizes .factor (sign :: used) (unary sign.span op e) := by
  intro c rest hv hr
  obtain ⟨token, span⟩ := sign
  obtain ⟨c₁, _, he, hv₁⟩ := exists_eat hv
  change sign? token = some op at ht
  unfold sign? at ht
  split at ht <;> cases ht
  · rw [run, factor, he]
    exact (h hv₁ hr).bind fun _ _ => reads_ok
  · rw [run, factor, he, eat_eq_none.2 (by rw [peek_eq, hv]; simp)]
    exact (h hv₁ hr).bind fun _ _ => reads_ok

theorem recognizes_base (h : Recognizes .primary used e) : Recognizes .power used e := by
  intro c rest hv hr
  rw [run, power]
  refine (h hv (hr.mono (by decide))).bind fun c₁ _ hv₁ => ?_
  dsimp only
  rw [eat_stops hv₁ hr (by decide)]
  exact reads_ok hv₁

theorem recognizes_power {es : List Lexeme} {exponent : Expr} (hb : Recognizes .primary bs base)
    (he : Recognizes .factor es exponent) :
    Recognizes .power (bs ++ ⟨.symbol .doubleStar, span⟩ :: es)
      (binary .pow base exponent) := by
  intro c rest hv hr
  rw [append_assoc] at hv
  rw [run, power]
  refine (hb hv (by simp)).bind fun c₁ _ hv₁ => ?_
  obtain ⟨c₂, _, hs, hv₂⟩ := exists_eat hv₁
  dsimp only
  rw [hs]
  exact (he hv₂ hr).bind fun _ _ => reads_ok

theorem continues_bare (h : Recognizes .atom used e) : Continues .primary used e := by
  intro c rest hv v after htail
  rw [primary]
  exact Reads.bind (h hv (stops_atom rest)) fun c₁ _ hv₁ =>
    (htail c₁ hv₁).bind fun _ _ => reads_ok

theorem continues_call {fs : List Lexeme} {f : String} {place : Span} {args : List Piece}
    {keywords : List NamedPiece} (hf : Continues .primary fs (.name place f))
    (hp : ∀ p ∈ args, Found .expr p) (hk : ∀ k ∈ keywords, Recognizes .expr k.value.1 k.value.2)
    (hl : Strung (args.map Prod.fst ++ keywords.map NamedPiece.lexemes) ls) :
    Continues .primary
      (fs ++ ⟨.symbol .openParen, left⟩ :: (ls ++ [⟨.symbol .closeParen, right⟩]))
      (.call (place.cover right) ⟨f, place⟩ (args.map Prod.snd)
        (keywords.map NamedPiece.keyword)) := by
  intro c rest hv v after htail
  rw [append_assoc, cons_append, append_assoc] at hv
  refine hf hv v after fun c₁ hv₁ => ?_
  obtain ⟨c₂, _, he, hv₂⟩ := exists_eat hv₁
  rw [primaryTail, he]
  refine (reads_arguments hp hk hl (by nofun) hv₂).bind fun _ _ hv₃ => ?_
  exact (reads_expect hv₃).bind fun c₄ _ hv₄ => (htail c₄ hv₄).bind fun _ _ => reads_ok

theorem continues_subscript {is : List Lexeme} {index : Expr} (hb : Continues .primary bs base)
    (hi : Recognizes .tuple is index) :
    Continues .primary
      (bs ++ ⟨.symbol .openBracket, left⟩ :: (is ++ [⟨.symbol .closeBracket, right⟩]))
      (.subscript (base.span.cover right) base index) := by
  intro c rest hv v after htail
  rw [append_assoc, cons_append, append_assoc] at hv
  refine hb hv v after fun c₁ hv₁ => ?_
  obtain ⟨c₂, _, he, hv₂⟩ := exists_eat hv₁
  rw [primaryTail, he, eat_eq_none.2 (by rw [peek_eq, hv₁]; simp)]
  refine (hi hv₂ (by simp)).bind fun _ _ hv₃ => ?_
  exact (reads_expect hv₃).bind fun c₄ _ hv₄ => (htail c₄ hv₄).bind fun _ _ => reads_ok

theorem recognizes_group (hp : Places .tuple used e) (h : Recognizes .tuple used e) :
    Recognizes .atom
      (⟨.symbol .openParen, left⟩ :: (used ++ [⟨.symbol .closeParen, right⟩])) e := by
  intro c rest hv _
  rw [cons_append, append_assoc] at hv
  obtain ⟨c₁, _, hn, hv₁⟩ := exists_next hv
  rw [run, atom.eq_def, hn]
  dsimp only
  rw [eat_eq_none.2 (peek_ne hp hv₁ rfl)]
  refine (h hv₁ (by simp)).bind fun _ _ hv₂ => ?_
  exact (reads_expect hv₂).bind fun _ _ => reads_ok

theorem recognizes_list (hp : ∀ p ∈ pieces, Found .expr p)
    (hl : Strung (pieces.map Prod.fst) used) :
    Recognizes .atom
      (⟨.symbol .openBracket, left⟩ :: (used ++ [⟨.symbol .closeBracket, right⟩]))
      (.list (left.cover right) (pieces.map Prod.snd)) := by
  intro c rest hv _
  rw [cons_append, append_assoc] at hv
  obtain ⟨c₁, _, hn, hv₁⟩ := exists_next hv
  rw [run, atom.eq_def, hn]
  refine (reads_items hp hl hv₁).bind fun _ _ hv₂ => ?_
  exact (reads_expect hv₂).bind fun _ _ => reads_ok

end

/-- Every tree that is placed on lexemes is found by the reader. -/
theorem continues_of_places (h : Places rule used e) : Continues rule used e := by
  induction h with
  | item _ ih => exact recognizes_item ih
  | tuple _ hp hl ih ihp =>
    exact recognizes_tuple ih (fun p hm => ⟨hp p hm, ihp p hm⟩) hl
  | unconditional _ ih => exact recognizes_unconditional ih
  | conditional _ _ _ ihy ihc ihn => exact recognizes_conditional ihy ihc ihn
  | link _ ih =>
    have h := recognizes_chain [] ih.recognizes (forall_mem_nil _) .none
    rwa [append_nil] at h
  | @chain op ls e rest pieces _ hp hne hl ih ihp =>
    have h := recognizes_chain pieces ih.recognizes
      (fun p hm => ⟨hp p hm, (ihp p hm).recognizes⟩) hl
    cases pieces with
    | nil => exact absurd rfl hne
    | cons p pieces => exact h
  | positive hp ih => exact recognizes_positive hp ih
  | not _ ih => exact recognizes_not ih
  | uncompared _ ih => exact recognizes_uncompared ih.recognizes
  | compare hop _ _ ihl ihr => exact recognizes_compare hop ihl.recognizes ihr.recognizes
  | operand _ ih => exact continues_operand ih.recognizes
  | binary hop _ _ ihl ihr => exact continues_binary hop ihl ihr.recognizes
  | unsigned hp ih => exact recognizes_unsigned hp ih
  | sign _ ht _ ih => exact recognizes_sign ht ih
  | base _ ih => exact recognizes_base ih.recognizes
  | power _ _ ihb ihe => exact recognizes_power ihb.recognizes ihe
  | bare _ ih => exact continues_bare ih
  | call _ hp _ hl ihf ihp ihk =>
    exact continues_call ihf (fun p hm => ⟨hp p hm, ihp p hm⟩) ihk hl
  | subscript _ _ ihb ihi => exact continues_subscript ihb ihi
  | name n span | literal v span =>
    intro c rest hv _
    obtain ⟨c₁, _, hn, hv₁⟩ := exists_next hv
    rw [run, atom.eq_def, hn]
    exact reads_ok hv₁
  | empty left right =>
    intro c rest hv _
    obtain ⟨c₁, _, hn, hv₁⟩ := exists_next hv
    obtain ⟨c₂, _, he, hv₂⟩ := exists_eat hv₁
    rw [run, atom.eq_def, hn]
    dsimp only
    rw [he]
    exact reads_ok hv₂
  | group hp ih => exact recognizes_group hp ih
  | list hp hl ihp => exact recognizes_list (fun p hm => ⟨hp p hm, ihp p hm⟩) hl

theorem reads_tuple (h : Places .tuple used e) (hv : c.view = used ++ rest)
    (hr : Stops Rule.tuple.rank rest) : Reads e (tuple c) rest :=
  continues_of_places h hv hr

/-! ### Statements -/

/-- Nothing follows, or a separator. -/
def EndsStmt (rest : List Lexeme) : Prop := ∀ l ∈ rest.head?, isSeparator l.token = true

theorem EndsStmt.stops (h : EndsStmt rest) : Stops Rule.tuple.rank rest := by
  intro l hl
  have hsep := h l hl
  unfold isSeparator at hsep
  split at hsep
  · rename_i ht
    rw [ht]
    decide
  · rename_i ht
    rw [ht]
    decide
  · cases hsep

theorem EndsStmt.head_ne (h : EndsStmt rest) : rest.head?.map token ≠ some (.symbol .assign) := by
  intro ha
  obtain ⟨l, hl, ht⟩ := Option.map_eq_some_iff.1 ha
  have hsep := h l hl
  rw [ht] at hsep
  cases hsep

theorem closed_endsStmt {bound : Nat} {whole : Read Stmt bound} (hv : whole.rest.view = rest)
    (h : EndsStmt rest) : closed whole = .ok whole := by
  rw [closed, eat_eq_none.2 (by rw [peek_eq, hv]; exact h.head_ne)]

theorem reads_statement (h : PlacesStmt used stmt) (hv : c.view = used ++ rest)
    (hr : EndsStmt rest) : Reads stmt (statement c) rest := by
  cases h with
  | value h =>
    rw [statement, target?_eq_none h hv hr.head_ne]
    refine (reads_tuple h hv hr.stops).bind fun c₁ _ hv₁ => ?_
    rw [closed_endsStmt hv₁ hr]
    exact reads_ok hv₁
  | assign h =>
    obtain ⟨c₁, _, ht, hv₁⟩ := exists_target hv
    rw [statement, ht]
    refine (reads_tuple h hv₁ hr.stops).bind fun c₂ _ hv₂ => ?_
    rw [closed_endsStmt hv₂ hr]
    exact reads_ok hv₂

/-- A statement starts with no separator. -/
theorem head_derivesStmt (h : DerivesStmt ts stmt) (hu : used.map token = ts) :
    ∃ l us, used = l :: us ∧ isSeparator l.token = false := by
  cases h with
  | value h =>
    obtain ⟨l, us, rfl, ho, -⟩ := h.starts.head hu
    refine ⟨l, us, rfl, ?_⟩
    unfold isSeparator
    split
    · rename_i ht
      rw [ht] at ho
      cases ho
    · rename_i ht
      rw [ht] at ho
      cases ho
    · rfl
  | assign h =>
    obtain ⟨l, us, rfl, ht, -⟩ := map_eq_cons_iff.1 hu
    exact ⟨l, us, rfl, by rw [ht]; rfl⟩

theorem exists_separator {l : Lexeme} (hv : c.view = l :: rest) (hl : isSeparator l.token = true) :
    ∃ c' h, separator? c = some ⟨l, c', h⟩ ∧ c'.view = rest := by
  obtain ⟨c₁, h₁, hn, hv₁⟩ := exists_next hv
  exact ⟨c₁, h₁, by rw [separator?, hn, Option.filter_some, if_pos hl], hv₁⟩

theorem separator?_eq_none (h : ∀ l ∈ c.view.head?, isSeparator l.token = false) :
    separator? c = none := by
  cases hs : separator? c with
  | none => rfl
  | some sign =>
    obtain ⟨hv, hsep⟩ := view_separator? hs
    rw [hv] at h
    rw [h _ rfl] at hsep
    cases hsep

/-- Before a statement there is no separator, and not the end either. -/
theorem before_statement (h : PlacesStmt used stmt) (hv : c.view = used ++ rest) :
    separator? c = none ∧ c.peek ≠ none := by
  obtain ⟨l, us, rfl, hl⟩ := head_derivesStmt h.derives rfl
  rw [peek_eq, hv]
  refine ⟨separator?_eq_none ?_, by simp⟩
  rw [hv]
  simpa using hl

/-- Every program that is placed on lexemes is read from them. -/
theorem statements_of_places {stmts : List Stmt} (h : PlacesProgram ls stmts) (hv : c.view = ls) :
    statements c = .ok stmts := by
  induction h generalizing c with
  | nil =>
    rw [statements, separator?_eq_none (by simp [hv])]
    dsimp only
    rw [if_pos (by rw [peek_eq, hv]; rfl)]
  | separator hl _ ih =>
    obtain ⟨c₁, _, hs, hv₁⟩ := exists_separator hv hl
    rw [statements, hs]
    exact ih hv₁
  | @last ls stmt h =>
    rw [← append_nil ls] at hv
    obtain ⟨hnone, hpeek⟩ := before_statement h hv
    obtain ⟨c₁, _, hreads, hv₁⟩ := reads_statement h hv (by simp [EndsStmt])
    rw [statements, hnone]
    dsimp only
    rw [if_neg hpeek]
    refine except_bind_eq_ok.2 ⟨_, hreads, ?_⟩
    dsimp only
    rw [separator?_eq_none (by simp [hv₁])]
    dsimp only
    rw [if_pos (by rw [peek_eq, hv₁]; rfl)]
    rfl
  | @cons ls sep rest stmt stmts h hsep _ ih =>
    obtain ⟨hnone, hpeek⟩ := before_statement h hv
    obtain ⟨c₁, _, hreads, hv₁⟩ := reads_statement h hv (by simpa [EndsStmt] using hsep)
    obtain ⟨c₂, _, hs, hv₂⟩ := exists_separator hv₁ hsep
    rw [statements, hnone]
    dsimp only
    rw [if_neg hpeek]
    refine except_bind_eq_ok.2 ⟨_, hreads, ?_⟩
    dsimp only
    rw [hs]
    exact except_bind_eq_ok.2 ⟨_, ih hv₂, rfl⟩

end Grammar

/-! ### Places for derivations -/

theorem cut_at {t : Token} (h : used.map token = ts ++ t :: us) :
    ∃ before span after, used = before ++ ⟨t, span⟩ :: after ∧ before.map token = ts ∧
      after.map token = us := by
  obtain ⟨before, rest, rfl, hb, hrest⟩ := map_eq_append_iff.1 h
  obtain ⟨⟨_, span⟩, after, rfl, rfl, ha⟩ := map_eq_cons_iff.1 hrest
  exact ⟨before, span, after, rfl, hb, ha⟩

theorem cut_head {t : Token} (h : used.map token = t :: us) :
    ∃ span after, used = ⟨t, span⟩ :: after ∧ after.map token = us := by
  obtain ⟨⟨_, span⟩, after, rfl, rfl, ha⟩ := map_eq_cons_iff.1 h
  exact ⟨span, after, rfl, ha⟩

/-- The lexemes of some tokens in brackets. -/
theorem cut_around {left right : Token} (h : used.map token = left :: (ts ++ [right])) :
    ∃ l inner r, used = ⟨left, l⟩ :: (inner ++ [⟨right, r⟩]) ∧ inner.map token = ts := by
  obtain ⟨l, rest, rfl, hrest⟩ := cut_head h
  obtain ⟨inner, r, after, rfl, hi, ha⟩ := cut_at hrest
  cases map_eq_nil_iff.1 ha
  exact ⟨l, inner, r, rfl, hi⟩

theorem Listed.exists_strung {items : List (List Token)} (h : Listed items ts)
    (hu : used.map token = ts) :
    ∃ stretches, Strung stretches used ∧ stretches.map (List.map token) = items := by
  induction h generalizing used with
  | none =>
    cases map_eq_nil_iff.1 hu
    exact ⟨[], .none, rfl⟩
  | last => exact ⟨[used], .last, by rw [map_singleton, hu]⟩
  | more _ ih =>
    obtain ⟨before, span, after, rfl, rfl, ha⟩ := cut_at hu
    obtain ⟨stretches, hs, rfl⟩ := ih ha
    exact ⟨before :: stretches, .more hs, rfl⟩

/-- A tree is found for the lexemes of a part, whatever their places. -/
def Placeable (rule : Rule) (p : Part) : Prop :=
  ∀ used : List Lexeme, used.map token = p.1 → ∃ e, Places rule used e ∧ e.unplaced = p.2

theorem Placeable.imp {p : Part} (h : Placeable rule p)
    (hr : ∀ {ls e}, Places rule ls e → Places rule' ls e) : Placeable rule' p := by
  intro used hu
  obtain ⟨e, he, hp⟩ := h used hu
  exact ⟨e, hr he, hp⟩

theorem exists_pieces (h : ∀ p ∈ parts, Placeable rule p)
    (hs : stretches.map (List.map token) = parts.map Prod.fst) :
    ∃ pieces : List Piece, pieces.map Prod.fst = stretches ∧
      (∀ p ∈ pieces, Places rule p.1 p.2) ∧ Expr.unplacedAll (pieces.map Prod.snd)
        = parts.map Prod.snd := by
  induction parts generalizing stretches with
  | nil =>
    cases map_eq_nil_iff.1 hs
    exact ⟨[], rfl, forall_mem_nil _, rfl⟩
  | cons p parts ih =>
    rw [forall_mem_cons] at h
    obtain ⟨used, stretches, rfl, hu, hrest⟩ := map_eq_cons_iff.1 hs
    obtain ⟨e, he, hp⟩ := h.1 used hu
    obtain ⟨pieces, rfl, hpieces, htrees⟩ := ih h.2 hrest
    refine ⟨(used, e) :: pieces, rfl, forall_mem_cons.2 ⟨he, hpieces⟩, ?_⟩
    rw [map_cons, Expr.unplacedAll, hp, htrees]
    rfl

theorem exists_namedPieces {named : List NamedPart} (h : ∀ k ∈ named, Placeable .expr k.2)
    (hs : stretches.map (List.map token)
      = named.map fun k => .name k.1 :: .symbol .assign :: k.2.1) :
    ∃ keywords : List NamedPiece, keywords.map NamedPiece.lexemes = stretches ∧
      (∀ k ∈ keywords, Places .expr k.value.1 k.value.2) ∧
      Expr.unplacedKeywords (keywords.map NamedPiece.keyword) = named.map NamedPart.keyword := by
  induction named generalizing stretches with
  | nil =>
    cases map_eq_nil_iff.1 hs
    exact ⟨[], rfl, forall_mem_nil _, rfl⟩
  | cons k named ih =>
    rw [forall_mem_cons] at h
    obtain ⟨used, stretches, rfl, hu, hmore⟩ := map_eq_cons_iff.1 hs
    obtain ⟨span, rest, rfl, hrest⟩ := cut_head hu
    obtain ⟨sign, value, rfl, hv⟩ := cut_head hrest
    obtain ⟨e, he, hk⟩ := h.1 value hv
    obtain ⟨keywords, rfl, hkeywords, htrees⟩ := ih h.2 hmore
    refine ⟨⟨⟨k.1, span⟩, sign, value, e⟩ :: keywords, rfl, forall_mem_cons.2 ⟨he, hkeywords⟩, ?_⟩
    rw [map_cons, NamedPiece.keyword, Expr.unplacedKeywords, hk, htrees]
    rfl

theorem exists_chained {word : Keyword} (hu : used.map token = linked word parts) :
    ∃ stretches, Chained word stretches used ∧
      stretches.map (List.map token) = parts.map Prod.fst := by
  induction parts generalizing used with
  | nil =>
    cases map_eq_nil_iff.1 hu
    exact ⟨[], .none, rfl⟩
  | cons p parts ih =>
    rw [linked, flatMap_cons, cons_append] at hu
    obtain ⟨span, rest, rfl, hrest⟩ := cut_head hu
    obtain ⟨before, after, rfl, hb, ha⟩ := map_eq_append_iff.1 hrest
    obtain ⟨stretches, hs, hmap⟩ := ih ha
    exact ⟨before :: stretches, .more hs, by rw [map_cons, hb, hmap]; rfl⟩

theorem unplaced_eq_name {f : String} (h : e.unplaced = .name .nowhere f) :
    ∃ span, e = .name span f := by
  cases e with
  | name span f =>
    cases h
    exact ⟨span, rfl⟩
  | _ => cases h

/-- Whatever is derived from tokens has places on any lexemes of these tokens. -/
theorem Derives.placeable (h : Derives rule ts e) : Placeable rule (ts, e) := by
  induction h with
  | item _ ih => exact ih.imp .item
  | tuple _ _ hl ih ihp =>
    intro used hu
    obtain ⟨before, span, after, rfl, hb, ha⟩ := cut_at hu
    obtain ⟨v, hv, hp⟩ := ih before hb
    obtain ⟨stretches, hs, hmap⟩ := hl.exists_strung ha
    obtain ⟨pieces, rfl, hpieces, htrees⟩ := exists_pieces ihp hmap
    refine ⟨_, .tuple hv hpieces hs, ?_⟩
    rw [Expr.unplaced, Expr.unplacedAll, hp, htrees]
  | unconditional _ ih => exact ih.imp .unconditional
  | conditional _ _ _ ihy iht ihn =>
    intro used hu
    obtain ⟨ys, left, rest, rfl, hys, hrest⟩ := cut_at hu
    obtain ⟨cs, right, ns, rfl, hcs, hns⟩ := cut_at hrest
    obtain ⟨y, hy, rfl⟩ := ihy ys hys
    obtain ⟨t, ht, rfl⟩ := iht cs hcs
    obtain ⟨n, hn, rfl⟩ := ihn ns hns
    exact ⟨_, .conditional hy ht hn, rfl⟩
  | link _ ih => exact ih.imp .link
  | chain _ _ hne ih ihp =>
    intro used hu
    obtain ⟨before, after, rfl, hb, ha⟩ := map_eq_append_iff.1 hu
    obtain ⟨v, hv, hp⟩ := ih before hb
    obtain ⟨stretches, hs, hmap⟩ := exists_chained ha
    obtain ⟨pieces, rfl, hpieces, htrees⟩ := exists_pieces ihp hmap
    refine ⟨_, .chain hv hpieces ?_ hs, ?_⟩
    · rintro rfl
      exact hne (map_eq_nil_iff.1 hmap.symm)
    · rw [Expr.unplaced, Expr.unplacedAll, hp, htrees]
  | positive _ ih => exact ih.imp .positive
  | not _ ih =>
    intro used hu
    obtain ⟨span, rest, rfl, hrest⟩ := cut_head hu
    obtain ⟨v, hv, rfl⟩ := ih rest hrest
    exact ⟨_, .not hv, rfl⟩
  | uncompared _ ih => exact ih.imp .uncompared
  | compare _ _ ihl ihr =>
    intro used hu
    obtain ⟨ls, rest, rfl, hls, hrest⟩ := map_eq_append_iff.1 hu
    obtain ⟨signs, rs, rfl, hsigns, hrs⟩ := map_eq_append_iff.1 hrest
    obtain ⟨x, hx, rfl⟩ := ihl ls hls
    obtain ⟨y, hy, rfl⟩ := ihr rs hrs
    exact ⟨_, .compare hsigns hx hy, rfl⟩
  | operand _ ih => exact ih.imp .operand
  | binary hop _ _ ihl ihr =>
    intro used hu
    obtain ⟨ls, span, rs, rfl, hls, hrs⟩ := cut_at hu
    obtain ⟨x, hx, rfl⟩ := ihl ls hls
    obtain ⟨y, hy, rfl⟩ := ihr rs hrs
    exact ⟨_, .binary hop hx hy, rfl⟩
  | unsigned _ ih => exact ih.imp .unsigned
  | sign hop _ ih =>
    intro used hu
    obtain ⟨span, rest, rfl, hrest⟩ := cut_head hu
    obtain ⟨v, hv, rfl⟩ := ih rest hrest
    exact ⟨_, .sign _ hop hv, rfl⟩
  | base _ ih => exact ih.imp .base
  | power _ _ ihb ihe =>
    intro used hu
    obtain ⟨bs, span, es, rfl, hbs, hes⟩ := cut_at hu
    obtain ⟨x, hx, rfl⟩ := ihb bs hbs
    obtain ⟨y, hy, rfl⟩ := ihe es hes
    exact ⟨_, .power hx hy, rfl⟩
  | bare _ ih => exact ih.imp .bare
  | call _ _ _ hl ihf iha ihk =>
    intro used hu
    obtain ⟨fs, rest, rfl, hfs, hrest⟩ := map_eq_append_iff.1 hu
    obtain ⟨left, inner, right, rfl, hinner⟩ := cut_around hrest
    obtain ⟨v, hv, hname⟩ := ihf fs hfs
    obtain ⟨place, rfl⟩ := unplaced_eq_name hname
    obtain ⟨stretches, hs, hmap⟩ := hl.exists_strung hinner
    obtain ⟨front, back, rfl, hfront, hback⟩ := map_eq_append_iff.1 hmap
    obtain ⟨pieces, rfl, hpieces, htrees⟩ := exists_pieces iha hfront
    obtain ⟨keywords, rfl, hkeywords, hvalues⟩ := exists_namedPieces ihk hback
    refine ⟨_, .call hv hpieces hkeywords hs, ?_⟩
    rw [Expr.unplaced, htrees, hvalues]
  | subscript _ _ ihb ihi =>
    intro used hu
    obtain ⟨bs, rest, rfl, hbs, hrest⟩ := map_eq_append_iff.1 hu
    obtain ⟨left, inner, right, rfl, hinner⟩ := cut_around hrest
    obtain ⟨x, hx, rfl⟩ := ihb bs hbs
    obtain ⟨y, hy, rfl⟩ := ihi inner hinner
    exact ⟨_, .subscript hx hy, rfl⟩
  | name n =>
    intro used hu
    obtain ⟨span, rest, rfl, hrest⟩ := cut_head hu
    cases map_eq_nil_iff.1 hrest
    exact ⟨_, .name n span, rfl⟩
  | literal v =>
    intro used hu
    obtain ⟨span, rest, rfl, hrest⟩ := cut_head hu
    cases map_eq_nil_iff.1 hrest
    exact ⟨_, .literal v span, rfl⟩
  | empty =>
    intro used hu
    obtain ⟨left, rest, rfl, hrest⟩ := cut_head hu
    obtain ⟨right, more, rfl, hmore⟩ := cut_head hrest
    cases map_eq_nil_iff.1 hmore
    exact ⟨_, .empty left right, rfl⟩
  | group _ ih =>
    intro used hu
    obtain ⟨left, inner, right, rfl, hinner⟩ := cut_around hu
    obtain ⟨v, hv, hp⟩ := ih inner hinner
    exact ⟨v, .group hv, hp⟩
  | list _ hl ihp =>
    intro used hu
    obtain ⟨left, inner, right, rfl, hinner⟩ := cut_around hu
    obtain ⟨stretches, hs, hmap⟩ := hl.exists_strung hinner
    obtain ⟨pieces, rfl, hpieces, htrees⟩ := exists_pieces ihp hmap
    refine ⟨_, .list hpieces hs, ?_⟩
    rw [Expr.unplaced, htrees]

theorem DerivesStmt.exists_places (h : DerivesStmt ts stmt) (hu : used.map token = ts) :
    ∃ found, PlacesStmt used found ∧ found.unplaced = stmt := by
  cases h with
  | value h =>
    obtain ⟨v, hv, hp⟩ := h.placeable used hu
    exact ⟨.value v, .value hv, congrArg Stmt.value hp⟩
  | assign h =>
    obtain ⟨span, rest, rfl, hrest⟩ := cut_head hu
    obtain ⟨sign, value, rfl, hvalue⟩ := cut_head hrest
    obtain ⟨v, hv, rfl⟩ := h.placeable value hvalue
    exact ⟨_, .assign hv, rfl⟩

theorem PlacesProgram.separators (hs : Separators (seps.map token))
    (h : PlacesProgram ls stmts) : PlacesProgram (seps ++ ls) stmts := by
  induction seps with
  | nil => exact h
  | cons l seps ih =>
    obtain ⟨hl, hs⟩ := forall_mem_cons.1 hs
    exact .separator hl (ih hs)

/-- Separators alone are a program without statements. -/
theorem places_separators (hs : Separators (seps.map token)) : PlacesProgram seps [] := by
  have h := PlacesProgram.nil.separators hs
  rwa [append_nil] at h

/-- A statement, more statements behind separators, and separators at the end. -/
theorem exists_places_statements {trail : List Token} {more : List Separated}
    (h : DerivesStmt ts stmt)
    (hm : ∀ m ∈ more, Separators m.before ∧ m.before ≠ [] ∧ DerivesStmt m.tokens m.stmt)
    (ht : Separators trail)
    (hls : ls.map token = ts ++ ((more.flatMap fun m => m.before ++ m.tokens) ++ trail)) :
    ∃ found, PlacesProgram ls found ∧
      found.map Stmt.unplaced = stmt :: more.map Separated.stmt := by
  induction more generalizing ts stmt ls with
  | nil =>
    obtain ⟨used, rest, rfl, hu, rfl⟩ := map_eq_append_iff.1 hls
    obtain ⟨first, hf, rfl⟩ := h.exists_places hu
    cases rest with
    | nil =>
      rw [append_nil]
      exact ⟨[first], .last hf, rfl⟩
    | cons sep rest =>
      obtain ⟨hsep, hrest⟩ := forall_mem_cons.1 ht
      exact ⟨[first], .cons hf hsep (places_separators hrest), rfl⟩
  | cons m more ih =>
    obtain ⟨⟨hseps, hne, hstmt⟩, hmore⟩ := forall_mem_cons.1 hm
    obtain ⟨used, rest, rfl, hu, hr⟩ := map_eq_append_iff.1 hls
    rw [flatMap_cons, append_assoc, append_assoc] at hr
    obtain ⟨seps, rest, rfl, hs, hrest⟩ := map_eq_append_iff.1 hr
    obtain ⟨first, hf, rfl⟩ := h.exists_places hu
    obtain ⟨found, hfound, hmap⟩ := ih hstmt hmore hrest
    cases seps with
    | nil => exact absurd hs.symm hne
    | cons sep seps =>
      rw [← hs] at hseps
      obtain ⟨hsep, hseps⟩ := forall_mem_cons.1 hseps
      refine ⟨first :: found, .cons hf hsep (hfound.separators hseps), ?_⟩
      rw [map_cons, hmap]
      rfl

/-- Every program that is derived from the tokens of lexemes has places on them. -/
theorem DerivesProgram.exists_places (h : DerivesProgram (ls.map token) stmts) :
    ∃ found, PlacesProgram ls found ∧ found.map Stmt.unplaced = stmts := by
  generalize hts : ls.map token = ts at h
  cases h with
  | blank hs =>
    subst hts
    exact ⟨[], places_separators hs, rfl⟩
  | statements hl hh hm ht =>
    obtain ⟨lead, rest, rfl, rfl, hr⟩ := map_eq_append_iff.1 hts
    obtain ⟨found, hfound, hmap⟩ := exists_places_statements hh hm ht hr
    exact ⟨found, hfound.separators hl, hmap⟩

/-! ### The language of the reader -/

theorem parseAll_iff_derives (hs : scan source = .ok ls) (stmts : List Stmt) :
    (∃ found, Stmt.parseAll source = .ok found ∧ found.map Stmt.unplaced = stmts) ↔
      DerivesProgram (ls.map token) stmts := by
  obtain ⟨c, hc, hv⟩ := Cursor.scan_eq_ok.1 hs
  constructor
  · rintro ⟨found, hf, rfl⟩
    obtain ⟨ls', hs', hp⟩ := places_parseAll hf
    cases hs.symm.trans hs'
    exact hp.derives
  · intro h
    obtain ⟨found, hfound, hmap⟩ := h.exists_places
    exact ⟨found, except_bind_eq_ok.2 ⟨c, hc, Grammar.statements_of_places hfound hv⟩, hmap⟩

theorem parse_iff_derives (hs : scan source = .ok ls) (e : Expr) :
    (∃ found, Expr.parse source = .ok found ∧ found.unplaced = e) ↔
      Derives .tuple (ls.map token) e := by
  obtain ⟨c, hc, hv⟩ := Cursor.scan_eq_ok.1 hs
  constructor
  · rintro ⟨found, hf, rfl⟩
    obtain ⟨ls', hs', hp⟩ := places_parse hf
    cases hs.symm.trans hs'
    exact hp.derives
  · intro hd
    obtain ⟨v, hplaces, hp⟩ := hd.placeable ls rfl
    rw [← append_nil ls] at hv
    obtain ⟨c₁, _, hread, hv₁⟩ := Grammar.reads_tuple hplaces hv (stops_nil _)
    refine ⟨v, except_bind_eq_ok.2 ⟨c, hc, except_bind_eq_ok.2 ⟨_, hread, ?_⟩⟩, hp⟩
    dsimp only
    rw [if_pos (by rw [Cursor.peek_eq, hv₁]; rfl)]
    rfl

theorem unbroken_cons (depth : Nat) (t : Token) (ts : List Token) :
    unbroken depth (t :: ts) =
      if t = .newline ∧ 0 < depth then unbroken depth ts
      else t :: unbroken (depthAfter depth t) ts := by
  cases t with
  | newline => cases depth <;> simp [unbroken, depthAfter]
  | symbol s => cases s <;> simp [unbroken, depthAfter]
  | _ => simp [unbroken, depthAfter]

/-- The lexemes that a cursor sees have the tokens of the rules. -/
theorem map_token_significant (depth : Nat) (ls : List Lexeme) :
    (significant depth ls).map token = unbroken depth (ls.map token) := by
  induction ls generalizing depth with
  | nil => rfl
  | cons l ls ih =>
    rw [significant, map_cons, unbroken_cons]
    split
    · rename_i hl
      rw [ih, hl.1]
      rfl
    · rw [map_cons, ih]

/-- The reader accepts exactly the grammar, which derives at most one tree: for statements and for
    a single expression, over the tokens without the line breaks inside brackets. -/
theorem parse_accepts_grammar {source : String} {all : List Lexeme}
    (hs : scanFrom 0 source.toList = .ok all) :
    let tokens := unbroken 0 (all.map token)
    (∀ stmts, (∃ found, Stmt.parseAll source = .ok found ∧ found.map Stmt.unplaced = stmts) ↔
      DerivesProgram tokens stmts) ∧
    (∀ stmts stmts', DerivesProgram tokens stmts → DerivesProgram tokens stmts' → stmts = stmts') ∧
    (∀ e, (∃ found, Expr.parse source = .ok found ∧ found.unplaced = e) ↔
      Derives .tuple tokens e) ∧
    ∀ e e', Derives .tuple tokens e → Derives .tuple tokens e' → e = e' := by
  have hscan : scan source = .ok (significant 0 all) :=
    except_map_eq_ok.2 ⟨all, hs, rfl⟩
  intro tokens
  have htokens : (significant 0 all).map token = tokens := map_token_significant 0 all
  have hstmts := parseAll_iff_derives hscan
  have hexpr := parse_iff_derives hscan
  rw [htokens] at hstmts hexpr
  refine ⟨hstmts, fun stmts stmts' h h' => ?_, hexpr, fun e e' h h' => ?_⟩
  · obtain ⟨found, hf, rfl⟩ := (hstmts stmts).2 h
    obtain ⟨found', hf', rfl⟩ := (hstmts stmts').2 h'
    rw [Except.ok.inj (hf.symm.trans hf')]
  · obtain ⟨found, hf, rfl⟩ := (hexpr e).2 h
    obtain ⟨found', hf', rfl⟩ := (hexpr e').2 h'
    rw [Except.ok.inj (hf.symm.trans hf')]

theorem parse_accepts_grammar_brokenCall :
    ∃ all found, scanFrom 0 "x = f(a,\n b=-c ** 2)[0,]; not x in [1, 2]\n".toList = .ok all ∧
      Stmt.parseAll "x = f(a,\n b=-c ** 2)[0,]; not x in [1, 2]\n" = .ok found ∧
      DerivesProgram (unbroken 0 (all.map token)) (found.map Stmt.unplaced) := by
  simp only [exists_and_left]
  exact exists_ok_of (by decide +kernel) fun all hall => exists_ok_of (by decide +kernel)
    fun found hfound => ((parse_accepts_grammar hall).1 _).1 ⟨found, hfound, rfl⟩

end RowAwk.Syntax
