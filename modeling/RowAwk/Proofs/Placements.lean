import RowAwk.Proofs.Cursors
import RowAwk.Proofs.Derivations
import RowAwk.Proofs.Outcomes

/-!
The grammar with the places of nodes.

`Places` has the rules of `Derives`, but over lexemes, and with the stretch of source that each node
covers: from the start of its first part to the end of its last, where parentheses are no parts.

    (a + b) * c[i]          the sum at 1..6, the element at 10..14, the product at 1..14

Whatever the reader of the grammar accepts is placed by these rules on the lexemes that it has used
up. Without the places, it is derived from their tokens.
-/

open List

namespace RowAwk

namespace Syntax

open Grammar (coverAll)

/-! ### The rules -/

/-- Lexemes and the tree that is placed on them. -/
abbrev Piece := List Lexeme × Expr

/-- An argument by name: the name, the place of the sign behind it, and the piece that is its
    value. -/
structure NamedPiece where
  name : Name
  sign : Span
  value : Piece

def NamedPiece.lexemes (k : NamedPiece) : List Lexeme :=
  ⟨.name k.name.text, k.name.span⟩ :: ⟨.symbol .assign, k.sign⟩ :: k.value.1

def NamedPiece.keyword (k : NamedPiece) : KeywordArg Expr := ⟨k.name, k.value.2⟩

/-- Stretches with commas between them; one more comma may follow the last. -/
inductive Strung : List (List Lexeme) → List Lexeme → Prop
  | none : Strung [] []
  | last {ls} : Strung [ls] ls
  | more {ls items rest} {span : Span} : Strung items rest →
      Strung (ls :: items) (ls ++ ⟨comma, span⟩ :: rest)

/-- Stretches that each have a keyword in front. -/
inductive Chained (word : Keyword) : List (List Lexeme) → List Lexeme → Prop
  | none : Chained word [] []
  | more {ls items rest} {span : Span} : Chained word items rest →
      Chained word (ls :: items) (⟨.keyword word, span⟩ :: (ls ++ rest))

/-- A rule places a tree on lexemes. -/
inductive Places : Rule → List Lexeme → Expr → Prop
  | item {ls e} : Places .expr ls e → Places .tuple ls e
  | tuple {ls e rest} {span : Span} {pieces : List Piece} : Places .expr ls e →
      (∀ p ∈ pieces, Places .expr p.1 p.2) → Strung (pieces.map Prod.fst) rest →
      Places .tuple (ls ++ ⟨comma, span⟩ :: rest)
        (.tuple (coverAll e (pieces.map Prod.snd)) (e :: pieces.map Prod.snd))
  | unconditional {ls e} : Places (.chain .or) ls e → Places .expr ls e
  | conditional {ys cs ns yes test no} {left right : Span} : Places (.chain .or) ys yes →
      Places (.chain .or) cs test → Places .expr ns no →
      Places .expr (ys ++ ⟨.keyword .if, left⟩ :: (cs ++ ⟨.keyword .else, right⟩ :: ns))
        (.conditional (yes.span.cover no.span) test yes no)
  | link {op ls e} : Places (chainOperand op) ls e → Places (.chain op) ls e
  | chain {op ls e rest} {pieces : List Piece} : Places (chainOperand op) ls e →
      (∀ p ∈ pieces, Places (chainOperand op) p.1 p.2) → pieces ≠ [] →
      Chained (Grammar.chainWord op) (pieces.map Prod.fst) rest →
      Places (.chain op) (ls ++ rest)
        (.boolean (coverAll e (pieces.map Prod.snd)) op (e :: pieces.map Prod.snd))
  | positive {ls e} : Places .comparison ls e → Places .negation ls e
  | not {ls e} {span : Span} : Places .negation ls e →
      Places .negation (⟨.keyword .not, span⟩ :: ls) (Grammar.unary span .not e)
  | uncompared {ls e} : Places (.level .bitOr) ls e → Places .comparison ls e
  | compare {op ls rs lhs rhs} {signs : List Lexeme} : signs.map Lexeme.token = op.tokens →
      Places (.level .bitOr) ls lhs → Places (.level .bitOr) rs rhs →
      Places .comparison (ls ++ (signs ++ rs)) (.compare (lhs.span.cover rhs.span) op lhs rhs)
  | operand {l ls e} : Places (levelOperand l) ls e → Places (.level l) ls e
  | binary {l op ls rs lhs rhs} {sign : Lexeme} : l.op? sign.token = some op →
      Places (.level l) ls lhs → Places (levelOperand l) rs rhs →
      Places (.level l) (ls ++ sign :: rs) (Grammar.binary op lhs rhs)
  | unsigned {ls e} : Places .power ls e → Places .factor ls e
  | sign {op ls e} (sign : Lexeme) : sign? sign.token = some op → Places .factor ls e →
      Places .factor (sign :: ls) (Grammar.unary sign.span op e)
  | base {ls e} : Places .primary ls e → Places .power ls e
  | power {bs es base exponent} {span : Span} : Places .primary bs base →
      Places .factor es exponent →
      Places .power (bs ++ ⟨.symbol .doubleStar, span⟩ :: es) (Grammar.binary .pow base exponent)
  | bare {ls e} : Places .atom ls e → Places .primary ls e
  | call {fs f ls} {place left right : Span} {args : List Piece} {named : List NamedPiece} :
      Places .primary fs (.name place f) → (∀ p ∈ args, Places .expr p.1 p.2) →
      (∀ k ∈ named, Places .expr k.value.1 k.value.2) →
      Strung (args.map Prod.fst ++ named.map NamedPiece.lexemes) ls →
      Places .primary (fs ++ ⟨.symbol .openParen, left⟩ :: (ls ++ [⟨.symbol .closeParen, right⟩]))
        (.call (place.cover right) ⟨f, place⟩ (args.map Prod.snd) (named.map NamedPiece.keyword))
  | subscript {bs is base index} {left right : Span} : Places .primary bs base →
      Places .tuple is index →
      Places .primary
        (bs ++ ⟨.symbol .openBracket, left⟩ :: (is ++ [⟨.symbol .closeBracket, right⟩]))
        (.subscript (base.span.cover right) base index)
  | name (n : String) (span : Span) : Places .atom [⟨.name n, span⟩] (.name span n)
  | literal (v : Literal) (span : Span) : Places .atom [⟨.literal v, span⟩] (.literal span v)
  | empty (left right : Span) :
      Places .atom [⟨.symbol .openParen, left⟩, ⟨.symbol .closeParen, right⟩]
        (.tuple (left.cover right) [])
  | group {ls e} {left right : Span} : Places .tuple ls e →
      Places .atom (⟨.symbol .openParen, left⟩ :: (ls ++ [⟨.symbol .closeParen, right⟩])) e
  | list {ls} {left right : Span} {pieces : List Piece} : (∀ p ∈ pieces, Places .expr p.1 p.2) →
      Strung (pieces.map Prod.fst) ls →
      Places .atom (⟨.symbol .openBracket, left⟩ :: (ls ++ [⟨.symbol .closeBracket, right⟩]))
        (.list (left.cover right) (pieces.map Prod.snd))

/-- A statement on its lexemes. -/
inductive PlacesStmt : List Lexeme → Stmt → Prop
  | value {ls e} : Places .tuple ls e → PlacesStmt ls (.value e)
  | assign {n ls e} {span sign : Span} : Places .tuple ls e →
      PlacesStmt (⟨.name n, span⟩ :: ⟨.symbol .assign, sign⟩ :: ls) (.assign ⟨n, span⟩ e)

/-- A program on its lexemes. -/
inductive PlacesProgram : List Lexeme → List Stmt → Prop
  | nil : PlacesProgram [] []
  | separator {l ls stmts} : Grammar.isSeparator l.token = true → PlacesProgram ls stmts →
      PlacesProgram (l :: ls) stmts
  | last {ls stmt} : PlacesStmt ls stmt → PlacesProgram ls [stmt]
  | cons {ls l rest stmt stmts} : PlacesStmt ls stmt → Grammar.isSeparator l.token = true →
      PlacesProgram rest stmts → PlacesProgram (ls ++ l :: rest) (stmt :: stmts)

/-! ### Lists of stretches -/

variable {ls more : List Lexeme} {pieces args : List Piece} {e : Expr} {source : String}

theorem Strung.subset {items : List (List Lexeme)} (h : Strung items ls) :
    ∀ item ∈ items, item ⊆ ls := by
  induction h with
  | none => exact forall_mem_nil _
  | last => exact forall_mem_singleton.2 (List.Subset.refl _)
  | more _ ih =>
    refine forall_mem_cons.2 ⟨subset_append_left _ _, fun item hi => ?_⟩
    exact subset_append_of_subset_right _ (subset_cons_of_subset _ (ih item hi))

theorem Strung.subset_pieces (h : Strung (pieces.map Prod.fst) ls) : ∀ p ∈ pieces, p.1 ⊆ ls :=
  forall_mem_map.1 h.subset

theorem Strung.subset_arguments {named : List NamedPiece}
    (h : Strung (args.map Prod.fst ++ named.map NamedPiece.lexemes) ls) :
    (∀ p ∈ args, p.1 ⊆ ls) ∧ ∀ k ∈ named, k.lexemes ⊆ ls := by
  have hsub := forall_mem_append.1 h.subset
  exact ⟨forall_mem_map.1 hsub.1, forall_mem_map.1 hsub.2⟩

theorem Chained.subset_pieces {word : Keyword} (h : Chained word (pieces.map Prod.fst) ls) :
    ∀ p ∈ pieces, p.1 ⊆ ls := by
  generalize hitems : pieces.map Prod.fst = items at h
  induction h generalizing pieces with
  | none =>
    cases map_eq_nil_iff.1 hitems
    exact forall_mem_nil _
  | more _ ih =>
    obtain ⟨p, pieces, rfl, rfl, hp⟩ := map_eq_cons_iff.1 hitems
    refine forall_mem_cons.2 ⟨?_, fun q hq => ?_⟩
    · exact subset_cons_of_subset _ (subset_append_left _ _)
    · exact subset_cons_of_subset _ (subset_append_of_subset_right _ (ih hp q hq))


/-- Nothing more, or a comma and the items after it. -/
def Further {α : Type} (none : α) (Items : List Lexeme → α → Prop) (ls : List Lexeme) (a : α) :
    Prop :=
  ls = [] ∧ a = none ∨ ∃ span rest, ls = ⟨comma, span⟩ :: rest ∧ Items rest a

theorem Strung.cons {items : List (List Lexeme)}
    (h : Further [] (fun rest items => Strung items rest) more items) (ls : List Lexeme) :
    Strung (ls :: items) (ls ++ more) := by
  rcases h with ⟨rfl, rfl⟩ | ⟨span, rest, rfl, h⟩
  · rw [append_nil]
    exact .last
  · exact .more h

/-- A list of expressions on its lexemes. -/
def PlacesItems (ls : List Lexeme) (es : List Expr) : Prop :=
  ∃ pieces : List Piece, (∀ p ∈ pieces, Places .expr p.1 p.2) ∧
    Strung (pieces.map Prod.fst) ls ∧ es = pieces.map Prod.snd

theorem PlacesItems.nil : PlacesItems [] [] := ⟨[], forall_mem_nil _, .none, rfl⟩

theorem PlacesItems.cons {ls more : List Lexeme} {e : Expr} {es : List Expr}
    (he : Places .expr ls e) (h : Further [] PlacesItems more es) :
    PlacesItems (ls ++ more) (e :: es) := by
  rcases h with ⟨rfl, rfl⟩ | ⟨span, rest, rfl, pieces, hp, hs, rfl⟩
  · exact ⟨[(ls, e)], forall_mem_singleton.2 he, .cons (.inl ⟨rfl, rfl⟩) ls, rfl⟩
  · exact ⟨(ls, e) :: pieces, forall_mem_cons.2 ⟨he, hp⟩, .more hs, rfl⟩

/-- The arguments of a call on their lexemes; after one by name all are by name. -/
def PlacesArguments (named : Bool) (ls : List Lexeme) (a : Grammar.Arguments) : Prop :=
  ∃ (args : List Piece) (keywords : List NamedPiece), (named = true → args = []) ∧
    (∀ p ∈ args, Places .expr p.1 p.2) ∧ (∀ k ∈ keywords, Places .expr k.value.1 k.value.2) ∧
    Strung (args.map Prod.fst ++ keywords.map NamedPiece.lexemes) ls ∧
    a = ⟨args.map Prod.snd, keywords.map NamedPiece.keyword⟩

theorem PlacesArguments.nil (named : Bool) : PlacesArguments named [] ⟨[], []⟩ :=
  ⟨[], [], fun _ => rfl, forall_mem_nil _, forall_mem_nil _, .none, rfl⟩

theorem PlacesArguments.positional {ls more : List Lexeme} {e : Expr} {a : Grammar.Arguments}
    (he : Places .expr ls e) (h : Further ⟨[], []⟩ (PlacesArguments false) more a) :
    PlacesArguments false (ls ++ more) ⟨e :: a.positional, a.keywords⟩ := by
  rcases h with ⟨rfl, rfl⟩ | ⟨span, rest, rfl, args, keywords, -, ha, hk, hs, rfl⟩
  · exact ⟨[(ls, e)], [], nofun, forall_mem_singleton.2 he, forall_mem_nil _,
      .cons (.inl ⟨rfl, rfl⟩) ls, rfl⟩
  · exact ⟨(ls, e) :: args, keywords, nofun, forall_mem_cons.2 ⟨he, ha⟩, hk, .more hs, rfl⟩

theorem PlacesArguments.named {named : Bool} {more : List Lexeme} (k : NamedPiece)
    {a : Grammar.Arguments} (hv : Places .expr k.value.1 k.value.2)
    (h : Further ⟨[], []⟩ (PlacesArguments true) more a) :
    PlacesArguments named (k.lexemes ++ more) ⟨a.positional, k.keyword :: a.keywords⟩ := by
  rcases h with ⟨rfl, rfl⟩ | ⟨span, rest, rfl, args, keywords, hn, ha, hk, hs, rfl⟩
  · exact ⟨[], [k], fun _ => rfl, forall_mem_nil _, forall_mem_singleton.2 hv,
      .cons (.inl ⟨rfl, rfl⟩) k.lexemes, rfl⟩
  · cases hn rfl
    exact ⟨[], k :: keywords, fun _ => rfl, ha, forall_mem_cons.2 ⟨hv, hk⟩, .more hs, rfl⟩

/-- The operands of a chain after the first, each behind the keyword. -/
def PlacesLinks (op : BoolOp) (ls : List Lexeme) (es : List Expr) : Prop :=
  ∃ pieces : List Piece, (∀ p ∈ pieces, Places (chainOperand op) p.1 p.2) ∧
    Chained (Grammar.chainWord op) (pieces.map Prod.fst) ls ∧ es = pieces.map Prod.snd

theorem PlacesLinks.cons {op : BoolOp} {es : List Expr} {span : Span}
    (he : Places (chainOperand op) ls e) (h : PlacesLinks op more es) :
    PlacesLinks op (⟨.keyword (Grammar.chainWord op), span⟩ :: (ls ++ more)) (e :: es) := by
  obtain ⟨pieces, hp, hc, rfl⟩ := h
  exact ⟨(ls, e) :: pieces, forall_mem_cons.2 ⟨he, hp⟩, .more hc, rfl⟩

/-! ### What is read is placed -/

/-- Whatever is read is placed on the lexemes that are used up. -/
def Placed {α : Type} {bound : Nat} (D : List Lexeme → α → Prop) (c : Cursor)
    (x : Except SyntaxError (Read α bound)) : Prop :=
  ∀ r, x = .ok r → ∃ used, c.view = used ++ r.rest.view ∧ D used r.value

section

variable {α β : Type} {m n : Nat} {C : List Lexeme → α → Prop} {D : List Lexeme → β → Prop}
  {c : Cursor}

theorem placed_ok {r : Read α m} (hr : r.rest = c) (h : C [] r.value) : Placed C c (.ok r) := by
  intro r' hr'
  cases hr'
  exact ⟨[], by rw [hr]; rfl, h⟩

theorem placed_error {e : SyntaxError} : Placed C c (.error e : Except SyntaxError (Read α m)) := by
  intro r h
  cases h

theorem Placed.bind {x : Except SyntaxError (Read α m)}
    {f : Read α m → Except SyntaxError (Read β n)} (hx : Placed C c x)
    (hf : ∀ (r : Read α m) (used : List Lexeme), C used r.value →
      Placed (fun more => D (used ++ more)) r.rest (f r)) : Placed D c (x >>= f) := by
  intro r h
  obtain ⟨a, ha, hb⟩ := except_bind_eq_ok.1 h
  obtain ⟨used, hu, hc⟩ := hx a ha
  obtain ⟨more, hm, hd⟩ := hf a used hc r hb
  exact ⟨used ++ more, by rw [hu, hm, append_assoc], hd⟩

variable {before : Cursor}

/-- Lexemes that are known, used up first. -/
theorem Placed.stretch {x : Except SyntaxError (Read β n)} (used : List Lexeme)
    (hv : before.view = used ++ c.view) (h : Placed (fun more => D (used ++ more)) c x) :
    Placed D before x := by
  intro r hr
  obtain ⟨more, hm, hd⟩ := h r hr
  exact ⟨used ++ more, by rw [hv, hm, append_assoc], hd⟩

/-- The lexeme at the head, used up first. -/
theorem Placed.head {l : Lexeme} {x : Except SyntaxError (Read β n)}
    (hv : before.view = l :: c.view) (h : Placed (fun more => D (l :: more)) c x) :
    Placed D before x :=
  .stretch [l] hv h

/-- What is done with a reading that is returned as it is. -/
theorem Placed.done {x : Except SyntaxError (Read α m)} {f : Read α m → Read β n}
    (hx : Placed C c x) (hrest : ∀ r, (f r).rest = r.rest)
    (h : ∀ r used, C used r.value → D used (f r).value) :
    Placed D c (x >>= fun r => pure (f r)) := by
  refine hx.bind fun r used hc => placed_ok (hrest r) ?_
  rw [append_nil]
  exact h r used hc

end

namespace Grammar

open Cursor (view_next view_eat)

variable {c : Cursor}

theorem placed_expect {token : Token} {expected : Expected} :
    Placed (fun used span => used = [⟨token, span⟩]) c (c.expect token expected) := by
  rw [Cursor.expect]
  split
  · exact placed_error
  · rename_i sign hs
    exact .head (view_eat hs) (placed_ok rfl rfl)

/-- A token that is no bracket leaves the depth as it is, so that the entry after it is seen. -/
theorem peekNth_one {l : Lexeme} {ls : List Lexeme} (hv : c.view = l :: ls)
    (hd : Lexeme.depthAfter c.depth l.token = c.depth) :
    c.peekNth 1 = ls.head?.map Lexeme.token := by
  rw [Cursor.peekNth_eq, hv, head?_eq_getElem?]
  · rfl
  · rw [hv]
    exact forall_mem_singleton.2 hd

theorem tokens_compareSign? {t : Token} {op : CompareOp} (h : compareSign? t = some op) :
    [t] = op.tokens := by
  unfold compareSign? at h
  split at h <;> cases h <;> rfl

theorem tokens_compareOp? {op : Read CompareOp c.left} (h : compareOp? c = some op) :
    ∃ used, c.view = used ++ op.rest.view ∧ used.map Lexeme.token = op.value.tokens := by
  obtain ⟨head, hh, h⟩ := Option.bind_eq_some_iff.1 h
  have hv := view_next hh
  split at h
  · rename_i sign hs
    cases h
    exact ⟨[head.value], hv, tokens_compareSign? hs⟩
  · split at h
    · rename_i hin
      obtain ⟨second, hs, h⟩ := Option.bind_eq_some_iff.1 h
      cases h
      rw [peekNth_one hv (by rw [hin.1]; rfl), view_next hs] at hin
      refine ⟨[head.value, second.value], by rw [hv, view_next hs]; rfl, ?_⟩
      rw [map_cons, hin.1, map_singleton, Option.some.inj hin.2]
      rfl
    · cases h

theorem view_target? {name : Read Name c.left} (h : target? c = some name) :
    ∃ sign, c.view = ⟨.name name.value.text, name.value.span⟩ :: ⟨.symbol .assign, sign⟩ ::
      name.rest.view := by
  obtain ⟨⟨⟨token, span⟩, rest, hr⟩, hh, h⟩ := Option.bind_eq_some_iff.1 h
  have hv := view_next hh
  dsimp only at h hv
  split at h
  · rename_i ha
    obtain ⟨⟨⟨token, sign⟩, after, hr'⟩, hs, h⟩ := Option.bind_eq_some_iff.1 h
    cases h
    rw [peekNth_one hv rfl, view_next hs] at ha
    cases ha
    exact ⟨sign, by rw [hv, view_next hs]⟩
  · cases h

theorem callee?_eq_some {base : Expr} {callee : Name} (h : base.callee? = some callee) :
    base = .name callee.span callee.text := by
  cases base with
  | name span n =>
    cases h
    rfl
  | _ => cases h

mutual

theorem placed_tuple (c : Cursor) : Placed (Places .tuple) c (tuple c) := by
  rw [tuple]
  refine (placed_expr c).bind fun head used hv => ?_
  have hh := head.fewer
  split
  · rename_i hcomma
    refine (placed_tupleTail head.rest).done (fun _ => rfl) fun more tail hm => ?_
    obtain ⟨⟨rfl, -⟩ | ⟨span, rest, rfl, pieces, hp, hs, hes⟩, hne⟩ := hm
    · exact absurd rfl (hne hcomma)
    · dsimp only
      rw [hes]
      exact .tuple hv hp hs
  · exact placed_ok rfl (by rw [append_nil]; exact .item hv)
termination_by 32 * c.left + 17
decreasing_by all_goals omega

theorem placed_tupleTail (c : Cursor) :
    Placed (fun used es => Further [] PlacesItems used es ∧ (c.peek = some comma → used ≠ [])) c
      (tupleTail c) := by
  rw [tupleTail]
  split
  · rename_i sign hs
    have hlt := sign.fewer
    refine .head (view_eat hs) ?_
    split
    · refine (placed_expr sign.rest).bind fun item used hv => ?_
      have hi := item.fewer
      refine (placed_tupleTail item.rest).done (fun _ => rfl) fun more tail hm => ?_
      exact ⟨.inr ⟨_, _, rfl, .cons hv hm.1⟩, fun _ => cons_ne_nil _ _⟩
    · exact placed_ok rfl ⟨.inr ⟨_, [], rfl, .nil⟩, fun _ => cons_ne_nil _ _⟩
  · rename_i hnone
    exact placed_ok rfl ⟨.inl ⟨rfl, rfl⟩, fun hc => absurd hc (Cursor.eat_eq_none.1 hnone)⟩
termination_by 32 * c.left
decreasing_by all_goals omega

theorem placed_expr (c : Cursor) : Placed (Places .expr) c (expr c) := by
  rw [expr]
  refine (placed_chain .or c).bind fun yes ys hy => ?_
  have hlt := yes.fewer
  split
  · rename_i mark hmark
    have hm := mark.fewer
    refine .head (view_eat hmark) ((placed_chain .or mark.rest).bind fun test cs hc => ?_)
    have ht := test.fewer
    refine placed_expect.bind fun other used hused => ?_
    subst hused
    have ho := other.fewer
    exact (placed_expr other.rest).done (fun _ => rfl) fun no ns hn => .conditional hy hc hn
  · exact placed_ok rfl (by rw [append_nil]; exact .unconditional hy)
termination_by 32 * c.left + 16
decreasing_by all_goals (try simp only [chainRank]); omega

theorem placed_chain (op : BoolOp) (c : Cursor) : Placed (Places (.chain op)) c (chain op c) := by
  rw [chain.eq_def]
  have operand : Placed (Places (chainOperand op)) c (match op with
      | .or => chain .and c
      | .and => negation c) := by
    cases hop : op with
    | or => exact placed_chain .and c
    | and => exact placed_negation c
  refine operand.bind fun head used hv => ?_
  have hh := head.fewer
  refine (placed_chainTail op head.rest).done (fun _ => rfl) fun more tail hm => ?_
  obtain ⟨pieces, hp, hc, hes⟩ := hm
  cases pieces with
  | nil =>
    cases hc
    rw [hes, append_nil]
    exact .link hv
  | cons p pieces =>
    rw [hes]
    exact .chain hv hp (cons_ne_nil p pieces) hc
termination_by 32 * c.left + chainRank op
decreasing_by all_goals subst_vars; (try simp only [chainRank]); omega

theorem placed_chainTail (op : BoolOp) (c : Cursor) :
    Placed (PlacesLinks op) c (chainTail op c) := by
  rw [chainTail.eq_def]
  split
  · rename_i word hword
    have hw := word.fewer
    have item : Placed (Places (chainOperand op)) word.rest (match op with
        | .or => chain .and word.rest
        | .and => negation word.rest) := by
      cases op with
      | or => exact placed_chain .and word.rest
      | and => exact placed_negation word.rest
    refine .head (view_eat hword) (item.bind fun item used hv => ?_)
    have hi := item.fewer
    exact (placed_chainTail op item.rest).done (fun _ => rfl) fun more tail hm => .cons hv hm
  · exact placed_ok rfl ⟨[], forall_mem_nil _, .none, rfl⟩
termination_by 32 * c.left
decreasing_by all_goals (try simp only [chainRank]); omega

theorem placed_negation (c : Cursor) : Placed (Places .negation) c (negation c) := by
  rw [negation]
  split
  · rename_i word hword
    have hw := word.fewer
    exact .head (view_eat hword) ((placed_negation word.rest).done (fun _ => rfl)
      fun operand used hv => .not hv)
  · intro r hr
    obtain ⟨used, hu, hv⟩ := placed_comparison c r hr
    exact ⟨used, hu, .positive hv⟩
termination_by 32 * c.left + 13
decreasing_by all_goals omega

theorem placed_comparison (c : Cursor) : Placed (Places .comparison) c (comparison c) := by
  rw [comparison]
  refine (placed_level .bitOr c).bind fun lhs used hl => ?_
  have hlt := lhs.fewer
  split
  · exact placed_ok rfl (by rw [append_nil]; exact .uncompared hl)
  · rename_i op hop
    have ho := op.fewer
    obtain ⟨signs, hu, ht⟩ := tokens_compareOp? hop
    refine .stretch signs hu ((placed_level .bitOr op.rest).bind fun rhs tail hr => ?_)
    split
    · exact placed_error
    · refine placed_ok rfl ?_
      rw [append_nil]
      exact .compare ht hl hr
termination_by 32 * c.left + 12
decreasing_by all_goals simp only [Level.rank]; omega

theorem placed_level (l : Level) (c : Cursor) : Placed (Places (.level l)) c (level l c) := by
  rw [level]
  have head : Placed (Places (levelOperand l)) c (match _ : l.tighter? with
      | some m => level m c
      | none => factor c) := by
    split
    · rename_i m hm
      have hlt := Level.rank_tighter? hm
      rw [levelOperand, hm]
      exact placed_level m c
    · rename_i hm
      rw [levelOperand, hm]
      exact placed_factor c
  refine head.bind fun head used hv => ?_
  have hh := head.fewer
  exact (placed_levelTail l head.value head.rest (.operand hv)).done (fun _ => rfl)
    fun more tail hm => hm
termination_by 32 * c.left + 7 + l.rank
decreasing_by all_goals omega

/-- The left operand has been placed on the lexemes before the tail. -/
theorem placed_levelTail (l : Level) (lhs : Expr) (c : Cursor) {used : List Lexeme}
    (hv : Places (.level l) used lhs) :
    Placed (fun more => Places (.level l) (used ++ more)) c (levelTail l lhs c) := by
  rw [levelTail]
  split
  · exact placed_ok rfl (by rwa [append_nil])
  · rename_i head hhead
    have hh := head.fewer
    split
    · exact placed_ok rfl (by rwa [append_nil])
    · rename_i op hop
      have rhs : Placed (Places (levelOperand l)) head.rest (match _ : l.tighter? with
          | some m => level m head.rest
          | none => factor head.rest) := by
        split
        · rename_i m hm
          have hlt := Level.rank_tighter? hm
          rw [levelOperand, hm]
          exact placed_level m head.rest
        · rename_i hm
          rw [levelOperand, hm]
          exact placed_factor head.rest
      refine .head (view_next hhead) (rhs.bind fun rhs more hr => ?_)
      have hlt := rhs.fewer
      refine (placed_levelTail l _ rhs.rest (.binary hop hv hr)).done (fun _ => rfl)
        fun whole tail hw => ?_
      rw [append_assoc, cons_append] at hw
      exact hw
termination_by 32 * c.left
decreasing_by all_goals have := l.rank_le; omega

theorem placed_factor (c : Cursor) : Placed (Places .factor) c (factor c) := by
  rw [factor]
  split
  · rename_i sign hs
    have hlt := sign.fewer
    exact .head (view_eat hs) ((placed_factor sign.rest).done (fun _ => rfl)
      fun operand used hv => .sign ⟨.symbol .minus, sign.value⟩ rfl hv)
  · split
    · rename_i sign hs
      have hlt := sign.fewer
      exact .head (view_eat hs) ((placed_factor sign.rest).done (fun _ => rfl)
        fun operand used hv => .sign ⟨.symbol .tilde, sign.value⟩ rfl hv)
    · intro r hr
      obtain ⟨used, hu, hv⟩ := placed_power c r hr
      exact ⟨used, hu, .unsigned hv⟩
termination_by 32 * c.left + 6
decreasing_by all_goals omega

theorem placed_power (c : Cursor) : Placed (Places .power) c (power c) := by
  rw [power]
  refine (placed_primary c).bind fun base used hb => ?_
  have hlt := base.fewer
  split
  · rename_i sign hs
    have hsign := sign.fewer
    exact .head (view_eat hs) ((placed_factor sign.rest).done (fun _ => rfl)
      fun exponent tail he => .power hb he)
  · exact placed_ok rfl (by rw [append_nil]; exact .base hb)
termination_by 32 * c.left + 5
decreasing_by all_goals omega

theorem placed_primary (c : Cursor) : Placed (Places .primary) c (primary c) := by
  rw [primary]
  refine (placed_atom c).bind fun base used hb => ?_
  have hlt := base.fewer
  exact (placed_primaryTail base.value base.rest (.bare hb)).done (fun _ => rfl)
    fun whole tail hw => hw
termination_by 32 * c.left + 4
decreasing_by all_goals omega

theorem placed_primaryTail (base : Expr) (c : Cursor) {used : List Lexeme}
    (hb : Places .primary used base) :
    Placed (fun more => Places .primary (used ++ more)) c (primaryTail base c) := by
  rw [primaryTail]
  split
  · rename_i left hleft
    have hl := left.fewer
    split
    · rename_i callee hcallee
      refine .head (view_eat hleft) ((placed_arguments false left.rest).bind
        fun args inner ha => ?_)
      have hla := args.fewer
      refine placed_expect.bind fun close last hlast => ?_
      subst hlast
      have hlc := close.fewer
      have hcall : Places .primary (used ++ ⟨.symbol .openParen, left.value⟩ ::
          (inner ++ [⟨.symbol .closeParen, close.value⟩]))
          (.call (callee.span.cover close.value) callee args.value.positional
            args.value.keywords) := by
        obtain ⟨pieces, keywords, -, hp, hk, hs, hargs⟩ := ha
        rw [callee?_eq_some hcallee] at hb
        rw [hargs]
        exact .call hb hp hk hs
      refine (placed_primaryTail _ close.rest hcall).done (fun _ => rfl) fun whole ws hw => ?_
      rw [append_assoc, cons_append, append_assoc] at hw
      exact hw
    · exact placed_error
  · split
    · rename_i left hleft
      have hl := left.fewer
      refine .head (view_eat hleft) ((placed_tuple left.rest).bind fun index inner hi => ?_)
      have hli := index.fewer
      refine placed_expect.bind fun close last hlast => ?_
      subst hlast
      have hlc := close.fewer
      have helement : Places .primary (used ++ ⟨.symbol .openBracket, left.value⟩ ::
          (inner ++ [⟨.symbol .closeBracket, close.value⟩]))
          (.subscript (base.span.cover close.value) base index.value) := .subscript hb hi
      refine (placed_primaryTail _ close.rest helement).done (fun _ => rfl) fun whole ws hw => ?_
      rw [append_assoc, cons_append, append_assoc] at hw
      exact hw
    · exact placed_ok rfl (by rwa [append_nil])
termination_by 32 * c.left
decreasing_by all_goals omega

theorem placed_arguments (named : Bool) (c : Cursor) :
    Placed (PlacesArguments named) c (arguments named c) := by
  rw [arguments.eq_def]
  split
  · exact placed_ok rfl (.nil named)
  · exact placed_error
  · exact placed_error
  · split
    · rename_i name hname
      have hn := name.fewer
      obtain ⟨sign, hv⟩ := view_target? hname
      refine .stretch [_, _] hv ((placed_expr name.rest).bind fun value used hv => ?_)
      have hlv := value.fewer
      exact (placed_argumentsTail true value.rest).done (fun _ => rfl) fun more tail hm =>
        .named ⟨name.value, sign, used, value.value⟩ hv hm
    · split
      · exact placed_error
      · rename_i hn
        rw [Bool.not_eq_true] at hn
        refine (placed_expr c).bind fun value used hv => ?_
        have hlv := value.fewer
        refine (placed_argumentsTail false value.rest).done (fun _ => rfl) fun more tail hm => ?_
        rw [hn]
        exact .positional hv hm
termination_by 32 * c.left + 18
decreasing_by all_goals omega

theorem placed_argumentsTail (named : Bool) (c : Cursor) :
    Placed (Further ⟨[], []⟩ (PlacesArguments named)) c (argumentsTail named c) := by
  rw [argumentsTail]
  split
  · rename_i sign hs
    have hlt := sign.fewer
    exact .head (view_eat hs) ((placed_arguments named sign.rest).done (fun _ => rfl)
      fun more used hm => .inr ⟨_, used, rfl, hm⟩)
  · exact placed_ok rfl (.inl ⟨rfl, rfl⟩)
termination_by 32 * c.left
decreasing_by all_goals omega

theorem placed_items (c : Cursor) : Placed PlacesItems c (items c) := by
  rw [items]
  split
  · exact placed_ok rfl .nil
  · refine (placed_expr c).bind fun item used hv => ?_
    have hi := item.fewer
    split
    · rename_i sign hs
      have hlt := sign.fewer
      exact .head (view_eat hs) ((placed_items sign.rest).done (fun _ => rfl) fun more tail hm =>
        .cons hv (.inr ⟨_, tail, rfl, hm⟩))
    · exact placed_ok rfl (.cons hv (.inl ⟨rfl, rfl⟩))
termination_by 32 * c.left + 18
decreasing_by all_goals omega

theorem placed_atom (c : Cursor) : Placed (Places .atom) c (atom c) := by
  rw [atom.eq_def]
  split
  · exact placed_error
  · rename_i head hhead
    obtain ⟨⟨token, span⟩, rest, hlt⟩ := head
    refine .head (view_next hhead) ?_
    dsimp only
    split
    · exact placed_ok rfl (.name _ _)
    · exact placed_ok rfl (.literal _ _)
    · split
      · rename_i close hclose
        exact .head (view_eat hclose) (placed_ok rfl (.empty _ _))
      · refine (placed_tuple rest).bind fun inner used hv => ?_
        have hi := inner.fewer
        refine placed_expect.done (fun _ => rfl) fun close last hlast => ?_
        subst hlast
        exact .group hv
    · refine (placed_items rest).bind fun inner used hv => ?_
      have hi := inner.fewer
      refine placed_expect.done (fun _ => rfl) fun close last hlast => ?_
      subst hlast
      obtain ⟨pieces, hp, hs, hes⟩ := hv
      dsimp only
      rw [hes]
      exact .list hp hs
    · exact placed_error
termination_by 32 * c.left + 3
decreasing_by all_goals omega

end

theorem placed_statement (c : Cursor) : Placed PlacesStmt c (statement c) := by
  have closing {bound : Nat} {D : List Lexeme → Stmt → Prop} (whole : Read Stmt bound)
      (h : D [] whole.value) : Placed D whole.rest (closed whole) := by
    rw [closed]
    split
    · exact placed_error
    · exact placed_ok rfl h
  rw [statement]
  split
  · rename_i name hname
    obtain ⟨sign, hv⟩ := view_target? hname
    refine .stretch [_, _] hv ((placed_tuple name.rest).bind fun value used hv => ?_)
    refine closing ⟨_, value.rest, _⟩ ?_
    rw [append_nil]
    exact .assign hv
  · refine (placed_tuple c).bind fun value used hv => ?_
    refine closing (value.map .value) ?_
    rw [append_nil]
    exact .value hv

theorem view_separator? {sign : Read Lexeme c.left} (h : separator? c = some sign) :
    c.view = sign.value :: sign.rest.view ∧ isSeparator sign.value.token = true := by
  obtain ⟨hn, hs⟩ := Option.filter_eq_some_iff.1 h
  exact ⟨view_next hn, hs⟩

/-- Where no token is left, no lexeme is seen. -/
theorem view_eq_nil (h : c.peek = none) : c.view = [] := by
  rw [Cursor.peek_eq, Option.map_eq_none_iff, head?_eq_none_iff] at h
  exact h

/-- The statements that are read are placed on the lexemes. -/
theorem places_statements {stmts : List Stmt} (hs : statements c = .ok stmts) :
    PlacesProgram c.view stmts := by
  induction c using statements.induct generalizing stmts with
  | case1 c sign hsign ih =>
    rw [statements, hsign] at hs
    obtain ⟨hv, hsep⟩ := view_separator? hsign
    rw [hv]
    exact .separator hsep (ih hs)
  | case2 c hnone hend =>
    rw [statements, hnone] at hs
    dsimp only at hs
    rw [if_pos hend] at hs
    cases hs
    rw [view_eq_nil hend]
    exact .nil
  | case3 c hnone hmore ih =>
    rw [statements, hnone] at hs
    dsimp only at hs
    rw [if_neg hmore] at hs
    obtain ⟨head, hh, hs⟩ := except_bind_eq_ok.1 hs
    obtain ⟨used, hu, hd⟩ := placed_statement c head hh
    rw [hu]
    split at hs
    · rename_i sign hsign
      obtain ⟨more, hm, hs⟩ := except_bind_eq_ok.1 hs
      cases hs
      obtain ⟨hv, hsep⟩ := view_separator? hsign
      rw [hv]
      exact .cons hd hsep (ih head sign hm)
    · split at hs
      · rename_i hend
        cases hs
        rw [view_eq_nil hend, append_nil]
        exact .last hd
      · cases hs

end Grammar

/-- The tree of a source text is placed on its lexemes. -/
theorem places_parse (h : Expr.parse source = .ok e) :
    ∃ ls, Lexeme.scan source = .ok ls ∧ Places .tuple ls e := by
  obtain ⟨c, hc, h⟩ := except_bind_eq_ok.1 h
  obtain ⟨whole, hw, h⟩ := except_bind_eq_ok.1 h
  obtain ⟨used, hu, hp⟩ := Grammar.placed_tuple c whole hw
  split at h
  · rename_i hrest
    cases h
    rw [Grammar.view_eq_nil hrest, append_nil] at hu
    exact ⟨c.view, Cursor.scan_eq_ok.2 ⟨c, hc, rfl⟩, hu ▸ hp⟩
  · cases h

/-- The statements of a source text are placed on its lexemes. -/
theorem places_parseAll {stmts : List Stmt} (h : Stmt.parseAll source = .ok stmts) :
    ∃ ls, Lexeme.scan source = .ok ls ∧ PlacesProgram ls stmts := by
  obtain ⟨c, hc, hs⟩ := except_bind_eq_ok.1 h
  exact ⟨c.view, Cursor.scan_eq_ok.2 ⟨c, hc, rfl⟩, Grammar.places_statements hs⟩

/-! ### Places left out -/

/-- A piece without places. -/
def Piece.part (p : Piece) : Part := (p.1.map Lexeme.token, p.2.unplaced)

def NamedPiece.part (k : NamedPiece) : NamedPart := (k.name.text, Piece.part k.value)

theorem unplacedAll_pieces (pieces : List Piece) :
    Expr.unplacedAll (pieces.map Prod.snd) = (pieces.map Piece.part).map Prod.snd := by
  induction pieces with
  | nil => rfl
  | cons p pieces ih =>
    rw [map_cons, Expr.unplacedAll, ih]
    rfl

theorem unplacedKeywords_pieces (named : List NamedPiece) :
    Expr.unplacedKeywords (named.map NamedPiece.keyword)
      = (named.map NamedPiece.part).map NamedPart.keyword := by
  induction named with
  | nil => rfl
  | cons k named ih =>
    rw [map_cons, NamedPiece.keyword, Expr.unplacedKeywords, ih]
    rfl

theorem Strung.listed {items : List (List Lexeme)} (h : Strung items ls) :
    Listed (items.map (List.map Lexeme.token)) (ls.map Lexeme.token) := by
  induction h with
  | none => exact .none
  | last => exact .last
  | more _ ih =>
    rw [map_append]
    exact .more ih

theorem Strung.listed_parts (h : Strung (pieces.map Prod.fst) ls) :
    Listed ((pieces.map Piece.part).map Prod.fst) (ls.map Lexeme.token) := by
  have hl := h.listed
  rwa [map_map] at hl ⊢

theorem Strung.listed_arguments {named : List NamedPiece}
    (h : Strung (args.map Prod.fst ++ named.map NamedPiece.lexemes) ls) :
    Listed (argumentTokens (args.map Piece.part) (named.map NamedPiece.part))
      (ls.map Lexeme.token) := by
  have hl := h.listed
  rw [map_append, map_map, map_map] at hl
  rwa [argumentTokens, map_map, map_map]

theorem Chained.linked {word : Keyword} {pieces : List Piece} {ls : List Lexeme}
    (h : Chained word (pieces.map Prod.fst) ls) :
    ls.map Lexeme.token = Syntax.linked word (pieces.map Piece.part) := by
  generalize hitems : pieces.map Prod.fst = items at h
  induction h generalizing pieces with
  | none =>
    cases map_eq_nil_iff.1 hitems
    rfl
  | more _ ih =>
    obtain ⟨p, pieces, rfl, rfl, hp⟩ := map_eq_cons_iff.1 hitems
    rw [map_cons, map_append, ih hp]
    rfl

/-- What is placed on lexemes is derived from their tokens. -/
theorem Places.derives {rule : Rule} (h : Places rule ls e) :
    Derives rule (ls.map Lexeme.token) e.unplaced := by
  induction h with
  | item _ ih => exact .item ih
  | tuple _ _ hs ih ihp =>
    rw [map_append, Expr.unplaced, Expr.unplacedAll, unplacedAll_pieces]
    exact .tuple ih (forall_mem_map.2 ihp) hs.listed_parts
  | unconditional _ ih => exact .unconditional ih
  | conditional _ _ _ ihy iht ihn =>
    rw [map_append, map_cons, map_append]
    exact .conditional ihy iht ihn
  | link _ ih => exact .link ih
  | chain _ _ hne hc ih ihp =>
    rw [map_append, hc.linked, Expr.unplaced, Expr.unplacedAll, unplacedAll_pieces]
    exact .chain ih (forall_mem_map.2 ihp) (by simpa using hne)
  | positive _ ih => exact .positive ih
  | not _ ih => exact .not ih
  | uncompared _ ih => exact .uncompared ih
  | compare hop _ _ ihl ihr =>
    rw [map_append, map_append, hop]
    exact .compare ihl ihr
  | operand _ ih => exact .operand ih
  | binary hop _ _ ihl ihr =>
    rw [map_append]
    exact .binary hop ihl ihr
  | unsigned _ ih => exact .unsigned ih
  | sign _ hop _ ih => exact .sign hop ih
  | base _ ih => exact .base ih
  | power _ _ ihb ihe =>
    rw [map_append]
    exact .power ihb ihe
  | bare _ ih => exact .bare ih
  | call _ _ _ hs ihf iha ihk =>
    rw [map_append, map_cons, map_append, Expr.unplaced, unplacedAll_pieces,
      unplacedKeywords_pieces]
    exact .call ihf (forall_mem_map.2 iha) (forall_mem_map.2 ihk) hs.listed_arguments
  | subscript _ _ ihb ihi =>
    rw [map_append, map_cons, map_append]
    exact .subscript ihb ihi
  | name n => exact .name n
  | literal v => exact .literal v
  | empty => exact .empty
  | group _ ih =>
    rw [map_cons, map_append]
    exact .group ih
  | list _ hs ihp =>
    rw [map_cons, map_append, Expr.unplaced, unplacedAll_pieces]
    exact .list (forall_mem_map.2 ihp) hs.listed_parts

theorem PlacesStmt.derives {ls : List Lexeme} {stmt : Stmt} (h : PlacesStmt ls stmt) :
    DerivesStmt (ls.map Lexeme.token) stmt.unplaced := by
  cases h with
  | value h => exact .value h.derives
  | assign h => exact .assign h.derives

theorem PlacesProgram.derives {ls : List Lexeme} {stmts : List Stmt} (h : PlacesProgram ls stmts) :
    DerivesProgram (ls.map Lexeme.token) (stmts.map Stmt.unplaced) := by
  induction h with
  | nil => exact .blank (forall_mem_nil _)
  | separator hl _ ih => exact .separator hl ih
  | last h => exact .single h.derives
  | cons h hl _ ih =>
    rw [map_append]
    exact .cons h.derives hl ih

end Syntax

end RowAwk
