import RowAwk.Proofs.Recognition
import RowAwk.Proofs.Spelling

/-!
Trees that are shown as texts and read again.

The text of a tree has a parenthesis around every operation, so its tokens are derived to the same
tree with no regard to how tightly operators bind.

    -a ** 2 + b    ──read──▶   sum of (minus (a to the power 2)) and b
                   ──text──▶   ((-(a ** 2)) + b)   ──read──▶   the same tree

Two things are lost in a text: a tuple with a single item looks like its item in parentheses, and
some characters of strings are shown by escapes that no source has. All other trees that can be
read from a source are read again from their texts.
-/

open List

namespace RowAwk.Syntax

open Lexeme (Apart Cuts Loose alone)
open RowAwk.Syntax.Expr

variable {ts : List Token} {stmts : List Stmt}

/-! ### Plain trees -/

/-- Whether the text of a literal keeps all its characters. -/
def Literal.isPlain : Literal → Bool
  | .string value => value.toList.all Lexeme.isPlain
  | _ => true

namespace Expr

mutual

/-- Whether no tuple has a single item, and all literals are plain. -/
def isPlain : Expr → Bool
  | .literal _ value => value.isPlain
  | .name _ _ => true
  | .tuple _ items => items.length != 1 && allPlain items
  | .list _ items => allPlain items
  | .call _ _ args keywords => allPlain args && keywordsPlain keywords
  | .subscript _ base index => isPlain base && isPlain index
  | .unary _ _ operand => isPlain operand
  | .binary _ _ lhs rhs => isPlain lhs && isPlain rhs
  | .boolean _ _ operands => allPlain operands
  | .compare _ _ lhs rhs => isPlain lhs && isPlain rhs
  | .conditional _ test yes no => isPlain test && isPlain yes && isPlain no

def allPlain : List Expr → Bool
  | [] => true
  | e :: es => isPlain e && allPlain es

def keywordsPlain : List (KeywordArg Expr) → Bool
  | [] => true
  | ⟨_, e⟩ :: rest => isPlain e && keywordsPlain rest

end

end Expr

/-- The expression of a statement, whether its value gets a name or not. -/
def Stmt.expr : Stmt → Expr
  | .assign _ e => e
  | .value e => e

def Stmt.isPlain (s : Stmt) : Bool := s.expr.isPlain

/-! ### Places do not show -/

namespace Expr

theorem length_unplacedAll (es : List Expr) : (unplacedAll es).length = es.length := by
  induction es with
  | nil => rfl
  | cons e es ih => rw [unplacedAll, length_cons, length_cons, ih]

mutual

theorem shows_unplaced : ∀ e : Expr, e.unplaced.text = e.text ∧ e.unplaced.isPlain = e.isPlain
  | .literal _ _ | .name _ _ => ⟨rfl, rfl⟩
  | .tuple _ items => by
    simp only [unplaced, text, isPlain, length_unplacedAll, showAll_unplaced items, and_self]
  | .list _ items | .boolean _ _ items => by
    simp only [unplaced, text, isPlain, showAll_unplaced items, and_self]
  | .call _ _ args keywords => by
    simp only [unplaced, text, isPlain, showAll_unplaced args, keywordsShow_unplaced keywords,
      and_self]
  | .unary _ op operand => by
    cases op <;> simp only [unplaced, text, isPlain, shows_unplaced operand, and_self]
  | .subscript _ lhs rhs | .binary _ _ lhs rhs | .compare _ _ lhs rhs => by
    simp only [unplaced, text, isPlain, shows_unplaced lhs, shows_unplaced rhs, and_self]
  | .conditional _ test yes no => by
    simp only [unplaced, text, isPlain, shows_unplaced test, shows_unplaced yes,
      shows_unplaced no, and_self]

theorem showAll_unplaced : ∀ es : List Expr,
    texts (unplacedAll es) = texts es ∧ allPlain (unplacedAll es) = allPlain es
  | [] => ⟨rfl, rfl⟩
  | e :: es => by
    simp only [unplacedAll, texts, allPlain, shows_unplaced e, showAll_unplaced es, and_self]

theorem keywordsShow_unplaced : ∀ ks : List (KeywordArg Expr),
    keywordTexts (unplacedKeywords ks) = keywordTexts ks ∧
      keywordsPlain (unplacedKeywords ks) = keywordsPlain ks
  | [] => ⟨rfl, rfl⟩
  | ⟨n, e⟩ :: ks => by
    simp only [unplacedKeywords, keywordTexts, keywordsPlain, shows_unplaced e,
      keywordsShow_unplaced ks, and_self]

end

theorem text_unplaced (e : Expr) : e.unplaced.text = e.text := e.shows_unplaced.1

end Expr

theorem Stmt.text_unplaced (s : Stmt) : s.unplaced.text = s.text := by
  cases s with
  | assign target e => rw [Stmt.unplaced, Stmt.text, Stmt.text, e.text_unplaced]
  | value e => exact e.text_unplaced

theorem Stmt.isPlain_unplaced (s : Stmt) : s.unplaced.isPlain = s.isPlain := by
  cases s with
  | assign target e | value e => exact e.shows_unplaced.2

/-! ### Texts and their tokens -/

/-- A text that starts with neither a blank nor the second half of a symbol. -/
def Opens (cs : List Char) : Prop :=
  ∃ c rest, cs = c :: rest ∧ Lexeme.isGap c = false ∧ c ∉ ['*', '/', '<', '>', '=']

/-- A text is cut into tokens before anything that does not continue its last word. -/
def Gives (cs : List Char) (ts : List Token) : Prop :=
  ∀ r us, Apart r → Cuts r us → Cuts (cs ++ r) (ts ++ us)

/-- A text between two others is cut into tokens of its own. -/
structure Links (sep : List Char) (ts : List Token) : Prop where
  apart : ∀ r, Apart (sep ++ r)
  cuts : ∀ r us, Opens r → Cuts r us → Cuts (sep ++ r) (ts ++ us)

section

variable {a b sep r : List Char} {as bs ts us : List Token}

theorem opens_cons {c : Char} (hg : Lexeme.isGap c = false) (hc : c ∉ ['*', '/', '<', '>', '='])
    (r : List Char) : Opens (c :: r) :=
  ⟨c, r, rfl, hg, hc⟩

theorem Opens.append (h : Opens a) (r : List Char) : Opens (a ++ r) := by
  obtain ⟨c, rest, rfl, hg, hc⟩ := h
  exact ⟨c, rest ++ r, rfl, hg, hc⟩

theorem Opens.blank (h : Opens r) (hc : Cuts r us) : Cuts (' ' :: r) us := by
  obtain ⟨c, rest, rfl, hg, -⟩ := h
  refine hc.blank fun d hd => ?_
  cases hd
  exact hg

theorem Opens.loose (h : Opens r) : Loose r := by
  obtain ⟨c, rest, rfl, -, hc⟩ := h
  rintro d hd
  cases hd
  exact hc

theorem gives_nil : Gives [] [] := fun _ _ _ h => h

theorem Gives.append (ha : Gives a as) (hb : Gives b bs) (hr : ∀ r, Apart (b ++ r)) :
    Gives (a ++ b) (as ++ bs) := by
  intro r us har hc
  rw [append_assoc, append_assoc]
  exact ha _ _ (hr r) (hb r us har hc)

theorem Gives.link (ha : Gives a as) (hl : Links sep ts) (hb : Gives b bs) (ho : Opens b) :
    Gives (a ++ (sep ++ b)) (as ++ (ts ++ bs)) := by
  intro r us har hc
  rw [append_assoc, append_assoc, append_assoc, append_assoc]
  exact ha _ _ (hl.apart _) (hl.cuts _ _ (ho.append r) (hb r us har hc))

/-- Texts with a separator between them. -/
theorem gives_intercalate (hl : Links sep ts) : ∀ {parts : List (List Char × List Token)},
    (∀ p ∈ parts, Gives p.1 p.2 ∧ Opens p.1) →
      Gives (sep.intercalate (parts.map Prod.fst)) (ts.intercalate (parts.map Prod.snd))
  | [], _ => gives_nil
  | [p], h => by
    rw [map_singleton, map_singleton, intercalate_singleton, intercalate_singleton]
    exact (h p mem_cons_self).1
  | p :: q :: parts, h => by
    obtain ⟨hp, hrest⟩ := forall_mem_cons.1 h
    have hopens : Opens (sep.intercalate ((q :: parts).map Prod.fst)) := by
      have hq : Opens q.1 := (hrest q mem_cons_self).2
      cases parts with
      | nil => rwa [map_singleton, intercalate_singleton]
      | cons q' parts =>
        rw [map_cons, map_cons, intercalate_cons_cons]
        exact (hq.append _).append _
    have hmore := gives_intercalate hl hrest
    rw [map_cons] at hopens hmore
    rw [map_cons] at hmore
    rw [map_cons, map_cons, map_cons, map_cons, intercalate_cons_cons,
      intercalate_cons_cons, append_assoc, append_assoc]
    exact hp.1.link hl hmore hopens

theorem isNamePart_chars (s : Symbol) (r : List Char) : Apart (s.chars ++ r) := by
  cases s <;> exact Lexeme.apart_cons (by decide) _

variable {s : Symbol}

/-- A symbol that starts no other, before anything. -/
theorem Gives.mark (hs : s ∈ alone) (h : Gives a as) : Gives (s.chars ++ a) (.symbol s :: as) := by
  intro r us har hc
  rw [append_assoc]
  exact (h r us har hc).symbol (Lexeme.longest?_alone hs _)

theorem gives_mark (hs : s ∈ alone) : Gives s.chars [.symbol s] :=
  append_nil s.chars ▸ gives_nil.mark hs

/-- A text in brackets. -/
theorem Gives.enclose {o c : Symbol} (ho : o ∈ alone) (hc : c ∈ alone) (h : Gives a as) :
    Gives (o.chars ++ (a ++ c.chars)) (.symbol o :: (as ++ [.symbol c])) :=
  (h.append (gives_mark hc) (isNamePart_chars c)).mark ho

theorem links_mark (hs : s ∈ alone) : Links (s.chars ++ [' ']) [.symbol s] where
  apart r := by
    rw [append_assoc]
    exact isNamePart_chars s _
  cuts r us ho hc := by
    rw [append_assoc]
    exact (ho.blank hc).symbol (Lexeme.longest?_alone hs _)

theorem apart_blank (r : List Char) : Apart (' ' :: r) := Lexeme.apart_cons (by decide) r

theorem loose_blank (r : List Char) : Loose (' ' :: r) := by
  rintro d hd
  cases hd
  decide

theorem links_symbol (s : Symbol) : Links (' ' :: (s.chars ++ [' '])) [.symbol s] where
  apart r := apart_blank _
  cuts r us ho hc := by
    have hcut : Cuts (s.chars ++ ' ' :: r) (.symbol s :: us) :=
      (ho.blank hc).symbol (Lexeme.longest?_loose s (loose_blank r))
    rw [cons_append, append_assoc]
    refine hcut.blank fun d hd => ?_
    cases s <;> cases hd <;> rfl

theorem isName_keyword (k : Keyword) : isName k.text = true ∧ Token.ofWord k.text = .keyword k := by
  cases k <;> decide

theorem Opens.keyword (k : Keyword) (r : List Char) : Opens (k.text.toList ++ r) := by
  cases k <;> exact opens_cons (by decide) (by decide) _

theorem cuts_keyword (k : Keyword) (ho : Opens r) (hc : Cuts r us) :
    Cuts (k.text.toList ++ ' ' :: r) (.keyword k :: us) := by
  obtain ⟨hname, hword⟩ := isName_keyword k
  rw [← hword]
  exact (ho.blank hc).word hname (apart_blank r)

theorem links_keyword (k : Keyword) : Links (' ' :: (k.text.toList ++ [' '])) [.keyword k] where
  apart r := apart_blank _
  cuts r us ho hc := by
    rw [cons_append, append_assoc]
    exact (Opens.keyword k _).blank (cuts_keyword k ho hc)

theorem links_compare (op : CompareOp) : Links (' ' :: (op.text.toList ++ [' '])) op.tokens := by
  cases op with
  | equal => exact links_symbol .equal
  | notEqual => exact links_symbol .notEqual
  | less => exact links_symbol .less
  | lessEqual => exact links_symbol .lessEqual
  | greater => exact links_symbol .greater
  | greaterEqual => exact links_symbol .greaterEqual
  | isIn => exact links_keyword .in
  | notIn =>
    refine ⟨fun r => apart_blank _, fun r us ho hc => ?_⟩
    have hin := cuts_keyword .in ho hc
    exact (Opens.keyword .not _).blank (cuts_keyword .not (Opens.keyword .in _) hin)

theorem links_assign : Links ['='] [.symbol .assign] where
  apart r := Lexeme.apart_cons (by decide) r
  cuts r us ho hc := hc.symbol (Lexeme.longest?_loose .assign ho.loose)

theorem gives_word {w : String} (h : isName w = true) : Gives w.toList [.ofWord w] :=
  fun _ _ har hc => hc.word h har

theorem opens_word {w : String} (h : isName w = true) : Opens w.toList := by
  rw [isName] at h
  cases hc : w.toList with
  | nil =>
    rw [hc] at h
    cases h
  | cons c cs =>
    simp only [hc, Bool.and_eq_true] at h
    refine opens_cons (Bool.eq_false_iff.2 (Lexeme.isGap_eq_false h.1 (by decide))) ?_ cs
    intro hm
    simp only [mem_cons, not_mem_nil, or_false] at hm
    rcases hm with rfl | rfl | rfl | rfl | rfl <;> exact absurd h.1 (by decide)

theorem opens_numeral {cs : List Char} (h : Lexeme.IsNumeral cs) : Opens cs := by
  obtain ⟨c, whole, part, exp, rfl, hc, -⟩ := h
  refine opens_cons (Bool.eq_false_iff.2 (Lexeme.isGap_eq_false hc (by decide))) ?_ _
  intro hm
  simp only [mem_cons, not_mem_nil, or_false] at hm
  rcases hm with rfl | rfl | rfl | rfl | rfl <;> exact absurd hc (by decide)

end

/-! ### The tokens of a text -/

/-- The token that writes a sign or a negation. -/
def UnaryOp.token : UnaryOp → Token
  | .negate => .symbol .minus
  | .complement => .symbol .tilde
  | .not => .keyword .not

def BinaryOp.symbol : BinaryOp → Symbol
  | .add => .plus
  | .sub => .minus
  | .mul => .star
  | .div => .slash
  | .floorDiv => .doubleSlash
  | .mod => .percent
  | .pow => .doubleStar
  | .bitAnd => .ampersand
  | .bitOr => .pipe
  | .shiftLeft => .shiftLeft
  | .shiftRight => .shiftRight

/-- Tokens in parentheses. -/
def grouped (ts : List Token) : List Token :=
  .symbol .openParen :: (ts ++ [.symbol .closeParen])

namespace Expr

mutual

/-- The tokens that the text of an expression is made of. -/
def tokens : Expr → List Token
  | .literal _ value => [.literal value]
  | .name _ n => [.name n]
  | .tuple _ items => grouped ([comma].intercalate (tokensAll items))
  | .list _ items =>
    .symbol .openBracket :: ([comma].intercalate (tokensAll items) ++ [.symbol .closeBracket])
  | .call _ function args keywords =>
    .name function.text ::
      grouped ([comma].intercalate (tokensAll args ++ keywordTokens keywords))
  | .subscript _ base index =>
    tokens base ++ .symbol .openBracket :: (tokens index ++ [.symbol .closeBracket])
  | .unary _ op operand => grouped (op.token :: tokens operand)
  | .binary _ op lhs rhs => grouped (tokens lhs ++ .symbol op.symbol :: tokens rhs)
  | .boolean _ op operands =>
    grouped ([.keyword (Grammar.chainWord op)].intercalate (tokensAll operands))
  | .compare _ op lhs rhs => grouped (tokens lhs ++ (op.tokens ++ tokens rhs))
  | .conditional _ test yes no =>
    grouped (tokens yes ++ .keyword .if :: (tokens test ++ .keyword .else :: tokens no))

def tokensAll : List Expr → List (List Token)
  | [] => []
  | e :: es => tokens e :: tokensAll es

def keywordTokens : List (KeywordArg Expr) → List (List Token)
  | [] => []
  | ⟨n, e⟩ :: rest => (.name n.text :: .symbol .assign :: tokens e) :: keywordTokens rest

end

theorem tokensAll_eq_map : ∀ es : List Expr, tokensAll es = es.map tokens
  | [] => rfl
  | e :: es => by rw [tokensAll, tokensAll_eq_map es, map_cons]

theorem keywordTokens_eq_map : ∀ ks : List (KeywordArg Expr),
    keywordTokens ks = ks.map fun k => .name k.name.text :: .symbol .assign :: k.value.tokens
  | [] => rfl
  | ⟨n, e⟩ :: ks => by rw [keywordTokens, keywordTokens_eq_map ks, map_cons]

theorem texts_eq_map : ∀ es : List Expr, texts es = es.map text
  | [] => rfl
  | e :: es => by rw [texts, texts_eq_map es, map_cons]

theorem keywordTexts_eq_map : ∀ ks : List (KeywordArg Expr),
    keywordTexts ks = ks.map fun k => k.name.text ++ "=" ++ k.value.text
  | [] => rfl
  | ⟨n, e⟩ :: ks => by rw [keywordTexts, keywordTexts_eq_map ks, map_cons]

theorem allPlain_iff : ∀ {es : List Expr}, allPlain es = true ↔ ∀ e ∈ es, e.isPlain = true
  | [] => by simp [allPlain]
  | e :: es => by rw [allPlain, Bool.and_eq_true, allPlain_iff, forall_mem_cons]

theorem keywordsPlain_iff : ∀ {ks : List (KeywordArg Expr)},
    keywordsPlain ks = true ↔ ∀ k ∈ ks, k.value.isPlain = true
  | [] => by simp [keywordsPlain]
  | ⟨n, e⟩ :: ks => by
    rw [keywordsPlain, Bool.and_eq_true, keywordsPlain_iff, forall_mem_cons]

end Expr

/-! ### Derivations of shown trees -/

section

variable {ts us : List Token} {e lhs rhs : Expr}

theorem Derives.levelOperand (h : Derives .factor ts e) (l : Grammar.Level) :
    Derives (levelOperand l) ts e := by
  have hterm : Derives (.level .term) ts e := .operand h
  have hsum : Derives (.level .sum) ts e := .operand hterm
  have hshift : Derives (.level .shift) ts e := .operand hsum
  cases l with
  | term => exact h
  | sum => exact hterm
  | shift => exact hsum
  | bitAnd => exact hshift
  | bitOr => exact .operand hshift

theorem Derives.level (h : Derives .factor ts e) (l : Grammar.Level) : Derives (.level l) ts e :=
  .operand (h.levelOperand l)

theorem Derives.factor (h : Derives .primary ts e) : Derives .factor ts e := .unsigned (.base h)

theorem Derives.comparison (h : Derives .factor ts e) : Derives .comparison ts e :=
  .uncompared (h.level .bitOr)

theorem Derives.chainOperand (h : Derives .negation ts e) : ∀ op, Derives (chainOperand op) ts e
  | .and => h
  | .or => .link h

theorem Derives.expr (h : Derives .negation ts e) : Derives .expr ts e :=
  .unconditional (.link (h.chainOperand .or))

theorem Derives.grouped (h : Derives .tuple ts e) : Derives .primary (grouped ts) e :=
  .bare (.group h)

theorem listed_intercalate : ∀ items : List (List Token), Listed items ([comma].intercalate items)
  | [] => .none
  | [item] => by
    rw [intercalate_singleton]
    exact .last
  | item :: item' :: items => by
    rw [intercalate_cons_cons, append_assoc]
    exact .more (listed_intercalate (item' :: items))

theorem linked_eq_intercalate (word : Keyword) (ts : List Token) : ∀ parts : List Part,
    [.keyword word].intercalate (ts :: parts.map Prod.fst) = ts ++ linked word parts
  | [] => by
    rw [map_nil, intercalate_singleton, linked, flatMap_nil, append_nil]
  | p :: parts => by
    rw [map_cons, intercalate_cons_cons, linked_eq_intercalate word p.1 parts, linked,
      linked, flatMap_cons]
    simp

theorem exists_level {op : BinaryOp} (h : op ≠ .pow) :
    ∃ l : Grammar.Level, l.op? (.symbol op.symbol) = some op := by
  cases op with
  | pow => exact absurd rfl h
  | bitOr => exact ⟨.bitOr, rfl⟩
  | bitAnd => exact ⟨.bitAnd, rfl⟩
  | shiftLeft | shiftRight => exact ⟨.shift, rfl⟩
  | add | sub => exact ⟨.sum, rfl⟩
  | mul | div | floorDiv | mod => exact ⟨.term, rfl⟩

theorem Derives.bitOr {l : Grammar.Level} (h : Derives (.level l) ts e) :
    Derives (.level .bitOr) ts e := by
  have hand (h : Derives (.level .shift) ts e) : Derives (.level .bitAnd) ts e := .operand h
  have hshift (h : Derives (.level .sum) ts e) : Derives (.level .shift) ts e := .operand h
  cases l with
  | bitOr => exact h
  | bitAnd => exact .operand h
  | shift => exact .operand (hand h)
  | sum => exact .operand (hand (hshift h))
  | term => exact .operand (hand (hshift (.operand h)))

/-- Two primaries with an operator between them, whatever its level. -/
theorem derives_operation (op : BinaryOp) (hl : Derives .primary ts lhs)
    (hr : Derives .primary us rhs) :
    Derives .comparison (ts ++ .symbol op.symbol :: us) (.binary .nowhere op lhs rhs) := by
  by_cases hop : op = .pow
  · subst hop
    exact (Derives.unsigned (.power hl hr.factor)).comparison
  · obtain ⟨l, hl'⟩ := exists_level hop
    exact .uncompared (Derives.binary hl' (hl.factor.level l) (hr.factor.levelOperand l)).bitOr

end

/-! ### Shown trees -/

/-- The text of a tree is cut into tokens that are derived to the tree. -/
structure Shown (e : Expr) : Prop where
  opens : Opens e.text.toList
  gives : Gives e.text.toList e.tokens
  derives : Derives .primary e.tokens e

section

variable {e lhs rhs : Expr}

theorem Shown.item (h : Shown e) : Derives .expr e.tokens e :=
  (Derives.positive h.derives.factor.comparison).expr

theorem opens_paren (r : List Char) : Opens ('(' :: r) := opens_cons (by decide) (by decide) r

/-- A text in parentheses is a tree that is derived to what is inside. -/
theorem shown_grouped {a : List Char} (htext : e.text.toList = '(' :: (a ++ [')']))
    (htokens : e.tokens = grouped ts) (ha : Gives a ts) (hd : Derives .tuple ts e) : Shown e where
  opens := by
    rw [htext]
    exact opens_paren _
  gives := by
    rw [htext, htokens]
    exact ha.enclose (o := .openParen) (c := .closeParen) (by decide) (by decide)
  derives := by
    rw [htokens]
    exact hd.grouped

theorem shown_name {n : String} (h : (Token.name n).Possible) : Shown (.name .nowhere n) where
  opens := opens_word h.1
  gives := by
    have hgives := gives_word h.1
    rwa [h.2] at hgives
  derives := .bare (.name n)

theorem shown_literal {v : Literal} (h : (Token.literal v).Possible) (hp : v.isPlain = true) :
    Shown (.literal .nowhere v) where
  opens := by
    cases v with
    | bool b => cases b <;> exact opens_cons (by decide) (by decide) _
    | number s => exact opens_numeral h
    | string s =>
      rw [Expr.text, Literal.text, Text.quoted, String.toList_ofList]
      exact opens_cons (by decide) (by decide) _
  gives := by
    cases v with
    | bool b =>
      cases b
      · exact gives_word (w := "False") (by decide)
      · exact gives_word (w := "True") (by decide)
    | number s => exact fun r us har hc => hc.number h har
    | string s => exact fun r us har hc => hc.string (all_eq_true.1 hp)
  derives := .bare (.literal v)

theorem shown_binary (op : BinaryOp) (hl : Shown lhs) (hr : Shown rhs) :
    Shown (.binary .nowhere op lhs rhs) := by
  refine shown_grouped ?_ rfl (hl.gives.link (links_symbol op.symbol) hr.gives hr.opens)
    (.item (Derives.positive (derives_operation op hl.derives hr.derives)).expr)
  have htext : op.text.toList = op.symbol.chars := by cases op <;> rfl
  simp [Expr.text, htext]

theorem shown_compare (op : CompareOp) (hl : Shown lhs) (hr : Shown rhs) :
    Shown (.compare .nowhere op lhs rhs) := by
  refine shown_grouped ?_ rfl (hl.gives.link (links_compare op) hr.gives hr.opens)
    (.item (Derives.positive (.compare (hl.derives.factor.level .bitOr)
      (hr.derives.factor.level .bitOr))).expr)
  simp [Expr.text]

theorem shown_conditional {test yes no : Expr} (ht : Shown test) (hy : Shown yes) (hn : Shown no) :
    Shown (.conditional .nowhere test yes no) := by
  have hchain {e : Expr} (h : Shown e) : Derives (.chain .or) e.tokens e :=
    .link ((Derives.positive h.derives.factor.comparison).chainOperand .or)
  have hrest := ht.gives.link (links_keyword .else) hn.gives hn.opens
  refine shown_grouped ?_ rfl
    (hy.gives.link (links_keyword .if) hrest (ht.opens.append _))
    (.item (.conditional (hchain hy) (hchain ht) hn.item))
  simp [Expr.text, Keyword.text]

theorem shown_unary (op : UnaryOp) (h : Shown e) : Shown (.unary .nowhere op e) := by
  cases op with
  | negate =>
    exact shown_grouped (by simp [Expr.text, UnaryOp.text, Symbol.chars]) rfl
      (h.gives.mark (s := .minus) (by decide))
      (.item (Derives.positive (Derives.sign rfl h.derives.factor).comparison).expr)
  | complement =>
    exact shown_grouped (by simp [Expr.text, UnaryOp.text, Symbol.chars]) rfl
      (h.gives.mark (s := .tilde) (by decide))
      (.item (Derives.positive (Derives.sign rfl h.derives.factor).comparison).expr)
  | not =>
    have hgives : Gives ("not".toList ++ ' ' :: e.text.toList) (.keyword .not :: e.tokens) := by
      intro r us har hc
      rw [append_assoc]
      exact cuts_keyword .not (h.opens.append r) (h.gives r us har hc)
    exact shown_grouped (by simp [Expr.text]) rfl hgives
      (.item (Derives.not (.positive h.derives.factor.comparison)).expr)

theorem shown_subscript {base index : Expr} (hb : Shown base) (hi : Shown index) :
    Shown (.subscript .nowhere base index) where
  opens := by
    have htext : (Expr.subscript .nowhere base index).text.toList
        = base.text.toList ++ '[' :: (index.text.toList ++ [']']) := by simp [Expr.text]
    rw [htext]
    exact hb.opens.append _
  gives := by
    have htext : (Expr.subscript .nowhere base index).text.toList
        = base.text.toList ++ '[' :: (index.text.toList ++ [']']) := by simp [Expr.text]
    have hbrackets := hi.gives.enclose (o := .openBracket) (c := .closeBracket) (by decide)
      (by decide)
    rw [htext, tokens]
    exact hb.gives.append hbrackets fun r => Lexeme.apart_cons (by decide) _
  derives := by
    rw [tokens]
    exact .subscript hb.derives (.item hi.item)

/-- Trees as parts of a derivation, each with the tokens of its text. -/
def treeParts (es : List Expr) : List Part := es.map fun e => (e.tokens, e)

theorem map_fst_treeParts (es : List Expr) : (treeParts es).map Prod.fst = tokensAll es := by
  rw [treeParts, map_map, tokensAll_eq_map]
  rfl

theorem map_snd_treeParts (es : List Expr) : (treeParts es).map Prod.snd = es := by
  rw [treeParts, map_map]
  exact map_id es

variable {es items args : List Expr} {named : List NamedPart}

theorem derives_treeParts {rule : Rule} (h : ∀ e ∈ es, Derives rule e.tokens e) :
    ∀ p ∈ treeParts es, Derives rule p.1 p.2 := by
  intro p hp
  obtain ⟨e, he, rfl⟩ := mem_map.1 hp
  exact h e he

/-- Trees with a separator between them. -/
theorem gives_trees {sep : List Char} (hl : Links sep ts) (h : ∀ e ∈ es, Shown e) :
    Gives (sep.intercalate ((Expr.texts es).map String.toList))
      (ts.intercalate (tokensAll es)) := by
  have hparts : ∀ p ∈ es.map fun e => (e.text.toList, e.tokens), Gives p.1 p.2 ∧ Opens p.1 := by
    intro p hp
    obtain ⟨e, he, rfl⟩ := mem_map.1 hp
    exact ⟨(h e he).gives, (h e he).opens⟩
  have hgives := gives_intercalate hl hparts
  rw [map_map, map_map] at hgives
  rw [texts_eq_map, tokensAll_eq_map, map_map]
  exact hgives

theorem links_comma : Links ", ".toList [comma] := links_mark (s := .comma) (by decide)

theorem shown_tuple (h : ∀ e ∈ items, Shown e) (hne : items.length ≠ 1) :
    Shown (.tuple .nowhere items) := by
  match items, hne with
  | [], _ =>
    refine ⟨opens_paren _, ?_, .bare .empty⟩
    exact gives_nil.enclose (o := .openParen) (c := .closeParen) (by decide) (by decide)
  | e :: e' :: es, _ =>
    refine shown_grouped (by simp [Expr.text]) rfl (gives_trees links_comma h) ?_
    obtain ⟨he, hrest⟩ := forall_mem_cons.1 h
    have hd := Derives.tuple he.item (derives_treeParts fun e he => (hrest e he).item)
      (listed_intercalate _)
    rw [map_fst_treeParts, map_snd_treeParts] at hd
    rw [tokensAll, tokensAll, intercalate_cons_cons, append_assoc]
    exact hd

theorem shown_list (h : ∀ e ∈ items, Shown e) : Shown (.list .nowhere items) := by
  have htext : (Expr.list .nowhere items).text.toList
      = '[' :: (", ".toList.intercalate ((Expr.texts items).map String.toList) ++ [']']) := by
    simp [Expr.text]
  refine ⟨?_, ?_, ?_⟩
  · rw [htext]
    exact opens_cons (by decide) (by decide) _
  · rw [htext]
    exact (gives_trees links_comma h).enclose (o := .openBracket) (c := .closeBracket)
      (by decide) (by decide)
  · have hd := Derives.list (derives_treeParts fun e he => (h e he).item) (listed_intercalate _)
    rw [map_fst_treeParts, map_snd_treeParts] at hd
    exact .bare hd

theorem shown_boolean (op : BoolOp) (he : Shown e) (h : ∀ e ∈ es, Shown e) (hne : es ≠ []) :
    Shown (.boolean .nowhere op (e :: es)) := by
  have hlink : Links (" " ++ op.text ++ " ").toList [.keyword (Grammar.chainWord op)] := by
    cases op
    · exact links_keyword .and
    · exact links_keyword .or
  have hoperand {e : Expr} (h : Shown e) : Derives (chainOperand op) e.tokens e :=
    (Derives.positive h.derives.factor.comparison).chainOperand op
  refine shown_grouped (by simp [Expr.text]) rfl
    (gives_trees hlink (forall_mem_cons.2 ⟨he, h⟩)) ?_
  have hparts : treeParts es ≠ [] := by simpa [treeParts] using hne
  have hd := Derives.chain (hoperand he) (derives_treeParts fun e he => hoperand (h e he)) hparts
  rw [map_snd_treeParts] at hd
  rw [tokensAll, ← map_fst_treeParts, linked_eq_intercalate]
  cases op
  · exact .item (.unconditional (.link hd))
  · exact .item (.unconditional hd)

/-- The arguments of a call, with the tokens of their texts. -/
theorem gives_arguments (ha : ∀ e ∈ args, Shown e)
    (hk : ∀ k ∈ named, (Token.name k.1).Possible ∧ Shown k.2.2) :
    Gives (", ".toList.intercalate ((Expr.texts args ++
        keywordTexts (named.map NamedPart.keyword)).map String.toList))
      ([comma].intercalate (tokensAll args ++
        keywordTokens (named.map NamedPart.keyword))) := by
  have hparts : ∀ p ∈ (args.map fun e => (e.text.toList, e.tokens)) ++
      named.map fun k => (k.1.toList ++ (['='] ++ k.2.2.text.toList),
        [Token.name k.1] ++ ([.symbol .assign] ++ k.2.2.tokens)), Gives p.1 p.2 ∧ Opens p.1 := by
    intro p hp
    rcases mem_append.1 hp with hp | hp
    · obtain ⟨e, he, rfl⟩ := mem_map.1 hp
      exact ⟨(ha e he).gives, (ha e he).opens⟩
    · obtain ⟨k, hm, rfl⟩ := mem_map.1 hp
      obtain ⟨hn, he⟩ := hk k hm
      exact ⟨(shown_name hn).gives.link links_assign he.gives he.opens, (opens_word hn.1).append _⟩
  have hgives := gives_intercalate links_comma hparts
  rw [map_append, map_append, map_map, map_map, map_map, map_map] at hgives
  rw [texts_eq_map, tokensAll_eq_map, keywordTexts_eq_map, keywordTokens_eq_map,
    map_append, map_map, map_map, map_map, map_map]
  simpa [Function.comp_def, NamedPart.keyword] using hgives

theorem shown_call {f : String} (hf : Shown (.name .nowhere f)) (ha : ∀ e ∈ args, Shown e)
    (hk : ∀ k ∈ named, (Token.name k.1).Possible ∧ Shown k.2.2) :
    Shown (.call .nowhere ⟨f, .nowhere⟩ args (named.map NamedPart.keyword)) := by
  have htext : (Expr.call .nowhere ⟨f, .nowhere⟩ args (named.map NamedPart.keyword)).text.toList
      = f.toList ++ '(' :: (", ".toList.intercalate ((Expr.texts args ++
          keywordTexts (named.map NamedPart.keyword)).map String.toList) ++ [')']) := by
    simp [Expr.text]
  refine ⟨?_, ?_, ?_⟩
  · rw [htext]
    exact hf.opens.append _
  · have hbrackets := (gives_arguments ha hk).enclose (o := .openParen) (c := .closeParen)
      (by decide) (by decide)
    rw [htext, tokens]
    exact hf.gives.append hbrackets fun r => Lexeme.apart_cons (by decide) _
  · let parts : List NamedPart := named.map fun k => (k.1, k.2.2.tokens, k.2.2)
    have hvalues : ∀ k ∈ parts, Derives .expr k.2.1 k.2.2 := by
      intro k hm
      obtain ⟨part, hpart, rfl⟩ := mem_map.1 hm
      exact (hk part hpart).2.item
    have hd := Derives.call hf.derives (derives_treeParts fun e he => (ha e he).item) hvalues
      (listed_intercalate _)
    have hkeywords : parts.map NamedPart.keyword = named.map NamedPart.keyword := by
      rw [map_map]
      rfl
    have htokens : argumentTokens (treeParts args) parts
        = tokensAll args ++ keywordTokens (named.map NamedPart.keyword) := by
      rw [argumentTokens, map_fst_treeParts, keywordTokens_eq_map, map_map, map_map]
      rfl
    rw [map_snd_treeParts, hkeywords, htokens] at hd
    exact hd

end

/-! ### Trees of sources are shown -/

theorem shown_parts {parts : List Part}
    (h : ∀ p ∈ parts, (∀ t ∈ p.1, t.Possible) → p.2.isPlain = true → Shown p.2)
    (hs : ∀ p ∈ parts, p.1 ⊆ ts) (ht : ∀ t ∈ ts, t.Possible)
    (hp : ∀ e ∈ parts.map Prod.snd, e.isPlain = true) : ∀ e ∈ parts.map Prod.snd, Shown e := by
  intro e he
  obtain ⟨p, hm, rfl⟩ := mem_map.1 he
  exact h p hm (fun t htp => ht t (hs p hm htp)) (hp _ he)

theorem Listed.subset {items : List (List Token)} (h : Listed items ts) :
    ∀ item ∈ items, item ⊆ ts := by
  induction h with
  | none => exact forall_mem_nil _
  | last => exact forall_mem_singleton.2 (List.Subset.refl _)
  | @more ts items rest _ ih =>
    refine forall_mem_cons.2 ⟨subset_append_left ts _, fun item hi t ht => ?_⟩
    exact mem_append_right ts (mem_cons_of_mem comma (ih item hi ht))

/-- A plain tree that is derived from the tokens of a source is shown. -/
theorem Derives.shown {rule : Rule} {e : Expr} (h : Derives rule ts e)
    (ht : ∀ t ∈ ts, t.Possible) (hp : e.isPlain = true) : Shown e := by
  induction h with
  | tuple _ _ hl ih ihp =>
    rw [isPlain, Bool.and_eq_true, bne_iff_ne, allPlain_iff, forall_mem_cons] at hp
    rw [forall_mem_append, forall_mem_cons] at ht
    refine shown_tuple (forall_mem_cons.2 ⟨ih ht.1 hp.2.1, ?_⟩) hp.1
    exact shown_parts ihp (fun p hm => hl.subset p.1 (mem_map_of_mem hm)) ht.2.2 hp.2.2
  | conditional _ _ _ ihy ihc ihn =>
    rw [isPlain, Bool.and_eq_true, Bool.and_eq_true] at hp
    simp only [forall_mem_append, forall_mem_cons] at ht
    exact shown_conditional (ihc ht.2.2.1 hp.1.1) (ihy ht.1 hp.1.2) (ihn ht.2.2.2.2 hp.2)
  | @chain op ts e parts _ _ hne ih ihp =>
    rw [isPlain, allPlain_iff, forall_mem_cons] at hp
    rw [forall_mem_append] at ht
    refine shown_boolean op (ih ht.1 hp.1) ?_ (by simpa using hne)
    refine shown_parts ihp (fun p hm t htp => ?_) ht.2 hp.2
    exact mem_flatMap.2 ⟨p, hm, mem_cons_of_mem _ htp⟩
  | item _ ih | unconditional _ ih | link _ ih | positive _ ih | uncompared _ ih | operand _ ih
  | unsigned _ ih | base _ ih | bare _ ih => exact ih ht hp
  | not _ ih =>
    exact shown_unary .not (ih (forall_mem_cons.1 ht).2 hp)
  | @compare op _ _ _ _ _ _ ihl ihr =>
    rw [isPlain, Bool.and_eq_true] at hp
    simp only [forall_mem_append] at ht
    exact shown_compare op (ihl ht.1 hp.1) (ihr ht.2.2 hp.2)
  | @binary _ _ op _ _ _ _ _ _ _ ihl ihr =>
    rw [isPlain, Bool.and_eq_true] at hp
    simp only [forall_mem_append, forall_mem_cons] at ht
    exact shown_binary op (ihl ht.1 hp.1) (ihr ht.2.2 hp.2)
  | @sign _ op _ _ _ _ ih =>
    exact shown_unary op (ih (forall_mem_cons.1 ht).2 hp)
  | power _ _ ihb ihe =>
    rw [isPlain, Bool.and_eq_true] at hp
    simp only [forall_mem_append, forall_mem_cons] at ht
    exact shown_binary .pow (ihb ht.1 hp.1) (ihe ht.2.2 hp.2)
  | @call fs f ts args named _ _ _ hl ihf ihp ihk =>
    rw [isPlain, Bool.and_eq_true, allPlain_iff, keywordsPlain_iff] at hp
    simp only [forall_mem_append, forall_mem_cons] at ht
    have hsubset := hl.subset
    rw [argumentTokens, forall_mem_append] at hsubset
    refine shown_call (ihf ht.1 rfl) ?_ fun k hm => ?_
    · exact shown_parts ihp (fun p hm => hsubset.1 p.1 (mem_map_of_mem hm)) ht.2.2.1 hp.1
    · have hk : ∀ t ∈ Token.name k.1 :: .symbol .assign :: k.2.1, t.Possible := fun t htk =>
        ht.2.2.1 t (hsubset.2 _ (mem_map_of_mem hm) htk)
      simp only [forall_mem_cons] at hk
      exact ⟨hk.1, ihk k hm hk.2.2 (hp.2 _ (mem_map_of_mem hm))⟩
  | subscript _ _ ihb ihi =>
    rw [isPlain, Bool.and_eq_true] at hp
    simp only [forall_mem_append, forall_mem_cons] at ht
    exact shown_subscript (ihb ht.1 hp.1) (ihi ht.2.2.1 hp.2)
  | name n => exact shown_name (ht _ mem_cons_self)
  | literal v => exact shown_literal (ht _ mem_cons_self) hp
  | empty => exact shown_tuple (forall_mem_nil _) (by decide)
  | group _ ih =>
    simp only [forall_mem_append, forall_mem_cons] at ht
    exact ih ht.2.1 hp
  | list _ hl ihp =>
    rw [isPlain, allPlain_iff] at hp
    simp only [forall_mem_append, forall_mem_cons] at ht
    refine shown_list (shown_parts ihp (fun p hm => ?_) ht.2.1 hp)
    exact hl.subset p.1 (mem_map_of_mem hm)

/-! ### Statements -/

/-- The tokens that the text of a statement is made of. -/
def Stmt.tokens : Stmt → List Token
  | .assign target e => .name target.text :: .symbol .assign :: e.tokens
  | .value e => e.tokens

/-- The text of a statement is cut into tokens that are derived to the statement. -/
structure Stmt.Shown (s : Stmt) : Prop where
  opens : Opens s.text.toList
  gives : Gives s.text.toList s.tokens
  derives : DerivesStmt s.tokens s

theorem DerivesStmt.shown {s : Stmt} (h : DerivesStmt ts s) (ht : ∀ t ∈ ts, t.Possible)
    (hp : s.isPlain = true) : s.Shown ∧ Syntax.Shown s.expr := by
  cases h with
  | value hd =>
    have he := hd.shown ht hp
    exact ⟨⟨he.opens, he.gives, .value (.item he.item)⟩, he⟩
  | @assign n ts e hd =>
    simp only [forall_mem_cons] at ht
    have hn := shown_name ht.1
    have he := hd.shown ht.2.2 hp
    have htext : (Stmt.assign ⟨n, .nowhere⟩ e).text.toList
        = n.toList ++ ([' ', '=', ' '] ++ e.text.toList) := by simp [Stmt.text]
    refine ⟨⟨?_, ?_, .assign (.item he.item)⟩, he⟩
    · rw [htext]
      exact hn.opens.append _
    · rw [htext]
      exact hn.gives.link (links_symbol .assign) he.gives he.opens

/-- Plain statements that are derived from the tokens of a source are shown. -/
theorem DerivesProgram.shown (h : DerivesProgram ts stmts) (ht : ∀ t ∈ ts, t.Possible) :
    ∀ s ∈ stmts, s.isPlain = true → s.Shown ∧ Syntax.Shown s.expr := by
  cases h with
  | blank _ => exact forall_mem_nil _
  | statements _ hh hm _ =>
    simp only [forall_mem_append] at ht
    refine forall_mem_cons.2 ⟨hh.shown ht.2.1, fun s hs => ?_⟩
    obtain ⟨m, hmem, rfl⟩ := mem_map.1 hs
    refine (hm m hmem).2.2.shown fun t htm => ht.2.2.1 t ?_
    exact mem_flatMap.2 ⟨m, hmem, mem_append_right _ htm⟩

/-- The tokens of statements with semicolons between them. -/
def joined (stmts : List Stmt) : List Token :=
  [.symbol .semicolon].intercalate (stmts.map Stmt.tokens)

theorem derives_joined : ∀ {stmts : List Stmt}, (∀ s ∈ stmts, s.Shown) →
    DerivesProgram (joined stmts) stmts
  | [], _ => .blank (forall_mem_nil _)
  | [s], h => by
    rw [joined, map_singleton, intercalate_singleton]
    exact .single (h s mem_cons_self).derives
  | s :: s' :: stmts, h => by
    obtain ⟨hs, hrest⟩ := forall_mem_cons.1 h
    have hd := derives_joined hrest
    rw [joined, map_cons] at hd
    rw [joined, map_cons, map_cons, intercalate_cons_cons, append_assoc]
    exact .cons hs.derives rfl hd

theorem gives_joined (h : ∀ s ∈ stmts, s.Shown) :
    Gives ("; ".intercalate (stmts.map Stmt.text)).toList (joined stmts) := by
  have hparts : ∀ p ∈ stmts.map fun s => (s.text.toList, s.tokens), Gives p.1 p.2 ∧ Opens p.1 := by
    intro p hp
    obtain ⟨s, hs, rfl⟩ := mem_map.1 hp
    exact ⟨(h s hs).gives, (h s hs).opens⟩
  have hgives := gives_intercalate (links_mark (s := .semicolon) (by decide)) hparts
  rw [map_map, map_map] at hgives
  rw [String.toList_intercalate, map_map, joined]
  exact hgives

/-! ### Texts on one line -/

theorem Lexeme.significant_eq_self : ∀ {ls : List Lexeme} {depth : Nat},
    .newline ∉ ls.map Lexeme.token → significant depth ls = ls
  | [], _, _ => rfl
  | l :: ls, depth, h => by
    rw [map_cons, mem_cons, not_or] at h
    rw [significant, if_neg fun hl => h.1 hl.1.symm, significant_eq_self h.2]

/-- A text on one line is cut into the lexemes that the grammar sees. -/
theorem Gives.scan {text : String} (h : Gives text.toList ts) :
    ∃ ls, Lexeme.scan text = .ok ls ∧ ls.map Lexeme.token = ts := by
  have hcuts := h [] [] Lexeme.apart_nil Lexeme.cuts_nil
  rw [append_nil, append_nil] at hcuts
  obtain ⟨ls, hls, rfl⟩ := except_map_eq_ok.1 (hcuts.scan 0)
  refine ⟨ls, ?_, rfl⟩
  rw [Lexeme.scan, hls, Except.map, Lexeme.significant_eq_self hcuts.line]

/-! ### Reading what is shown -/

theorem Shown.parse {e : Expr} (h : Shown e) :
    ∃ found, Expr.parse e.text = .ok found ∧ found.unplaced = e := by
  obtain ⟨ls, hls, hts⟩ := h.gives.scan
  refine (parse_iff_derives hls e).2 ?_
  rw [hts]
  exact .item h.item

theorem parseAll_joined (h : ∀ s ∈ stmts, s.Shown) :
    ∃ found, Stmt.parseAll ("; ".intercalate (stmts.map Stmt.text)) = .ok found ∧
      found.map Stmt.unplaced = stmts := by
  obtain ⟨ls, hls, hts⟩ := (gives_joined h).scan
  refine (parseAll_iff_derives hls stmts).2 ?_
  rw [hts]
  exact derives_joined h

/-- The statements of a source without places are shown if they are plain. -/
theorem shown_of_parseAll {source : String} (h : Stmt.parseAll source = .ok stmts)
    (hp : ∀ s ∈ stmts, s.isPlain = true) :
    ∀ s ∈ stmts, s.unplaced.Shown ∧ Shown s.expr.unplaced := by
  obtain ⟨ls, hls, -⟩ := places_parseAll h
  have hd := (parseAll_iff_derives hls _).1 ⟨stmts, h, rfl⟩
  intro s hs
  have hshown := hd.shown (Lexeme.possible_scan hls) s.unplaced (mem_map_of_mem hs)
    (by rw [s.isPlain_unplaced, hp s hs])
  cases s with
  | assign target e | value e => exact hshown

/-- Reading the text of what was read gives the same trees, up to their places: the texts of plain
    statements with semicolons between them, the text of the expression in each of them, and the
    text of a plain expression that is a whole source. -/
theorem text_parses_back (source : String) :
    (∀ stmts, Stmt.parseAll source = .ok stmts → (∀ s ∈ stmts, s.isPlain = true) →
      (∃ found, Stmt.parseAll ("; ".intercalate (stmts.map Stmt.text)) = .ok found ∧
        found.map Stmt.unplaced = stmts.map Stmt.unplaced) ∧
      ∀ s ∈ stmts, ∃ found, Expr.parse s.expr.text = .ok found ∧
        found.unplaced = s.expr.unplaced) ∧
    ∀ e, Expr.parse source = .ok e → e.isPlain = true →
      ∃ found, Expr.parse e.text = .ok found ∧ found.unplaced = e.unplaced := by
  refine ⟨fun stmts h hp => ?_, fun e h hp => ?_⟩
  · have hshown := shown_of_parseAll h hp
    refine ⟨?_, fun s hs => ?_⟩
    · have hall : ∀ s ∈ stmts.map Stmt.unplaced, s.Shown := by
        intro s hs
        obtain ⟨s, hs', rfl⟩ := List.mem_map.1 hs
        exact (hshown s hs').1
      have hfound := parseAll_joined hall
      rwa [List.map_map, List.map_congr_left fun s _ => s.text_unplaced] at hfound
    · have hfound := (hshown s hs).2.parse
      rwa [text_unplaced] at hfound
  · obtain ⟨ls, hls, -⟩ := places_parse h
    have hd := (parse_iff_derives hls _).1 ⟨e, h, rfl⟩
    have hfound := (hd.shown (Lexeme.possible_scan hls) (by rw [e.shows_unplaced.2, hp])).parse
    rwa [text_unplaced] at hfound

theorem text_parses_back_nested :
    ∃ stmts found e found',
      Stmt.parseAll "x = -a ** 2 if (p and q) and not r in ['\"', ()] else m[i, j]; f(1.5, k=x | 1)"
        = .ok stmts ∧
      (∀ s ∈ stmts, s.isPlain = true) ∧
      stmts.map Stmt.text
        = ["x = ((-(a ** 2)) if ((p and q) and (not (r in [\"\\\"\", ()]))) else m[(i, j)])",
          "f(1.5, k=(x | 1))"] ∧
      Stmt.parseAll ("; ".intercalate (stmts.map Stmt.text)) = .ok found ∧
      found.map Stmt.unplaced = stmts.map Stmt.unplaced ∧
      Expr.parse "a, (b if c else -d)[0]" = .ok e ∧ e.isPlain = true ∧
      e.text = "(a, (b if c else (-d))[0])" ∧
      Expr.parse e.text = .ok found' ∧ found'.unplaced = e.unplaced := by
  simp only [exists_and_left]
  refine exists_ok_of (by decide +kernel) fun stmts hs => ?_
  have hstmts : ∀ s ∈ stmts, s.isPlain = true := of_ok hs (by decide +kernel)
  obtain ⟨found, hf, hfs⟩ := ((text_parses_back _).1 stmts hs hstmts).1
  refine ⟨hstmts, of_ok hs (by decide +kernel), found, hf, hfs,
    exists_ok_of (by decide +kernel) fun e he => ?_⟩
  have hexpr : e.isPlain = true := of_ok he (by decide +kernel)
  exact ⟨hexpr, of_ok he (by decide +kernel), (text_parses_back _).2 e he hexpr⟩

end RowAwk.Syntax
