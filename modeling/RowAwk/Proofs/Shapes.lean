import RowAwk.Proofs.Evaluation
import RowAwk.Proofs.Tokens

/-!
What the text of an expression shows.

The text of a variable is its name, whatever it is bound to, and a column shows its position only.
`shape` is an expression without what its text leaves out. A reader that minds every blank gets the
shape back from the tokens, so expressions with one text have one shape:

    ( $ 1 ␣ ␣ - ( x ) )     two arguments side by side, the second one a call of the sign
    ( $ 1 ␣ - ␣ ( x ) )     a difference

The value of an expression in a store is decided by its shape, so it is decided by its text.
-/

open List

namespace RowAwk.Awk

open Option (bind_eq_bind bind_some)

/-- An expression as its text shows it. Names and numerals are words. -/
inductive Shape where
  | word (cs : List Char)
  | string (cs : List Char)
  | field (digits : List Char)
  | call (function : String) (args : List Shape)
  | subscript (base index : Shape)
  | op (o : Op) (args : List Shape)
  | conditional (test yes no : Shape)

namespace Expr

mutual

/-- The shape of an expression. -/
def shape : Expr → Shape
  | .const (.str s) => .string s.toList
  | .const c => .word c.text.toList
  | .field _ position _ => .field (toString position).toList
  | .var name _ => .word name.toList
  | .builtin name => .word name.toList
  | .sideEffect name _ => .word name.toList
  | .call function args => .call function (shapes args)
  | .subscript base index => .subscript (shape base) (shape index)
  | .op o args => .op o (shapes args)
  | .conditional test yes no => .conditional (shape test) (shape yes) (shape no)
  | .assign _ value => shape value
  | .aggregate accumulator _ => .word accumulator.name.toList

def shapes : List Expr → List Shape
  | [] => []
  | e :: es => shape e :: shapes es

end

end Expr

/-! ### Reading tokens -/

namespace Shape

/-- The operators that stand between their arguments. -/
def infixes : List Op :=
  [.concat, .add, .sub, .mul, .div, .pow, .mod, .and, .or, .equal, .notEqual, .greater, .less,
    .greaterEqual, .lessEqual]

/-- The operator whose sign and blanks are at the head of some tokens. -/
def opAt? (ts : List Token) : Option (Op × List Token) :=
  (infixes.find? fun o => (o.separator.toList.map Token.mark).isPrefixOf ts).map fun o =>
    (o, ts.drop o.separator.toList.length)

/-- The tokens behind a mark. -/
def after? (c : Char) : List Token → Option (List Token)
  | .mark d :: ts => if d = c then some ts else none
  | _ => none

/-- The position of a column. -/
def readField : List Token → Option (Shape × List Token)
  | .word cs :: ts => some (.field cs, ts)
  | _ => none

mutual

/-- Reads an expression, with `fuel` to go. -/
def read (fuel : Nat) (ts : List Token) : Option (Shape × List Token) :=
  match fuel with
  | 0 => none
  | n + 1 => do
    let (s, rest) ← readHead n ts
    readTail n s rest

/-- Reads an expression up to the subscripts behind it. -/
def readHead (fuel : Nat) (ts : List Token) : Option (Shape × List Token) :=
  match fuel with
  | 0 => none
  | n + 1 =>
    match ts with
    | [] => none
    | .string cs :: ts => some (.string cs, ts)
    | .word cs :: ts =>
      match after? '(' ts with
      | none => some (.word cs, ts)
      | some ts => do
        let (args, rest) ← readArgs n ts
        return (.call (String.ofList cs) args, rest)
    | .mark c :: ts =>
      if c = '$' then readField ts
      else if c = '(' then do
        let (first, rest) ← read n ts
        readGroup n first rest
      else do
        let ts ← after? '(' ts
        let (args, rest) ← readArgs n ts
        return (.call (String.ofList [c]) args, rest)

/-- Reads the subscripts behind an expression. -/
def readTail (fuel : Nat) (base : Shape) (ts : List Token) : Option (Shape × List Token) :=
  match fuel with
  | 0 => none
  | n + 1 =>
    match after? '[' ts with
    | none => some (base, ts)
    | some ts => do
      let (index, rest) ← read n ts
      let rest ← after? ']' rest
      readTail n (.subscript base index) rest

/-- Reads what follows the first expression inside parentheses. -/
def readGroup (fuel : Nat) (first : Shape) (ts : List Token) : Option (Shape × List Token) :=
  match fuel with
  | 0 => none
  | n + 1 =>
    match after? ')' ts, after? '?' ts with
    | some ts, _ => some (.op .concat [first], ts)
    | none, some ts => do
      let (yes, rest) ← read n ts
      let rest ← after? ':' rest
      let (no, rest) ← read n rest
      let rest ← after? ')' rest
      return (.conditional first yes no, rest)
    | none, none => do
      let (o, rest) ← opAt? ts
      let (more, rest) ← readMore n rest
      return (.op o (first :: more), rest)

/-- Reads the further arguments of an operator. -/
def readMore (fuel : Nat) (ts : List Token) : Option (List Shape × List Token) :=
  match fuel with
  | 0 => none
  | n + 1 => do
    let (s, rest) ← read n ts
    match after? ')' rest with
    | some rest => return ([s], rest)
    | none =>
      let (_, rest) ← opAt? rest
      let (more, rest) ← readMore n rest
      return (s :: more, rest)

/-- Reads the arguments of a call. -/
def readArgs (fuel : Nat) (ts : List Token) : Option (List Shape × List Token) :=
  match fuel with
  | 0 => none
  | n + 1 =>
    match after? ')' ts with
    | some ts => some ([], ts)
    | none => do
      let (s, rest) ← read n ts
      match after? ')' rest with
      | some rest => return ([s], rest)
      | none =>
        let rest ← after? ',' rest
        let rest ← after? ' ' rest
        let (more, rest) ← readArgs n rest
        return (s :: more, rest)

end

/-! ### Enough fuel -/

/-- A property of every amount of fuel from some amount on. -/
def Eventually (p : Nat → Prop) : Prop := ∃ N, ∀ n, N ≤ n → p n

variable {p q : Nat → Prop}

theorem Eventually.and (hp : Eventually p) (hq : Eventually q) : Eventually fun n => p n ∧ q n := by
  obtain ⟨N, hN⟩ := hp
  obtain ⟨M, hM⟩ := hq
  exact ⟨N + M, fun n hn => ⟨hN n (by omega), hM n (by omega)⟩⟩

theorem Eventually.step (hp : Eventually p) (h : ∀ n, p n → q (n + 1)) : Eventually q := by
  obtain ⟨N, hN⟩ := hp
  refine ⟨N + 1, fun n hn => ?_⟩
  obtain ⟨m, rfl⟩ := Nat.exists_eq_add_of_le' (Nat.lt_of_lt_of_le (Nat.succ_pos N) hn)
  exact h m (hN m (by omega))

theorem eventually_succ (h : ∀ n, q (n + 1)) : Eventually q :=
  Eventually.step (p := fun _ => True) ⟨0, fun _ _ => trivial⟩ fun n _ => h n

theorem Eventually.eq {α : Type} {f : Nat → Option α} {a b : α}
    (ha : Eventually fun n => f n = some a) (hb : Eventually fun n => f n = some b) : a = b := by
  obtain ⟨N, h⟩ := ha.and hb
  obtain ⟨ha, hb⟩ := h N (Nat.le_refl N)
  exact Option.some.inj (ha.symm.trans hb)

@[simp] theorem after?_mark (c : Char) (ts : List Token) : after? c (.mark c :: ts) = some ts :=
  if_pos rfl

theorem after?_of_head {c : Char} {ts : List Token} (h : ts.head? ≠ some (.mark c)) :
    after? c ts = none := by
  cases ts with
  | nil => rfl
  | cons t ts =>
    cases t with
    | mark d => exact if_neg fun hd => h (by rw [hd]; rfl)
    | word cs | string cs => rfl

theorem opAt?_separator {o : Op} (h : o ≠ .juxtapose) (ts : List Token) :
    opAt? (o.separator.toList.map .mark ++ ts) = some (o, ts) := by
  cases o with
  | juxtapose => exact absurd rfl h
  | _ => rfl

/-- Tokens that neither call nor index what stands before them. -/
def Closes (r : List Token) : Prop := r.head? ≠ some (.mark '(') ∧ r.head? ≠ some (.mark '[')

theorem closes_mark {c : Char} (h₁ : c ≠ '(') (h₂ : c ≠ '[') (r : List Token) :
    Closes (.mark c :: r) := by
  simp [Closes, h₁, h₂]

theorem readTail_closes {r : List Token} (h : Closes r) (s : Shape) :
    Eventually fun n => readTail n s r = some (s, r) := by
  refine eventually_succ fun n => ?_
  rw [readTail, after?_of_head h.2]

end Shape

open Shape (Eventually Closes read readHead readTail readGroup readMore readArgs)

namespace Expr

/-- Once its subscripts are read too, an expression is read. What follows is no call of it. -/
def Readable (e : Expr) : Prop :=
  ∀ r out, r.head? ≠ some (.mark '(') → (Eventually fun n => readTail n e.shape r = some out) →
    Eventually fun n => read n (e.tokens ++ r) = some out

variable {e : Expr} {args : List Expr} {C : Const → Prop}

theorem Readable.read (h : e.Readable) {r : List Token} (hr : Closes r) :
    Eventually fun n => read n (e.tokens ++ r) = some (e.shape, r) :=
  h r _ hr.1 (Shape.readTail_closes hr e.shape)

theorem readable_of_head {e : Expr}
    (h : ∀ r, r.head? ≠ some (.mark '(') →
      Eventually fun n => readHead n (e.tokens ++ r) = some (e.shape, r)) : e.Readable := by
  intro r out hr htail
  refine ((h r hr).and htail).step fun n ⟨hh, ht⟩ => ?_
  rw [Shape.read, hh]
  exact ht

theorem readable_word {cs : List Char} (ht : e.tokens = [.word cs]) (hs : e.shape = .word cs) :
    e.Readable := by
  refine readable_of_head fun r hr => Shape.eventually_succ fun n => ?_
  rw [ht, hs, singleton_append, readHead, Shape.after?_of_head hr]

theorem readable_field (name : String) (position : Nat) (type : Schema.FieldType) :
    (Expr.field name position type).Readable := by
  refine readable_of_head fun r _ => Shape.eventually_succ fun n => ?_
  rw [tokens, shape, cons_append, singleton_append, readHead, if_pos rfl, Shape.readField]

theorem readable_const {c : Const} : (Expr.const c).Readable := by
  cases c with
  | str s =>
    refine readable_of_head fun r _ => Shape.eventually_succ fun n => ?_
    rw [tokens, constTokens, shape, singleton_append, readHead]
  | _ =>
    exact readable_word (by rw [tokens, constTokens]; rintro _ ⟨⟩) (by rw [shape]; rintro _ ⟨⟩)

theorem readable_subscript {base index : Expr} (hb : base.Readable) (hi : index.Readable) :
    (Expr.subscript base index).Readable := by
  intro r out hr htail
  have hindex := hi.read (Shape.closes_mark (c := ']') (by decide) (by decide) r)
  rw [tokens, append_assoc, cons_append, append_assoc, singleton_append]
  refine hb _ out (by simp) ((hindex.and htail).step fun n hn => ?_)
  obtain ⟨hi, ht⟩ := hn
  rw [readTail, Shape.after?_mark]
  simp only [hi, bind_eq_bind, bind_some, Shape.after?_mark]
  exact ht

/-- Where an expression starts: no parenthesis closes there. -/
def Opens (e : Expr) : Prop := ∃ t ts, e.tokens = t :: ts ∧ t ≠ .mark ')'

theorem Opens.after? (h : e.Opens) (r : List Token) : Shape.after? ')' (e.tokens ++ r) = none := by
  obtain ⟨t, ts, he, ht⟩ := h
  rw [he]
  exact Shape.after?_of_head (by simpa using ht)

/-- The arguments of a call, up to the parenthesis that closes it. -/
theorem eventually_readArgs : ∀ {args : List Expr}, (∀ a ∈ args, a.Readable ∧ a.Opens) →
    ∀ r, Eventually fun n => readArgs n
      ([Token.mark ',', .mark ' '].intercalate (tokensAll args) ++ .mark ')' :: r)
        = some (shapes args, r)
  | [], _, r => by
    refine Shape.eventually_succ fun n => ?_
    rw [tokensAll, intercalate_nil, nil_append, readArgs, Shape.after?_mark, shapes]
  | [a], h, r => by
    obtain ⟨ha, ho⟩ := h a mem_cons_self
    refine (ha.read (Shape.closes_mark (c := ')') (by decide) (by decide) r)).step fun n hn => ?_
    simp only [tokensAll, intercalate_singleton, shapes, readArgs, ho.after?, hn,
      bind_eq_bind, bind_some, Shape.after?_mark]
    rfl
  | a :: b :: args, h, r => by
    obtain ⟨ha, ho⟩ := h a mem_cons_self
    have hrest := eventually_readArgs (fun x hx => h x (mem_cons_of_mem a hx)) r
    have hfirst := ha.read (Shape.closes_mark (c := ',') (by decide) (by decide)
      (.mark ' ' :: ([Token.mark ',', .mark ' '].intercalate (tokensAll (b :: args)) ++
        .mark ')' :: r)))
    refine (hfirst.and hrest).step fun n hboth => ?_
    obtain ⟨hf, hn⟩ := hboth
    rw [tokensAll, tokensAll, intercalate_cons_cons, ← tokensAll, append_assoc,
      append_assoc, cons_append, singleton_append, readArgs, ho.after?, shapes]
    have hclose : Shape.after? ')' (Token.mark ',' :: .mark ' ' ::
        ([Token.mark ',', .mark ' '].intercalate (tokensAll (b :: args)) ++ .mark ')' :: r))
          = none := rfl
    simp only [hf, hn, hclose, bind_eq_bind, bind_some, Shape.after?_mark]
    rfl

theorem readable_call {f : String} (hf : Syntax.isName f = true ∨ f ∈ ["-", "!"])
    (h : ∀ a ∈ args, a.Readable ∧ a.Opens) : (Expr.call f args).Readable := by
  refine readable_of_head fun r _ => (eventually_readArgs h r).step fun n hn => ?_
  rw [tokens, shape, append_assoc, cons_append, append_assoc, singleton_append]
  rcases hf with hf | hf
  · rw [headTokens_of_isName hf, singleton_append, readHead, Shape.after?_mark]
    simp only [hn, bind_eq_bind, bind_some, String.ofList_toList]
    rfl
  · have hsign : headTokens f = f.toList.map .mark := if_neg (by
      simp only [mem_cons, not_mem_nil, or_false] at hf
      rcases hf with rfl | rfl <;> decide)
    simp only [mem_cons, not_mem_nil, or_false] at hf
    rcases hf with rfl | rfl
    · rw [hsign]
      show readHead (n + 1) (.mark '-' :: .mark '(' :: _) = _
      rw [readHead, if_neg (by decide), if_neg (by decide), Shape.after?_mark]
      simp only [hn, bind_eq_bind, bind_some]
      rfl
    · rw [hsign]
      show readHead (n + 1) (.mark '!' :: .mark '(' :: _) = _
      rw [readHead, if_neg (by decide), if_neg (by decide), Shape.after?_mark]
      simp only [hn, bind_eq_bind, bind_some]
      rfl

theorem closes_separator (o : Op) (r : List Token) :
    Closes (o.separator.toList.map .mark ++ r) := by
  cases o <;> exact Shape.closes_mark (c := ' ') (by decide) (by decide) _

theorem after?_separator (o : Op) {c : Char} (hc : c ≠ ' ') (r : List Token) :
    Shape.after? c (o.separator.toList.map .mark ++ r) = none := by
  cases o <;> exact if_neg hc.symm

/-- The arguments of an operator after the first, up to the parenthesis that closes it. -/
theorem eventually_readMore {o : Op} (ho : o ≠ .juxtapose) : ∀ {args : List Expr}, args ≠ [] →
    (∀ a ∈ args, a.Readable) → ∀ r, Eventually fun n => readMore n
      ((o.separator.toList.map .mark).intercalate (tokensAll args) ++ .mark ')' :: r)
        = some (shapes args, r)
  | [], hne, _, _ => absurd rfl hne
  | [a], _, h, r => by
    refine ((h a mem_cons_self).read
      (Shape.closes_mark (c := ')') (by decide) (by decide) r)).step fun n hn => ?_
    rw [tokensAll, tokensAll, intercalate_singleton, readMore, shapes, shapes]
    simp only [hn, bind_eq_bind, bind_some, Shape.after?_mark]
    rfl
  | a :: b :: args, _, h, r => by
    have hrest := eventually_readMore ho (cons_ne_nil b args)
      (fun x hx => h x (mem_cons_of_mem a hx)) r
    have hfirst := (h a mem_cons_self).read (closes_separator o
      ((o.separator.toList.map .mark).intercalate (tokensAll (b :: args)) ++ .mark ')' :: r))
    refine (hfirst.and hrest).step fun n hboth => ?_
    obtain ⟨hf, hn⟩ := hboth
    rw [tokensAll, tokensAll, intercalate_cons_cons, ← tokensAll, append_assoc,
      append_assoc, readMore, shapes]
    simp only [hf, hn, bind_eq_bind, bind_some, after?_separator o (c := ')') (by decide),
      Shape.opAt?_separator ho]
    rfl

theorem readable_op {o : Op} (hfit : Compile.Fits o args.length) (h : ∀ a ∈ args, a.Readable) :
    (Expr.op o args).Readable := by
  have ho : o ≠ .juxtapose := by
    rintro rfl
    exact hfit
  refine readable_of_head fun r _ => ?_
  rw [tokens, shape, cons_append, append_assoc, singleton_append]
  cases args with
  | nil => cases o <;> simp [Compile.Fits] at hfit
  | cons a args =>
    cases args with
    | nil =>
      have hconcat : o = .concat := by
        cases o <;> simp [Compile.Fits] at hfit
        rfl
      subst hconcat
      have hread := (h a mem_cons_self).read
        (Shape.closes_mark (c := ')') (by decide) (by decide) r)
      have hgroup : Eventually fun n =>
          readGroup n a.shape (.mark ')' :: r) = some (.op .concat [a.shape], r) :=
        Shape.eventually_succ fun n => by rw [readGroup, Shape.after?_mark]
      refine (hread.and hgroup).step fun n hboth => ?_
      obtain ⟨hr, hg⟩ := hboth
      rw [tokensAll, tokensAll, intercalate_singleton, readHead, if_neg (by decide), if_pos rfl, hr]
      exact hg
    | cons b args =>
      have hmore := eventually_readMore ho (cons_ne_nil b args)
        (fun x hx => h x (mem_cons_of_mem a hx)) r
      have hread := (h a mem_cons_self).read (closes_separator o
        ((o.separator.toList.map .mark).intercalate (tokensAll (b :: args)) ++ .mark ')' :: r))
      have hgroup := hmore.step (q := fun n => readGroup n a.shape
          (o.separator.toList.map .mark ++
            ((o.separator.toList.map .mark).intercalate (tokensAll (b :: args)) ++ .mark ')' :: r))
            = some (.op o (shapes (a :: b :: args)), r)) fun n hn => by
        rw [readGroup, after?_separator o (by decide), after?_separator o (by decide)]
        simp only [Shape.opAt?_separator ho, hn, bind_eq_bind, bind_some]
        rfl
      refine (hread.and hgroup).step fun n hboth => ?_
      obtain ⟨hr, hg⟩ := hboth
      rw [tokensAll, tokensAll, intercalate_cons_cons, ← tokensAll, append_assoc,
        append_assoc, readHead, if_neg (by decide), if_pos rfl, hr]
      exact hg

theorem readable_conditional {test yes no : Expr} (ht : test.Readable) (hy : yes.Readable)
    (hn : no.Readable) : (Expr.conditional test yes no).Readable := by
  refine readable_of_head fun r _ => ?_
  have hno := hn.read (Shape.closes_mark (c := ')') (by decide) (by decide) r)
  have hyes := hy.read (Shape.closes_mark (c := ':') (by decide) (by decide)
    (no.tokens ++ .mark ')' :: r))
  have htest := ht.read (Shape.closes_mark (c := '?') (by decide) (by decide)
    (yes.tokens ++ .mark ':' :: (no.tokens ++ .mark ')' :: r)))
  have hgroup := (hyes.and hno).step (q := fun n => readGroup n test.shape
      (.mark '?' :: (yes.tokens ++ .mark ':' :: (no.tokens ++ .mark ')' :: r)))
        = some (.conditional test.shape yes.shape no.shape, r)) fun n ⟨hy, hn⟩ => by
    rw [readGroup, Shape.after?_mark, Shape.after?_of_head (by simp)]
    simp only [hy, hn, bind_eq_bind, bind_some, Shape.after?_mark]
    rfl
  refine (htest.and hgroup).step fun n ⟨ht, hg⟩ => ?_
  rw [tokens, shape]
  simp only [cons_append, append_assoc, nil_append]
  rw [readHead, if_neg (by decide), if_pos rfl, ht]
  exact hg

/-- A lowered expression starts with a word, a string or a mark that opens something. -/
theorem Lowered.opens (h : Lowered C e) : e.Opens := by
  induction h with
  | @const c _ => cases c <;> exact ⟨_, _, rfl, nofun⟩
  | field | op | conditional => exact ⟨_, _, rfl, by decide⟩
  | var | builtin | sideEffect | aggregate => exact ⟨_, _, rfl, nofun⟩
  | @call f args hf =>
    rw [Opens, tokens, headTokens_of_isName hf]
    exact ⟨_, _, rfl, nofun⟩
  | sign hf =>
    simp only [mem_cons, not_mem_nil, or_false] at hf
    rcases hf with rfl | rfl
    · exact ⟨.mark '-', _, rfl, by decide⟩
    · exact ⟨.mark '!', _, rfl, by decide⟩
  | subscript _ _ ih _ =>
    obtain ⟨t, ts, he, ht⟩ := ih
    exact ⟨t, _, by rw [tokens, he]; rfl, ht⟩

/-- The reader gets the shape of every lowered expression. -/
theorem Lowered.readable (h : Lowered C e) : e.Readable := by
  induction h with
  | const => exact readable_const
  | field => exact readable_field _ _ _
  | var | builtin | sideEffect | aggregate => exact readable_word rfl rfl
  | call hf ha ih => exact readable_call (.inl hf) fun a hm => ⟨ih a hm, (ha a hm).opens⟩
  | sign hf ha ih => exact readable_call (.inr hf) (by simpa using ⟨ih, ha.opens⟩)
  | subscript _ _ ihb ihi => exact readable_subscript ihb ihi
  | op hfit _ ih => exact readable_op hfit ih
  | conditional _ _ _ iht ihy ihn => exact readable_conditional iht ihy ihn

/-- Expressions with one text have one shape. -/
theorem Lowered.shape_eq (hC : ∀ c, C c → c.Written) {x y : Expr} (hx : Lowered C x)
    (hy : Lowered C y) (h : x.text = y.text) : x.shape = y.shape := by
  have htokens : x.tokens ++ [] = y.tokens ++ [] := by
    have hlx := hx.lex_text hC [] Token.apart_nil
    have hly := hy.lex_text hC [] Token.apart_nil
    rw [Token.lex_nil] at hlx hly
    rw [← hlx, ← hly, h]
  have hcloses : Closes [] := ⟨nofun, nofun⟩
  have hrx := hx.readable.read hcloses
  rw [htokens] at hrx
  exact congrArg Prod.fst (hrx.eq (hy.readable.read hcloses))

end Expr

/-! ### Values by shapes -/

open Classical in
/-- The constant that a numeral writes, with truth values as numbers. -/
noncomputable def Const.ofNumeral (cs : List Char) : Const :=
  if h : ∃ c : Const, c.Written ∧ c.isNumeral = true ∧ c.text.toList = cs then h.choose.plain
  else .int 0

theorem Const.ofNumeral_text {c : Const} (hc : c.Written) (hn : c.isNumeral = true) :
    Const.ofNumeral c.text.toList = c.plain := by
  have h : ∃ d : Const, d.Written ∧ d.isNumeral = true ∧ d.text.toList = c.text.toList :=
    ⟨c, hc, hn, rfl⟩
  rw [Const.ofNumeral, dif_pos h]
  obtain ⟨hd, hdn, hdt⟩ := h.choose_spec
  exact hd.plain_eq hc hdn hn (String.toList_inj.1 hdt)

/-- Constants that sources write with finite numbers. -/
def Const.Finite (c : Const) : Prop :=
  c.Written ∧ ((∃ s, c = .str s) ∨ c.isNumeral = true)

namespace Machine

variable {V : Type} (M : Machine V) (columns : Nat → V) (σ : Store V)

/-- Truth values are the numbers one and zero. -/
def NumbersTruth : Prop := ∀ b : Bool, M.const (.bool b) = M.const (.int (if b then 1 else 0))

mutual

/-- The value that a shape has in a store. -/
noncomputable def shown : Shape → V
  | .word [] => σ ""
  | .word (c :: cs) =>
    if c.isDigit then M.const (.ofNumeral (c :: cs)) else σ (String.ofList (c :: cs))
  | .string cs => M.const (.str (String.ofList cs))
  | .field digits => columns (Nat.ofDigitChars 10 digits 0)
  | .call function args => M.call function (shownAll args)
  | .subscript base index => M.subscript (shown base) (shown index)
  | .op o args => M.op o (shownAll args)
  | .conditional test yes no => if M.truth (shown test) then shown yes else shown no

noncomputable def shownAll : List Shape → List V
  | [] => []
  | s :: ss => shown s :: shownAll ss

end

variable {M columns σ}

theorem shown_name {n : String} (h : Syntax.isName n = true) :
    M.shown columns σ (.word n.toList) = σ n := by
  rw [Syntax.isName] at h
  cases hn : n.toList with
  | nil => simp [hn] at h
  | cons c cs =>
    simp only [hn, Bool.and_eq_true] at h
    rw [shown, if_neg (Syntax.Lexeme.isDigit_isNameStart h.1), ← hn, String.ofList_toList]

theorem shown_const (hM : M.NumbersTruth) {c : Const} (hc : c.Written) (hn : c.isNumeral = true) :
    M.shown columns σ (Expr.const c).shape = M.const c := by
  have hshape : (Expr.const c).shape = .word c.text.toList := by
    cases c with
    | str => cases hn
    | _ => rfl
  have hplain : M.const c.plain = M.const c := by
    cases c with
    | bool b => exact (hM b).symm
    | _ => rfl
  obtain ⟨-, d, ds, ht, hd⟩ := hc.numeral hn
  rw [hshape, ht, shown, if_pos hd, ← ht, Const.ofNumeral_text hc hn, hplain]

theorem shownAll_shapes : ∀ {args : List Expr},
    (∀ a ∈ args, M.eval columns σ a = M.shown columns σ a.shape) →
      M.evalAll columns σ args = M.shownAll columns σ (Expr.shapes args)
  | [], _ => by rw [evalAll, Expr.shapes, shownAll]
  | a :: args, h => by
    rw [evalAll, Expr.shapes, shownAll, h a mem_cons_self,
      shownAll_shapes fun x hx => h x (mem_cons_of_mem a hx)]

end Machine

/-- No lowered expression fills an array. -/
theorem Expr.Lowered.splitting? {C : Const → Prop} {e : Expr} (h : Expr.Lowered C e) :
    e.splitting? = none := by
  unfold Expr.splitting?
  split
  · rename_i f text array delim
    refine if_neg ?_
    rintro ⟨rfl, hn⟩
    cases h with
    | call _ ha =>
      cases ha (.builtin array) (by simp) with
      | builtin hw => exact hn hw
  · rfl

namespace Machine

variable {V : Type} {M : Machine V} {columns : Nat → V} {σ : Store V}

/-- The value of a lowered expression is that of its shape. -/
theorem eval_eq_shown (hM : M.NumbersTruth) {e : Expr} (h : e.Lowered Const.Finite) :
    M.eval columns σ e = M.shown columns σ e.shape := by
  have hsplit := fun {e : Expr} (h : e.Lowered Const.Finite) => h.splitting?
  induction h with
  | @const c hc =>
    obtain ⟨hw, ⟨s, rfl⟩ | hn⟩ := hc
    · rw [eval, Expr.shape, shown, String.ofList_toList]
    · rw [eval, shown_const hM hw hn]
  | field => rw [eval, Expr.shape, shown, Number.ofDigitChars_toString]
  | var hn | sideEffect hn | aggregate hn => rw [eval, Expr.shape, shown_name hn]
  | builtin hn => rw [eval, Expr.shape, shown_name (Expr.isName_of_mem_awkVariables hn)]
  | @call f args hf ha ih =>
    rw [eval, Expr.shape, shown, hsplit (.call hf ha), shownAll_shapes ih]
    rfl
  | @sign f a hf ha ih =>
    rw [eval, Expr.shape, shown, hsplit (.sign hf ha), shownAll_shapes (by simpa using ih)]
    rfl
  | subscript _ _ ihb ihi => rw [eval, Expr.shape, shown, ihb, ihi]
  | op _ _ ih => rw [eval, Expr.shape, shown, shownAll_shapes ih]
  | conditional _ _ _ iht ihy ihn => rw [eval, Expr.shape, shown, iht, ihy, ihn]

/-- Expressions with one text have one value. -/
theorem eval_eq_of_text_eq (hM : M.NumbersTruth) {x y : Expr} (hx : x.Lowered Const.Finite)
    (hy : y.Lowered Const.Finite) (h : x.text = y.text) :
    M.eval columns σ x = M.eval columns σ y := by
  rw [eval_eq_shown hM hx, eval_eq_shown hM hy, hx.shape_eq (fun _ hc => hc.1) hy h]

end Machine

end RowAwk.Awk
