import RowAwk.Proofs.Closure
import RowAwk.Proofs.Constants

/-!
The tokens of awk texts.

A text is cut into words, strings and single marks; blanks are marks too. Words are names and
numerals, taken as far as they go. Cutting the text of an expression gives the tokens of its parts
in order, whatever stands behind it, as long as that does not continue its last word.

    ($1  _min0)   ──▶   ( $ 1 ␣ ␣ _min0 )
-/

open List hiding lex

namespace RowAwk.Awk

open Syntax (isName)

inductive Token where
  | word (cs : List Char)
  | string (cs : List Char)
  | mark (c : Char)
deriving DecidableEq

namespace Token

/-- A character of a name or a numeral. -/
def isWordPart (c : Char) : Bool := Syntax.isNamePart c || c == '.'

/-- Puts a character before the word at the head of some tokens. -/
def consWord (c : Char) : List Token → List Token
  | .word cs :: ts => .word (c :: cs) :: ts
  | ts => .word [c] :: ts

/-- The character that an escape stands for. -/
def unescape (c : Char) : Char :=
  if c = 'n' then '\n' else if c = 't' then '\t' else if c = 'r' then '\r' else c

mutual

/-- The tokens of a text. -/
def lex : List Char → List Token
  | [] => []
  | c :: cs =>
    if c = '"' then
      let inside := lexString cs
      .string inside.1 :: inside.2
    else if isWordPart c then consWord c (lex cs)
    else .mark c :: lex cs

/-- The rest of a string, and the tokens behind it. -/
def lexString : List Char → List Char × List Token
  | [] => ([], [])
  | '"' :: cs => ([], lex cs)
  | '\\' :: c :: cs =>
    let inside := lexString cs
    (unescape c :: inside.1, inside.2)
  | c :: cs =>
    let inside := lexString cs
    (c :: inside.1, inside.2)

end

/-- A text that does not continue a word. -/
def Apart (cs : List Char) : Prop := ∀ c ∈ cs.head?, isWordPart c = false

theorem apart_nil : Apart [] := nofun

variable {c : Char} {cs : List Char}

theorem apart_cons (h : isWordPart c = false) : Apart (c :: cs) := by
  rintro d hd
  cases hd
  exact h

theorem lex_nil : lex [] = [] := by rw [lex]

theorem lex_mark (hw : isWordPart c = false) (hq : c ≠ '"') (cs : List Char) :
    lex (c :: cs) = .mark c :: lex cs := by
  rw [lex, if_neg hq, if_neg (by rw [hw]; exact Bool.false_ne_true)]

theorem consWord_lex (h : Apart cs) : consWord c (lex cs) = .word [c] :: lex cs := by
  cases cs with
  | nil => rw [lex_nil, consWord]; nofun
  | cons d ds =>
    have hd : isWordPart d = false := h d rfl
    rw [lex]
    split
    · rw [consWord]; nofun
    · rw [if_neg (by rw [hd]; exact Bool.false_ne_true), consWord]; nofun

/-- A word goes as far as it can. -/
theorem lex_word {r : List Char} (hr : Apart r) : ∀ {w : List Char}, w ≠ [] →
    (∀ c ∈ w, isWordPart c = true) → lex (w ++ r) = .word w :: lex r
  | [], h, _ => absurd rfl h
  | c :: w, _, hw => by
    have hc : isWordPart c = true := hw c mem_cons_self
    have hq : c ≠ '"' := by
      rintro rfl
      exact absurd hc (by decide)
    rw [cons_append, lex, if_neg hq, if_pos hc]
    cases w with
    | nil => rw [nil_append, consWord_lex hr]
    | cons d ds =>
      rw [lex_word hr (cons_ne_nil d ds) fun x hx => hw x (mem_cons_of_mem c hx), consWord]

theorem unescape_eq {c d : Char} (h : Syntax.Lexeme.unescape? d = some c) : unescape d = c := by
  unfold Syntax.Lexeme.unescape? at h
  split at h <;> cases h <;> rfl

/-- A string ends at the quote that no backslash precedes. -/
theorem lexString_escape (r : List Char) : ∀ cs : List Char,
    lexString (cs.flatMap escapeChar ++ '"' :: r) = (cs, lex r)
  | [] => by rw [flatMap_nil, nil_append, lexString]
  | c :: cs => by
    rw [flatMap_cons, append_assoc]
    rcases escapeChar_spells c with ⟨he, hq, hb, -⟩ | ⟨d, he, -, hd⟩
    · rw [he, cons_append, nil_append, lexString, lexString_escape r cs]
      · exact hq
      · rintro d ds rfl
        exact fun _ => hb rfl
    · rw [he]
      simp only [cons_append, nil_append, lexString, lexString_escape r cs, unescape_eq hd]

theorem lex_stringText (s : String) (r : List Char) :
    lex ((stringText s).toList ++ r) = .string s.toList :: lex r := by
  rw [stringText, String.toList_ofList, cons_append, cons_append, append_assoc,
    singleton_append, lex, if_pos rfl, lexString_escape]

theorem lex_marks (r : List Char) : ∀ {cs : List Char},
    (∀ c ∈ cs, isWordPart c = false ∧ c ≠ '"') → lex (cs ++ r) = cs.map .mark ++ lex r
  | [], _ => rfl
  | c :: cs, h => by
    obtain ⟨hw, hq⟩ := h c mem_cons_self
    rw [cons_append, lex_mark hw hq, lex_marks r fun d hd => h d (mem_cons_of_mem c hd)]
    rfl

/-- Texts with marks between them are cut one by one. -/
theorem lex_intercalate {sep : List Char} (hs : ∀ c ∈ sep, isWordPart c = false ∧ c ≠ '"')
    (hne : sep ≠ []) {close : Char} (hc : isWordPart close = false) (r : List Char) :
    ∀ {texts : List (List Char)} {tokens : List (List Token)},
      List.Forall₂ (fun text ts => ∀ r, Apart r → lex (text ++ r) = ts ++ lex r) texts tokens →
        lex (sep.intercalate texts ++ close :: r)
          = (sep.map .mark).intercalate tokens ++ lex (close :: r)
  | [], [], _ => rfl
  | [_], [_], .cons h .nil => by
    rw [intercalate_singleton, intercalate_singleton, h _ (apart_cons hc)]
  | text :: text' :: texts, ts :: ts' :: tokens, .cons h hrest => by
    have hsep : Apart (sep ++ (sep.intercalate (text' :: texts) ++ close :: r)) := by
      cases sep with
      | nil => exact absurd rfl hne
      | cons c cs => exact apart_cons (hs c mem_cons_self).1
    rw [intercalate_cons_cons, intercalate_cons_cons, append_assoc, append_assoc, h _ hsep,
      lex_marks _ hs, lex_intercalate hs hne hc r hrest, append_assoc, append_assoc]

end Token

/-! ### Expressions that lowering builds -/

namespace Expr

open Compile (Fits)

/-- What the text of a lowered expression is made of: names, constants of the kind `C`, and
    operators with the arguments they need. -/
inductive Lowered (C : Const → Prop) : Expr → Prop
  | const {c} : C c → Lowered C (.const c)
  | field {name position type} : Lowered C (.field name position type)
  | var {name b} : isName name → Lowered C (.var name b)
  | builtin {name} : name ∈ Compile.awkVariables → Lowered C (.builtin name)
  | sideEffect {name cause} : isName name → Lowered C (.sideEffect name cause)
  | aggregate {a args} : isName a.name → Lowered C (.aggregate a args)
  | call {f args} : isName f → (∀ a ∈ args, Lowered C a) → Lowered C (.call f args)
  | sign {f a} : f ∈ ["-", "!"] → Lowered C a → Lowered C (.call f [a])
  | subscript {base index} : Lowered C base → Lowered C index → Lowered C (.subscript base index)
  | op {o args} : Fits o args.length → (∀ a ∈ args, Lowered C a) → Lowered C (.op o args)
  | conditional {test yes no} : Lowered C test → Lowered C yes → Lowered C no →
      Lowered C (.conditional test yes no)

/-- The tokens of what is called: a name or a sign. -/
def headTokens (f : String) : List Token :=
  if isName f then [.word f.toList] else f.toList.map .mark

/-- The tokens of a constant. -/
def constTokens : Const → List Token
  | .str s => [.string s.toList]
  | c => [.word c.text.toList]

mutual

/-- The tokens of an expression. -/
def tokens : Expr → List Token
  | .const c => constTokens c
  | .field _ position _ => [.mark '$', .word (toString position).toList]
  | .var name _ => [.word name.toList]
  | .builtin name => [.word name.toList]
  | .sideEffect name _ => [.word name.toList]
  | .call f args =>
    headTokens f ++ .mark '(' :: ([Token.mark ',', .mark ' '].intercalate (tokensAll args) ++
      [.mark ')'])
  | .subscript base index => tokens base ++ .mark '[' :: (tokens index ++ [.mark ']'])
  | .op o args =>
    .mark '(' :: ((o.separator.toList.map .mark).intercalate (tokensAll args) ++ [.mark ')'])
  | .conditional test yes no =>
    .mark '(' :: (tokens test ++ .mark '?' :: (tokens yes ++ .mark ':' :: (tokens no ++
      [.mark ')'])))
  | .assign _ value => tokens value
  | .aggregate accumulator _ => [.word accumulator.name.toList]

def tokensAll : List Expr → List (List Token)
  | [] => []
  | e :: es => tokens e :: tokensAll es

end

theorem tokensAll_eq_map : ∀ es : List Expr, tokensAll es = es.map tokens
  | [] => rfl
  | e :: es => by rw [tokensAll, tokensAll_eq_map es, map_cons]

theorem texts_eq_map : ∀ es : List Expr, texts es = es.map text
  | [] => rfl
  | e :: es => by rw [texts, texts_eq_map es, map_cons]

/-! ### Cutting the text of an expression -/

open Token (Apart lex isWordPart)

variable {n f : String} {r : List Char} {args : List Expr}

theorem isWordPart_of_isName (h : isName n = true) :
    n.toList ≠ [] ∧ ∀ c ∈ n.toList, isWordPart c = true := by
  rw [isName] at h
  cases hn : n.toList with
  | nil => simp [hn] at h
  | cons c cs =>
    simp only [hn, Bool.and_eq_true, all_eq_true] at h
    have hpart : ∀ d ∈ c :: cs, Syntax.isNamePart d = true := by
      intro d hd
      rcases mem_cons.1 hd with rfl | hd
      · have hs := h.1
        simp only [Syntax.isNameStart, Syntax.isNamePart, Char.isAlphanum, Bool.or_eq_true] at hs ⊢
        exact hs.imp_left .inl
      · exact h.2 d hd
    refine ⟨cons_ne_nil c cs, fun d hd => ?_⟩
    rw [isWordPart, hpart d hd, Bool.true_or]

theorem isName_of_mem_awkVariables (h : n ∈ Compile.awkVariables) : isName n = true := by
  have key : ∀ n ∈ Compile.awkVariables, isName n = true := by decide
  exact key n h

theorem lex_name (h : isName n = true) (hr : Apart r) :
    lex (n.toList ++ r) = .word n.toList :: lex r := by
  obtain ⟨hne, hw⟩ := isWordPart_of_isName h
  exact Token.lex_word hr hne hw

theorem isWordPart_of_numeral {cs : List Char} (h : Const.Numeral cs) :
    cs ≠ [] ∧ ∀ c ∈ cs, isWordPart c = true := by
  obtain ⟨hall, c, rest, rfl, -⟩ := h
  refine ⟨cons_ne_nil c rest, fun d hd => ?_⟩
  rw [isWordPart, Syntax.isNamePart, Char.isAlphanum]
  rcases hall d hd with hd | rfl
  · rw [hd, Bool.or_true, Bool.true_or, Bool.true_or]
  · rfl

theorem lex_const {c : Const} (h : c.Written) (hr : Apart r) :
    lex (c.text.toList ++ r) = constTokens c ++ lex r := by
  have hword (hn : c.isNumeral = true) : lex (c.text.toList ++ r) = .word c.text.toList :: lex r := by
    obtain ⟨hne, hw⟩ := isWordPart_of_numeral (h.numeral hn)
    exact Token.lex_word hr hne hw
  cases h with
  | nat n | real hm | bool b => exact hword rfl
  | infinite => exact lex_name (n := "inf") (by decide) hr
  | str s => exact Token.lex_stringText s r

theorem headTokens_of_isName (hf : isName f = true) :
    headTokens f = [.word f.toList] := if_pos hf

/-- What is called is cut off before the parenthesis. -/
theorem lex_head (h : isName f = true ∨ f ∈ ["-", "!"]) (r : List Char) :
    lex (f.toList ++ '(' :: r) = headTokens f ++ .mark '(' :: lex r := by
  have hopen : lex ('(' :: r) = .mark '(' :: lex r := Token.lex_mark rfl (by decide) r
  rcases h with h | h
  · rw [headTokens_of_isName h, lex_name h (Token.apart_cons rfl), hopen]
    rfl
  · rw [← hopen]
    simp only [mem_cons, not_mem_nil, or_false] at h
    rcases h with rfl | rfl
    · exact Token.lex_marks _ (by simp; decide)
    · exact Token.lex_marks _ (by simp; decide)

theorem separator_marks (o : Op) :
    (∀ c ∈ o.separator.toList, isWordPart c = false ∧ c ≠ '"') ∧ o.separator.toList ≠ [] := by
  cases o <;> simp [Op.separator] <;> decide

theorem forall₂_tokens {es : List Expr}
    (h : ∀ e ∈ es, ∀ r, Apart r → lex (e.text.toList ++ r) = tokens e ++ lex r) :
    List.Forall₂ (fun text ts => ∀ r, Apart r → lex (text ++ r) = ts ++ lex r)
      ((texts es).map String.toList) (tokensAll es) := by
  rw [texts_eq_map, tokensAll_eq_map, map_map, forall₂_map_left_iff,
    forall₂_map_right_iff, forall₂_same]
  exact h

theorem lex_call (hf : isName f = true ∨ f ∈ ["-", "!"])
    (ih : ∀ a ∈ args, ∀ r, Apart r → lex (a.text.toList ++ r) = tokens a ++ lex r) (r : List Char) :
    lex ((Expr.call f args).text.toList ++ r) = tokens (.call f args) ++ lex r := by
  have hsep : ∀ c ∈ ", ".toList, isWordPart c = false ∧ c ≠ '"' := by simp; decide
  have hargs := Token.lex_intercalate hsep (by decide) (show isWordPart ')' = false from rfl) r
    (forall₂_tokens ih)
  rw [Token.lex_mark rfl (by decide)] at hargs
  have htext : (Expr.call f args).text.toList ++ r
      = f.toList ++ '(' :: (", ".toList.intercalate ((texts args).map String.toList) ++ ')' :: r) := by
    simp [text, String.toList_append, String.toList_intercalate]
  rw [htext, lex_head hf, hargs, tokens, append_assoc, cons_append, append_assoc]
  rfl

theorem lex_op {o : Op}
    (ih : ∀ a ∈ args, ∀ r, Apart r → lex (a.text.toList ++ r) = tokens a ++ lex r) (r : List Char) :
    lex ((Expr.op o args).text.toList ++ r) = tokens (.op o args) ++ lex r := by
  obtain ⟨hsep, hne⟩ := separator_marks o
  have hargs := Token.lex_intercalate hsep hne (show isWordPart ')' = false from rfl) r
    (forall₂_tokens ih)
  rw [Token.lex_mark rfl (by decide)] at hargs
  have htext : (Expr.op o args).text.toList ++ r
      = '(' :: (o.separator.toList.intercalate ((texts args).map String.toList) ++ ')' :: r) := by
    simp [text, String.toList_append, String.toList_intercalate]
  rw [htext, Token.lex_mark rfl (by decide), hargs, tokens, cons_append, append_assoc]
  rfl

/-- The text of an expression is cut into its tokens, whatever follows. -/
theorem Lowered.lex_text {C : Const → Prop} (hC : ∀ c, C c → c.Written) {e : Expr}
    (h : Lowered C e) : ∀ r, Apart r → lex (e.text.toList ++ r) = tokens e ++ lex r := by
  -- a mark behind a part ends its last word
  have part {e : Expr} (ih : ∀ r, Apart r → lex (e.text.toList ++ r) = tokens e ++ lex r) {c : Char}
      (hc : isWordPart c = false) (hq : c ≠ '"') (r : List Char) :
      lex (e.text.toList ++ c :: r) = tokens e ++ .mark c :: lex r := by
    rw [ih _ (Token.apart_cons hc), Token.lex_mark hc hq]
  induction h with
  | const hc => exact fun r hr => lex_const (hC _ hc) hr
  | @field name position type =>
    intro r hr
    obtain ⟨hne, hw⟩ := isWordPart_of_numeral (Const.numeral_toString position)
    have htext : (Expr.field name position type).text.toList = '$' :: (toString position).toList := by
      simp [text, String.toList_append]
    rw [htext, cons_append, Token.lex_mark rfl (by decide), Token.lex_word hr hne hw, tokens]
    rfl
  | var hn | sideEffect hn | aggregate hn => exact fun r hr => lex_name hn hr
  | builtin hn => exact fun r hr => lex_name (isName_of_mem_awkVariables hn) hr
  | call hf _ ih => exact fun r _ => lex_call (.inl hf) ih r
  | sign hf _ ih => exact fun r _ => lex_call (.inr hf) (by simpa using ih) r
  | @subscript base index _ _ ihb ihi =>
    intro r _
    have htext : (Expr.subscript base index).text.toList ++ r
        = base.text.toList ++ '[' :: (index.text.toList ++ ']' :: r) := by
      simp [text, String.toList_append]
    rw [htext, part ihb rfl (by decide), part ihi rfl (by decide), tokens]
    simp
  | op _ _ ih => exact fun r _ => lex_op ih r
  | @conditional test yes no _ _ _ iht ihy ihn =>
    intro r _
    have htext : (Expr.conditional test yes no).text.toList ++ r
        = '(' :: (test.text.toList ++ '?' :: (yes.text.toList ++ ':' :: (no.text.toList ++
            ')' :: r))) := by
      simp [text, String.toList_append]
    rw [htext, Token.lex_mark rfl (by decide), part iht rfl (by decide), part ihy rfl (by decide),
      part ihn rfl (by decide), tokens]
    simp

end Expr

end RowAwk.Awk
