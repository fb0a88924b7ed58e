import RowAwk.Proofs.Tokens

/-!
Keys made of several texts can be taken apart again.

The parts of a key are joined by null characters, and a string inside a part may hold null
characters of its own. What tells the two apart are the quotes: an automaton follows a text through
its strings and breaks on a null character outside of them.

              "               "
    outside ──▶ inside ──▶ outside          outside ──NUL──▶ broken
                inside ──\──▶ escaped ──▶ inside

A text that takes the automaton from outside back to outside is `Balanced`. The texts of lowered
expressions and of all templates are, and balanced texts are uniquely told by the key they make.
-/

open List

namespace RowAwk.Awk

/-- Where a text stands with respect to its strings. -/
inductive Quoting where
  | outside | inside | escaped | broken
deriving DecidableEq

/-- One character further. -/
def Quoting.next : Quoting → Char → Quoting
  | .outside, c => if c = '\x00' then .broken else if c = '"' then .inside else .outside
  | .inside, c => if c = '"' then .outside else if c = '\\' then .escaped else .inside
  | .escaped, _ => .inside
  | .broken, _ => .broken

/-- All strings of a text are closed, and null characters stand only inside them. -/
def Balanced (s : String) : Prop := s.toList.foldl Quoting.next .outside = .outside

instance (s : String) : Decidable (Balanced s) :=
  inferInstanceAs (Decidable (s.toList.foldl Quoting.next .outside = .outside))

namespace Quoting

theorem foldl_broken : ∀ cs : List Char, cs.foldl next .broken = .broken
  | [] => rfl
  | _ :: cs => foldl_broken cs

theorem foldl_null (cs : List Char) : ('\x00' :: cs).foldl next .outside = .broken :=
  foldl_broken cs

theorem foldl_outside : ∀ {cs : List Char}, (∀ c ∈ cs, c ≠ '\x00' ∧ c ≠ '"') →
    cs.foldl next .outside = .outside
  | [], _ => rfl
  | c :: cs, h => by
    obtain ⟨hn, hq⟩ := h c mem_cons_self
    rw [foldl_cons, next, if_neg hn, if_neg hq]
    exact foldl_outside fun d hd => h d (mem_cons_of_mem c hd)

/-- What a string holds does not lead out of it. -/
theorem foldl_escape (r : List Char) : ∀ cs : List Char,
    (cs.flatMap escapeChar ++ r).foldl next .inside = r.foldl next .inside
  | [] => rfl
  | c :: cs => by
    rw [flatMap_cons, append_assoc]
    rcases escapeChar_spells c with ⟨he, hq, hb, -⟩ | ⟨d, he, -⟩
    · rw [he, singleton_append, foldl_cons, next, if_neg hq, if_neg hb, foldl_escape r cs]
    · rw [he]
      exact foldl_escape r cs

end Quoting

/-! ### Balanced texts -/

variable {a b s : String}

theorem Balanced.append (ha : Balanced a) (hb : Balanced b) : Balanced (a ++ b) := by
  rw [Balanced, String.toList_append, foldl_append, ha]
  exact hb

theorem balanced_of_unquoted (h : ∀ c ∈ s.toList, c ≠ '\x00' ∧ c ≠ '"') : Balanced s :=
  Quoting.foldl_outside h

theorem balanced_stringText (s : String) : Balanced (stringText s) := by
  rw [Balanced, stringText, String.toList_ofList, cons_append, foldl_cons]
  exact Quoting.foldl_escape ['"'] s.toList

/-- What joining keeps is kept with separators between the parts. -/
theorem intercalate_induct {P : String → Prop} {sep : String} (nil : P "")
    (append : ∀ a b, P a → P b → P (a ++ sep ++ b)) : ∀ {texts : List String},
    (∀ t ∈ texts, P t) → P (sep.intercalate texts)
  | [], _ => by
    rw [String.intercalate_nil]
    exact nil
  | [t], h => by
    rw [String.intercalate_singleton]
    exact h t mem_cons_self
  | t :: u :: texts, h => by
    rw [String.intercalate_cons_cons]
    refine append t _ (h t mem_cons_self) (intercalate_induct nil append ?_)
    exact fun v hv => h v (mem_cons_of_mem t hv)

theorem balanced_intercalate {sep : String} (hs : Balanced sep) {texts : List String}
    (h : ∀ t ∈ texts, Balanced t) : Balanced (sep.intercalate texts) :=
  intercalate_induct (by decide) (fun _ _ ha hb => (ha.append hs).append hb) h

theorem balanced_word (h : ∀ c ∈ s.toList, Token.isWordPart c = true) : Balanced s := by
  refine balanced_of_unquoted fun c hc => ⟨?_, ?_⟩
  · rintro rfl
    exact absurd (h _ hc) (by decide)
  · rintro rfl
    exact absurd (h _ hc) (by decide)

theorem balanced_name (h : Syntax.isName s = true) : Balanced s :=
  balanced_word (Expr.isWordPart_of_isName h).2

theorem Const.Written.balanced {c : Const} (h : c.Written) : Balanced c.text := by
  have hnumeral (hn : c.isNumeral = true) : Balanced c.text :=
    balanced_word (Expr.isWordPart_of_numeral (h.numeral hn)).2
  cases h with
  | nat n | real hm | bool b => exact hnumeral rfl
  | infinite => exact (by decide : Balanced "inf")
  | str s => exact balanced_stringText s

theorem Op.balanced_separator (o : Op) : Balanced o.separator := by
  cases o <;> decide

/-- The text of every lowered expression is balanced. -/
theorem Expr.Lowered.balanced {C : Const → Prop} (hC : ∀ c, C c → c.Written) {e : Expr}
    (h : e.Lowered C) : Balanced e.text := by
  have parts {args : List Expr} (ih : ∀ a ∈ args, Balanced a.text) : ∀ t ∈ Expr.texts args,
      Balanced t := by
    rw [Expr.texts_eq_map]
    intro t ht
    obtain ⟨a, ha, rfl⟩ := mem_map.1 ht
    exact ih a ha
  have called {f : String} (hf : Balanced f) {args : List Expr} (ih : ∀ a ∈ args, Balanced a.text) :
      Balanced (Expr.call f args).text := by
    rw [Expr.text]
    refine ((hf.append (by decide)).append ?_).append (by decide)
    exact balanced_intercalate (by decide) (parts ih)
  induction h with
  | const hc => exact (hC _ hc).balanced
  | field =>
    rw [Expr.text]
    refine Balanced.append (by decide) ?_
    exact balanced_word (Expr.isWordPart_of_numeral (Const.numeral_toString _)).2
  | var hn | sideEffect hn | aggregate hn => exact balanced_name hn
  | builtin hn => exact balanced_name (Expr.isName_of_mem_awkVariables hn)
  | call hf _ ih => exact called (balanced_name hf) ih
  | @sign f a hf _ ih =>
    have key : ∀ f ∈ ["-", "!"], Balanced f := by decide
    exact called (key f hf) (by simpa using ih)
  | subscript _ _ ihb ihi =>
    rw [Expr.text]
    exact ((ihb.append (by decide)).append ihi).append (by decide)
  | op _ _ ih =>
    rw [Expr.text]
    refine (Balanced.append (by decide) ?_).append (by decide)
    exact balanced_intercalate (Op.balanced_separator _) (parts ih)
  | conditional _ _ _ iht ihy ihn =>
    rw [Expr.text]
    have htest := Balanced.append (by decide : Balanced "(") iht
    have hyes := (htest.append (by decide : Balanced "?")).append ihy
    exact ((hyes.append (by decide : Balanced ":")).append ihn).append (by decide)

end RowAwk.Awk

namespace RowAwk.Compile

open Awk (Balanced Const Expr Quoting balanced_word)

/-! ### Joining and taking apart -/

namespace Namer

/-- A balanced text ends where the first null character outside its strings stands. -/
theorem not_balanced_null {p q : List Char} (hp : p.foldl Quoting.next .outside = .outside) :
    (p ++ '\x00' :: q).foldl Quoting.next .outside ≠ .outside := by
  rw [foldl_append, hp, Quoting.foldl_null]
  nofun

/-- Of two balanced texts before a null character, none is longer. -/
theorem append_null_inj {p q r t : List Char} (hp : p.foldl Quoting.next .outside = .outside)
    (hq : q.foldl Quoting.next .outside = .outside) (h : p ++ '\x00' :: r = q ++ '\x00' :: t) :
    p = q ∧ r = t := by
  rcases append_eq_append_iff.1 h with ⟨u, hqu, hru⟩ | ⟨u, hpu, htu⟩
  · cases u with
    | nil => simp_all
    | cons c u =>
      obtain ⟨rfl, -⟩ := List.cons.inj hru
      exact absurd hq (hqu ▸ not_balanced_null hp)
  · cases u with
    | nil => simp_all
    | cons c u =>
      obtain ⟨rfl, -⟩ := List.cons.inj htu
      exact absurd hp (hpu ▸ not_balanced_null hq)

theorem toList_keyOf_cons (p q : String) (ps : List String) :
    (keyOf (p :: q :: ps)).toList = p.toList ++ '\x00' :: (keyOf (q :: ps)).toList := by
  rw [keyOf, keyOf, String.intercalate_cons_cons, String.toList_append, String.toList_append,
    append_assoc]
  rfl

/-- Balanced parts are told by their key. -/
theorem keyOf_inj : ∀ {ps qs : List String}, ps ≠ [] → qs ≠ [] → (∀ p ∈ ps, Balanced p) →
    (∀ q ∈ qs, Balanced q) → keyOf ps = keyOf qs → ps = qs
  | [], _, h, _, _, _, _ => absurd rfl h
  | _, [], _, h, _, _, _ => absurd rfl h
  | [p], [q], _, _, _, _, h => by
    rw [keyOf, keyOf, String.intercalate_singleton, String.intercalate_singleton] at h
    rw [h]
  | [p], q :: q' :: qs, _, _, hp, hq, h => by
    have h := congrArg String.toList h
    rw [toList_keyOf_cons, keyOf, String.intercalate_singleton] at h
    have hp : p.toList.foldl Quoting.next .outside = .outside := hp p mem_cons_self
    exact absurd (h ▸ hp) (not_balanced_null (hq q mem_cons_self))
  | p :: p' :: ps, [q], _, _, hp, hq, h => by
    have h := congrArg String.toList h.symm
    rw [toList_keyOf_cons, keyOf, String.intercalate_singleton] at h
    have hq : q.toList.foldl Quoting.next .outside = .outside := hq q mem_cons_self
    exact absurd (h ▸ hq) (not_balanced_null (hp p mem_cons_self))
  | p :: p' :: ps, q :: q' :: qs, _, _, hp, hq, h => by
    have h := congrArg String.toList h
    rw [toList_keyOf_cons, toList_keyOf_cons] at h
    obtain ⟨hpq, hrest⟩ := append_null_inj (hp p mem_cons_self) (hq q mem_cons_self) h
    have ih := keyOf_inj (cons_ne_nil p' ps) (cons_ne_nil q' qs)
      (fun x hx => hp x (mem_cons_of_mem p hx)) (fun x hx => hq x (mem_cons_of_mem q hx))
      (String.toList_inj.1 hrest)
    rw [String.toList_inj.1 hpq, ih]

end Namer

/-! ### Templates -/

namespace Templates

/-- The three texts of some templates are balanced; one that is not there is empty. -/
structure AllBalanced (t : Templates) : Prop where
  init : Balanced t.init
  update : Balanced t.update
  finish : Balanced (t.finish.getD "")

instance (t : Templates) : Decidable t.AllBalanced :=
  decidable_of_iff (Balanced t.init ∧ Balanced t.update ∧ Balanced (t.finish.getD ""))
    ⟨fun h => ⟨h.1, h.2.1, h.2.2⟩, fun h => ⟨h.init, h.update, h.finish⟩⟩

variable {delim : String}

theorem balanced_joinHeap (hd : Balanced delim) : Balanced (joinHeap delim) := by
  unfold joinHeap
  repeat' with_reducible apply Balanced.append
  all_goals first | decide | exact hd

theorem balanced_concat (hd : Balanced delim) : (concat delim).AllBalanced := by
  refine ⟨?_, ?_, (by decide : Balanced "")⟩
  all_goals
    unfold concat
    repeat' with_reducible apply Balanced.append
    all_goals first | decide | exact hd

theorem balanced_concatUniq (hd : Balanced delim) : (concatUniq delim).AllBalanced := by
  refine ⟨?_, ?_, balanced_joinHeap hd⟩
  all_goals
    unfold concatUniq
    repeat' with_reducible apply Balanced.append
    all_goals decide

theorem balanced_concatSorted (hd : Balanced delim) : (concatSorted delim).AllBalanced := by
  constructor
  all_goals
    dsimp only [concatSorted, Option.getD_some]
    repeat' with_reducible apply Balanced.append
    all_goals first | decide | exact hd

theorem balanced_chainConcatUniq (hd : Balanced delim) : (chainConcatUniq delim).AllBalanced := by
  refine ⟨?_, ?_, balanced_joinHeap hd⟩
  all_goals
    unfold chainConcatUniq
    repeat' with_reducible apply Balanced.append
    all_goals first | decide | exact hd

theorem balanced_toString : ∀ n : Int, Balanced (toString n)
  | .ofNat n => balanced_word (Expr.isWordPart_of_numeral (Const.numeral_toString n)).2
  | .negSucc n => Balanced.append (by decide)
    (balanced_word (Expr.isWordPart_of_numeral (Const.numeral_toString (n + 1))).2)

theorem balanced_concatSample (limit : Int) (hd : Balanced delim) :
    (concatSample limit delim).AllBalanced := by
  refine ⟨?_, ?_, balanced_joinHeap hd⟩
  all_goals
    unfold concatSample
    repeat' with_reducible apply Balanced.append
    all_goals first | decide | exact balanced_toString limit

end Templates

end RowAwk.Compile
