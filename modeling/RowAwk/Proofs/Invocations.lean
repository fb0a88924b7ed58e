import RowAwk.Proofs.Keys
import RowAwk.Proofs.Layouts

/-!
Which functions a text calls.

Outside of strings, a word that stands right before an opening parenthesis is called. A cursor moves
over the text and keeps the word that it is in:

    uniq(";", _uniq0)      ──▶      uniq
    x (y)                  ──▶      nothing: a blank stands between
    " crc32(1) "           ──▶      nothing: it stands inside a string

Two texts can be put together where the first one ends with no word, or where the second one starts
with neither a word nor a parenthesis: then the whole calls what its parts call. Expressions, lines,
blocks and programs are put together in this way.
-/

open List

namespace RowAwk.Awk

open Token (isWordPart)
open Syntax (isName)

/-- Where a text stands: with respect to its strings, and behind which word, backwards. -/
structure Cursor where
  quoting : Quoting
  word : List Char
deriving DecidableEq

namespace Cursor

def fresh : Cursor := ⟨.outside, []⟩

/-- One character further. -/
def next (k : Cursor) (c : Char) : Cursor :=
  ⟨k.quoting.next c, if k.quoting = .outside ∧ isWordPart c = true then c :: k.word else []⟩

/-- The function that is called if this character comes next. -/
def called? (k : Cursor) (c : Char) : Option String :=
  if k.quoting = .outside ∧ c = '(' ∧ k.word ≠ [] then some (String.ofList k.word.reverse) else none

/-- The functions that are called from here on. -/
def callees (k : Cursor) : List Char → List String
  | [] => []
  | c :: cs => (k.called? c).toList ++ (k.next c).callees cs

theorem callees_append (k : Cursor) (a b : List Char) :
    k.callees (a ++ b) = k.callees a ++ (a.foldl next k).callees b := by
  induction a generalizing k with
  | nil => rfl
  | cons c a ih => rw [cons_append, callees, callees, ih, append_assoc, foldl_cons]

theorem quoting_foldl (k : Cursor) (cs : List Char) :
    (cs.foldl next k).quoting = cs.foldl Quoting.next k.quoting := by
  induction cs generalizing k with
  | nil => rfl
  | cons c cs ih => exact ih (k.next c)

theorem called?_of_ne {k : Cursor} {c : Char} (h : c ≠ '(') : k.called? c = none :=
  if_neg fun hc => h hc.2.1

theorem called?_of_quoted {k : Cursor} (h : k.quoting ≠ .outside) (c : Char) : k.called? c = none :=
  if_neg fun hc => h hc.1

/-- A character that no word has ends the word before it. -/
theorem next_of_not_isWordPart {c : Char} (h : isWordPart c = false) (k : Cursor) :
    k.next c = ⟨k.quoting.next c, []⟩ := by
  simp [next, h]

theorem next_of_isWordPart {c : Char} (h : isWordPart c = true) (word : List Char) :
    next ⟨.outside, word⟩ c = ⟨.outside, c :: word⟩ := by
  have hquote : Quoting.outside.next c = .outside := by
    have hc : ∀ d ∈ [c], d ≠ '\x00' ∧ d ≠ '"' := by
      intro d hd
      cases mem_singleton.1 hd
      exact ⟨fun he => absurd (he ▸ h) (by decide), fun he => absurd (he ▸ h) (by decide)⟩
    exact Quoting.foldl_outside hc
  simp [next, h, hquote]

theorem foldl_word {w : List Char} (h : ∀ c ∈ w, isWordPart c = true) (word : List Char) :
    w.foldl next ⟨.outside, word⟩ = ⟨.outside, w.reverse ++ word⟩ := by
  induction w generalizing word with
  | nil => rfl
  | cons c w ih =>
    obtain ⟨hc, hw⟩ := forall_mem_cons.1 h
    rw [foldl_cons, next_of_isWordPart hc, ih hw, reverse_cons, append_assoc, singleton_append]

theorem callees_of_not_mem {cs : List Char} (h : '(' ∉ cs) (k : Cursor) : k.callees cs = [] := by
  induction cs generalizing k with
  | nil => rfl
  | cons c cs ih =>
    obtain ⟨hc, hcs⟩ : c ≠ '(' ∧ '(' ∉ cs :=
      ⟨fun he => h (he ▸ mem_cons_self), fun hm => h (mem_cons_of_mem c hm)⟩
    rw [callees, ih hcs, called?_of_ne hc]
    rfl

/-- Nothing is called inside of a string. -/
theorem callees_escape (cs : List Char) (k : Cursor) (hk : k.quoting = .inside) :
    k.callees (cs.flatMap escapeChar ++ ['"']) = [] := by
  have step {k : Cursor} (hk : k.quoting ≠ .outside) (c : Char) (r : List Char) :
      k.callees (c :: r) = (k.next c).callees r := by
    rw [callees, called?_of_quoted hk]
    rfl
  induction cs generalizing k with
  | nil => exact callees_of_not_mem (by decide) k
  | cons c cs ih =>
    have hin : k.quoting ≠ .outside := by
      rw [hk]
      decide
    rw [flatMap_cons, append_assoc]
    rcases escapeChar_spells c with ⟨he, hq, hb, -⟩ | ⟨d, he, -⟩
    · rw [he, singleton_append, step hin]
      refine ih _ ?_
      rw [next, hk]
      simp [Quoting.next, hb, hq]
    · have hesc : (k.next '\\').quoting = .escaped := by
        rw [next, hk]
        rfl
      rw [he, cons_append, step hin, singleton_append, step (by rw [hesc]; decide)]
      refine ih _ ?_
      rw [next, hesc]
      rfl

end Cursor

/-! ### Texts and what they call -/

/-- The functions that a text calls. -/
def callees (t : String) : List String := Cursor.fresh.callees t.toList

/-- All strings of a text are closed, and all functions that it calls are of some kind. -/
structure CallsOnly (G : String → Prop) (t : String) : Prop where
  balanced : Balanced t
  callees : ∀ f ∈ callees t, G f

/-- A text that starts with neither a word nor an opening parenthesis. -/
def Gap (t : String) : Prop := ∀ c ∈ t.toList.head?, isWordPart c = false ∧ c ≠ '('

/-- A text that does not end with a word. -/
def Ended (t : String) : Prop := ∀ c ∈ t.toList.getLast?, isWordPart c = false

/-- A text that any other can follow. -/
structure Sentence (G : String → Prop) (t : String) : Prop extends CallsOnly G t where
  ended : Ended t

/-- A character that no word and no string has, and that calls nothing. -/
def isMark (c : Char) : Bool := !isWordPart c && c != '(' && c != '"' && c != '\x00'

/-- A text of marks. -/
def isMarks (t : String) : Bool := !t.toList.isEmpty && t.toList.all isMark

variable {G H : String → Prop} {a b s t f : String}

theorem ended_append (hne : b.toList ≠ []) (h : Ended b) (a : String) : Ended (a ++ b) := by
  intro c hc
  rw [String.toList_append, List.getLast?_append_of_ne_nil _ hne] at hc
  exact h c hc

theorem CallsOnly.imp (h : CallsOnly G t) (hGH : ∀ f, G f → H f) : CallsOnly H t :=
  ⟨h.balanced, fun f hf => hGH f (h.callees f hf)⟩

/-- The cursor behind a text whose strings are closed. -/
theorem CallsOnly.exists_cursor (h : CallsOnly G t) :
    ∃ word, t.toList.foldl Cursor.next .fresh = ⟨.outside, word⟩ := by
  have hq := Cursor.quoting_foldl .fresh t.toList
  rw [show Cursor.fresh.quoting = .outside from rfl, h.balanced] at hq
  exact ⟨_, by rw [← hq]⟩

theorem CallsOnly.append_gap (ha : CallsOnly G a) (hb : CallsOnly G b) (h : Gap b) :
    CallsOnly G (a ++ b) := by
  obtain ⟨word, hword⟩ := ha.exists_cursor
  have hrest : Cursor.callees ⟨.outside, word⟩ b.toList = Awk.callees b := by
    rw [Awk.callees]
    cases hcs : b.toList with
    | nil => rfl
    | cons c cs =>
      obtain ⟨hw, hc⟩ := h c (by rw [hcs]; rfl)
      rw [Cursor.callees, Cursor.callees, Cursor.called?_of_ne hc, Cursor.called?_of_ne hc,
        Cursor.next_of_not_isWordPart hw, Cursor.next_of_not_isWordPart hw]
      rfl
  refine ⟨ha.balanced.append hb.balanced, fun f hf => ?_⟩
  rw [Awk.callees, String.toList_append, Cursor.callees_append, hword, hrest] at hf
  exact (mem_append.1 hf).elim (ha.callees f) (hb.callees f)

namespace Sentence

theorem append (ha : Sentence G a) (hb : CallsOnly G b) : CallsOnly G (a ++ b) := by
  have hfresh : a.toList.foldl Cursor.next .fresh = .fresh := by
    obtain ⟨word, hword⟩ := ha.exists_cursor
    have hnone : (a.toList.foldl Cursor.next .fresh).word = [] := by
      have hended := ha.ended
      rw [Ended] at hended
      rcases eq_nil_or_concat a.toList with ha | ⟨cs, c, ha⟩
      · rw [ha]
        rfl
      · rw [ha] at hended ⊢
        have hc : isWordPart c = false := hended c (by simp)
        rw [concat_eq_append, foldl_append, foldl_cons, foldl_nil, Cursor.next_of_not_isWordPart hc]
    rw [hword] at hnone ⊢
    rw [show word = [] from hnone]
    rfl
  refine ⟨ha.balanced.append hb.balanced, fun f hf => ?_⟩
  rw [Awk.callees, String.toList_append, Cursor.callees_append, hfresh] at hf
  exact (mem_append.1 hf).elim (ha.callees f) (hb.callees f)

theorem followedBy (ha : Sentence G a) (hb : Sentence G b) : Sentence G (a ++ b) := by
  refine ⟨ha.append hb.toCallsOnly, fun c hc => ?_⟩
  rw [String.toList_append, List.getLast?_append] at hc
  cases hlast : b.toList.getLast? with
  | none =>
    rw [hlast] at hc
    exact ha.ended c hc
  | some d =>
    rw [hlast] at hc
    cases hc
    exact hb.ended c hlast

end Sentence

/-! ### Words, marks and strings -/

/-- A text without an opening parenthesis. -/
theorem callsOnly_of_not_mem (hb : Balanced t) (h : '(' ∉ t.toList) : CallsOnly G t := by
  refine ⟨hb, fun f hf => ?_⟩
  rw [callees, Cursor.callees_of_not_mem h] at hf
  cases hf

theorem callsOnly_word (h : ∀ c ∈ t.toList, isWordPart c = true) : CallsOnly G t :=
  callsOnly_of_not_mem (balanced_word h) fun hm => absurd (h _ hm) (by decide)

theorem callsOnly_name (h : isName t = true) : CallsOnly G t :=
  callsOnly_word (Expr.isWordPart_of_isName h).2

theorem callsOnly_stringText (s : String) : CallsOnly G (stringText s) := by
  refine ⟨balanced_stringText s, fun f hf => ?_⟩
  rw [callees, stringText, String.toList_ofList, cons_append, Cursor.callees,
    Cursor.callees_escape _ _ rfl] at hf
  cases hf

theorem callsOnly_const {c : Const} (h : c.Written) : CallsOnly G c.text := by
  have hnumeral (hn : c.isNumeral = true) : CallsOnly G c.text :=
    callsOnly_word (Expr.isWordPart_of_numeral (h.numeral hn)).2
  cases h with
  | nat n | real hm | bool b => exact hnumeral rfl
  | infinite => exact callsOnly_of_not_mem (t := "inf") (by decide) (by decide)
  | str s => exact callsOnly_stringText s

theorem isMarks_iff :
    isMarks t = true ↔ t.toList ≠ [] ∧ ∀ c ∈ t.toList,
      isWordPart c = false ∧ c ≠ '(' ∧ c ≠ '"' ∧ c ≠ '\x00' := by
  simp [isMarks, isMark, and_assoc]

theorem sentence_marks (h : isMarks t = true) : Sentence G t := by
  have hmarks := (isMarks_iff.1 h).2
  refine ⟨callsOnly_of_not_mem (balanced_of_unquoted fun c hc => ?_) fun hm => ?_, fun c hc => ?_⟩
  · exact ⟨(hmarks c hc).2.2.2, (hmarks c hc).2.2.1⟩
  · exact (hmarks _ hm).2.1 rfl
  · exact (hmarks c (mem_of_getLast? hc)).1

/-- Marks end a text. -/
theorem CallsOnly.marks (h : CallsOnly G t) (hb : isMarks b = true) : Sentence G (t ++ b) := by
  obtain ⟨hne, hmarks⟩ := isMarks_iff.1 hb
  have hs : Sentence G b := sentence_marks hb
  refine ⟨h.append_gap hs.toCallsOnly fun c hc => ?_, ended_append hne hs.ended t⟩
  exact ⟨(hmarks c (mem_of_head? hc)).1, (hmarks c (mem_of_head? hc)).2.1⟩

theorem sentence_open : Sentence G "(" := by
  refine ⟨⟨by decide, fun f hf => ?_⟩, fun c hc => ?_⟩
  · cases hf
  · cases hc
    decide

/-- A name before an opening parenthesis is called. -/
theorem sentence_called (hf : isName f = true) (hG : G f) : Sentence G (f ++ "(") := by
  have hword := (Expr.isWordPart_of_isName hf).2
  refine ⟨⟨(balanced_name hf).append (by decide), fun g hg => ?_⟩,
    ended_append (by decide) (sentence_open (G := G)).ended f⟩
  have hnone : Cursor.fresh.callees f.toList = [] :=
    Cursor.callees_of_not_mem (fun hm => absurd (hword _ hm) (by decide)) _
  rw [callees, String.toList_append, Cursor.callees_append, hnone, Cursor.fresh,
    Cursor.foldl_word hword] at hg
  have hg : g ∈ (Cursor.called? ⟨.outside, f.toList.reverse ++ []⟩ '(').toList ++ [] := hg
  rw [append_nil, append_nil, Option.mem_toList, Cursor.called?] at hg
  split at hg
  · cases hg
    rwa [reverse_reverse, String.ofList_toList]
  · cases hg

theorem callsOnly_intercalate {sep : String} (hs : isMarks sep = true) {texts : List String}
    (h : ∀ t ∈ texts, CallsOnly G t) : CallsOnly G (sep.intercalate texts) :=
  intercalate_induct (callsOnly_of_not_mem (by decide) (by decide))
    (fun _ _ ha hb => (ha.marks hs).append hb) h

/-! ### Expressions -/

namespace Expr

variable {args : List Expr}

theorem callsOnly_texts (h : ∀ a ∈ args, CallsOnly G a.text) : ∀ t ∈ texts args, CallsOnly G t := by
  rw [texts_eq_map]
  intro t ht
  obtain ⟨a, ha, rfl⟩ := mem_map.1 ht
  exact h a ha

/-- Arguments between parentheses. -/
theorem callsOnly_enclosed (ha : Sentence G a) {sep : String} (hs : isMarks sep = true)
    (h : ∀ x ∈ args, CallsOnly G x.text) : CallsOnly G (a ++ sep.intercalate (texts args) ++ ")") :=
  ((ha.append (callsOnly_intercalate hs (callsOnly_texts h))).marks (by decide)).toCallsOnly

theorem callsOnly_call (hf : isName f = true) (hG : G f) (h : ∀ x ∈ args, CallsOnly G x.text) :
    CallsOnly G (call f args).text := by
  rw [text]
  exact callsOnly_enclosed (sentence_called hf hG) (by decide) h

theorem callsOnly_sign (hf : f ∈ ["-", "!"]) {x : Expr} (h : CallsOnly G x.text) :
    CallsOnly G (call f [x]).text := by
  rw [text]
  have hsign : isMarks f = true := by
    revert f
    decide
  exact callsOnly_enclosed ((sentence_marks hsign).followedBy sentence_open) (by decide)
    (forall_mem_singleton.2 h)

theorem callsOnly_subscript {base index : Expr} (hb : CallsOnly G base.text)
    (hi : CallsOnly G index.text) : CallsOnly G (subscript base index).text := by
  rw [text]
  exact (((hb.marks (by decide)).append hi).marks (by decide)).toCallsOnly

theorem callsOnly_op (o : Op) (h : ∀ x ∈ args, CallsOnly G x.text) :
    CallsOnly G (op o args).text := by
  rw [text]
  have hsep : isMarks o.separator = true := by
    cases o <;> decide
  exact callsOnly_enclosed sentence_open hsep h

theorem callsOnly_conditional {test yes no : Expr} (ht : CallsOnly G test.text)
    (hy : CallsOnly G yes.text) (hn : CallsOnly G no.text) :
    CallsOnly G (conditional test yes no).text := by
  rw [text]
  have htest : Sentence G ("(" ++ test.text ++ "?") := (sentence_open.append ht).marks (by decide)
  have hyes : Sentence G ("(" ++ test.text ++ "?" ++ yes.text ++ ":") :=
    (htest.append hy).marks (by decide)
  exact ((hyes.append hn).marks (by decide)).toCallsOnly

theorem callsOnly_assign (hf : isName f = true) {value : Expr} (h : CallsOnly G value.text) :
    CallsOnly G (assign f value).text := by
  rw [text]
  exact ((callsOnly_name hf).marks (by decide)).append h

theorem callsOnly_field (name : String) (position : Nat) (type : Schema.FieldType) :
    CallsOnly G (field name position type).text := by
  rw [text]
  exact (sentence_marks (t := "$") (by decide)).append
    (callsOnly_word (isWordPart_of_numeral (Const.numeral_toString _)).2)

end Expr

/-! ### Statements with places for other texts -/

/-- A piece of a statement: a character, or a place for a text. -/
inductive Piece where
  | char (c : Char)
  | place

/-- Texts of pieces whose places are taken by texts that call only functions of some kind. -/
inductive Takes (G : String → Prop) : List Piece → List Char → Prop
  | nil : Takes G [] []
  | char (c : Char) {ps cs} : Takes G ps cs → Takes G (.char c :: ps) (c :: cs)
  | place {t ps cs} : CallsOnly G t → Takes G ps cs → Takes G (.place :: ps) (t.toList ++ cs)

variable {ps : List Piece} {cs : List Char} {words : List String}

theorem Takes.append {qs : List Piece} {ds : List Char} (h : Takes G ps cs) (h' : Takes G qs ds) :
    Takes G (ps ++ qs) (cs ++ ds) := by
  induction h with
  | nil => exact h'
  | char c _ ih => exact .char c ih
  | place ht _ ih =>
    rw [append_assoc]
    exact .place ht ih

theorem takes_chars (cs : List Char) : Takes G (cs.map .char) cs := by
  induction cs with
  | nil => exact .nil
  | cons c cs ih => exact .char c ih

/-- Whether pieces call only given functions, whatever takes their places. The cursor is lost in a
    place: then only a mark tells again that no word is open. -/
def passes (words : List String) : Option Cursor → List Piece → Bool
  | some k, [] => k.quoting = .outside
  | none, [] => true
  | some k, .char c :: ps => (k.called? c).all words.contains && passes words (some (k.next c)) ps
  | none, .char c :: ps =>
    if isWordPart c then passes words none ps
    else c != '(' && passes words (some (Cursor.fresh.next c)) ps
  | some k, .place :: ps => k = .fresh && passes words none ps
  | none, .place :: _ => false

/-- What is known of a cursor. -/
def Cursor.Fits (known : Option Cursor) (k : Cursor) : Prop :=
  match known with
  | some k' => k = k'
  | none => k.quoting = .outside

/-- A character that passes calls nothing or one of the words, and what is known stays true. -/
theorem passes_char {known : Option Cursor} {c : Char} {k : Cursor}
    (hp : passes words known (.char c :: ps) = true) (hk : k.Fits known) :
    (∀ f ∈ k.called? c, f ∈ words) ∧
      ∃ next, passes words next ps = true ∧ (k.next c).Fits next := by
  have silent (hc : c ≠ '(') : ∀ f ∈ k.called? c, f ∈ words := by
    rw [Cursor.called?_of_ne hc]
    rintro f ⟨⟩
  cases known with
  | some k' =>
    cases hk
    rw [passes, Bool.and_eq_true] at hp
    refine ⟨fun f hf => ?_, _, hp.2, rfl⟩
    exact contains_iff_mem.1 ((Option.all_eq_true _ _).1 hp.1 f hf)
  | none =>
    obtain ⟨quoting, word⟩ := k
    obtain rfl : quoting = .outside := hk
    rw [passes] at hp
    split at hp
    · rename_i hword
      refine ⟨silent (by rintro rfl; exact absurd hword (by decide)), none, hp, ?_⟩
      rw [Cursor.next_of_isWordPart hword]
      rfl
    · rename_i hword
      have hword := Bool.eq_false_iff.2 hword
      rw [Bool.and_eq_true, bne_iff_ne] at hp
      refine ⟨silent hp.1, _, hp.2, ?_⟩
      rw [Cursor.Fits, Cursor.next_of_not_isWordPart hword, Cursor.next_of_not_isWordPart hword]
      rfl

theorem passes_sound (hw : ∀ f ∈ words, G f) (h : Takes G ps cs) :
    ∀ (known : Option Cursor) (k : Cursor),
      passes words known ps = true → k.Fits known →
        (∀ f ∈ k.callees cs, G f) ∧ (cs.foldl Cursor.next k).quoting = .outside := by
  induction h with
  | nil =>
    intro known k hp hk
    refine ⟨fun f hf => (by cases hf), ?_⟩
    cases known with
    | some k' =>
      cases hk
      exact of_decide_eq_true hp
    | none => exact hk
  | @char c ps cs _ ih =>
    intro known k hp hk
    obtain ⟨hc, next, hp, hn⟩ := passes_char hp hk
    obtain ⟨hrest, hquoting⟩ := ih next (k.next c) hp hn
    refine ⟨fun f hf => ?_, hquoting⟩
    rw [Cursor.callees, mem_append, Option.mem_toList] at hf
    exact hf.elim (fun hf => hw f (hc f hf)) (hrest f)
  | @place t ps cs ht _ ih =>
    intro known k hp hk
    cases known with
    | none => cases hp
    | some k' =>
      cases hk
      rw [passes, Bool.and_eq_true, decide_eq_true_eq] at hp
      obtain ⟨rfl, hp⟩ := hp
      obtain ⟨word, hword⟩ := ht.exists_cursor
      obtain ⟨hrest, hquoting⟩ := ih none ⟨.outside, word⟩ hp rfl
      rw [Cursor.callees_append, foldl_append, hword]
      exact ⟨fun f hf => (mem_append.1 hf).elim (ht.callees f) (hrest f), hquoting⟩

/-- A statement calls the functions of its pieces and of what takes their places. -/
theorem Takes.callsOnly (hw : ∀ f ∈ words, G f) (h : Takes G ps t.toList)
    (hp : passes words (some .fresh) ps = true) : CallsOnly G t := by
  obtain ⟨hcallees, hquoting⟩ := passes_sound hw h (some .fresh) .fresh hp rfl
  rw [Cursor.quoting_foldl] at hquoting
  exact ⟨hquoting, hcallees⟩

/-! ### Layouts -/

/-- Lines of a layout are broken by line breaks, if at all. -/
def Layout.Plain (layout : Layout) : Prop := layout.newline = "" ∨ layout.newline = "\n"

theorem Layout.plain (indent : Nat) : Layout.compact.Plain ∧ (Layout.pretty indent).Plain :=
  ⟨.inl rfl, .inr rfl⟩

theorem sentence_empty : Sentence G "" := by
  refine ⟨callsOnly_of_not_mem (by decide) (by decide), fun c hc => ?_⟩
  cases hc

theorem Sentence.intercalate {sep : String} (hs : Sentence G sep) {texts : List String}
    (h : ∀ t ∈ texts, Sentence G t) : Sentence G (sep.intercalate texts) :=
  intercalate_induct sentence_empty (fun _ _ ha hb => (ha.followedBy hs).followedBy hb) h

theorem Sentence.join {texts : List String} (h : ∀ t ∈ texts, Sentence G t) :
    Sentence G (String.join texts) := by
  induction texts with
  | nil => exact sentence_empty
  | cons t texts ih =>
    obtain ⟨ht, htexts⟩ := forall_mem_cons.1 h
    rw [String.join_cons]
    exact ht.followedBy (ih htexts)

namespace Layout

variable {layout : Layout}

theorem Plain.newline (h : layout.Plain) : Sentence G layout.newline ∧ Gap layout.newline := by
  rcases h with h | h
  · rw [h]
    exact ⟨sentence_empty, fun c hc => by cases hc⟩
  · rw [h]
    refine ⟨sentence_marks (by decide), fun c hc => ?_⟩
    cases hc
    decide

theorem margin_sentence (layout : Layout) (depth : Nat) : Sentence G (layout.margin depth) := by
  have hblank : ∀ c ∈ (layout.margin depth).toList, c = ' ' := by
    intro c hc
    rw [margin, String.toList_ofList] at hc
    exact (mem_replicate.1 hc).2
  refine ⟨callsOnly_of_not_mem (balanced_of_unquoted fun c hc => ?_) fun hm => ?_, fun c hc => ?_⟩
  · rw [hblank c hc]
    decide
  · exact absurd (hblank _ hm) (by decide)
  · rw [hblank c (mem_of_getLast? hc)]
    decide

theorem gap_braces (layout : Layout) (depth : Nat) (items : List String) :
    Gap (layout.braces depth items) := by
  have hopen : ∀ n r, Gap (String.ofList (List.replicate n ' ') ++ ("\x7b" ++ r)) := by
    intro n r c hc
    rw [String.toList_append, String.toList_ofList, String.toList_append] at hc
    cases n with
    | zero | succ n =>
      cases hc
      decide
  rw [braces, margin]
  simp only [String.append_assoc]
  exact hopen _ _

theorem Plain.braces (h : layout.Plain) (depth : Nat) {items : List String}
    (hitems : ∀ t ∈ items, Sentence G t) : Sentence G (layout.braces depth items) := by
  have hmargin : Sentence G (layout.margin depth) := layout.margin_sentence depth
  have hbreak : Sentence G layout.newline := h.newline.1
  have hinner : Sentence G (layout.newline.intercalate items) := hbreak.intercalate hitems
  have hopen : Sentence G "\x7b" := sentence_marks (by decide)
  have hclose : Sentence G "\x7d" := sentence_marks (by decide)
  rw [Layout.braces]
  refine (((hmargin.followedBy hopen).followedBy hbreak).followedBy ?_).followedBy hmargin
    |>.followedBy hclose
  split
  · exact sentence_empty
  · exact hinner.followedBy hbreak

/-- Any text can stand in front of braces. -/
theorem append_braces (ht : CallsOnly G t) {depth : Nat} {items : List String}
    (hb : Sentence G (layout.braces depth items)) : Sentence G (t ++ layout.braces depth items) := by
  refine ⟨ht.append_gap hb.toCallsOnly (layout.gap_braces depth items), ?_⟩
  refine ended_append (fun hnil => ?_) hb.ended t
  have hlast := congrArg List.getLast? hnil
  rw [braces, String.toList_append] at hlast
  simp at hlast

end Layout

theorem CallsOnly.terminated (h : CallsOnly G t) : Sentence G (terminated t) := by
  rw [Awk.terminated]
  split
  · rename_i hlast
    refine ⟨h, fun c hc => ?_⟩
    rw [hlast] at hc
    cases hc
    decide
  · exact h.marks (by decide)

/-! ### Blocks and programs -/

/-- The texts of a line, or of a head and all lines under it, call only functions of some kind. -/
inductive Item.CallsOnly (G : String → Prop) : Item Line Head → Prop
  | line {l} : Awk.CallsOnly G l.text → Item.CallsOnly G (.line l)
  | block {items} : (∀ i ∈ items, Item.CallsOnly G i) → Item.CallsOnly G (.block items)
  | head {h items} : Awk.CallsOnly G h.text → (∀ i ∈ items, Item.CallsOnly G i) →
      Item.CallsOnly G (.head h items)

namespace Item

theorem toTexts_eq_map {ι η : Type} (line : ι → String) (head : η → String) :
    ∀ items, toTexts line head items = items.map (toText line head)
  | [] => rfl
  | i :: items => by rw [toTexts, toTexts_eq_map line head items, map_cons]

theorem layOutAll_eq_flatMap (layout : Layout) (depth : Nat) : ∀ items,
    layOutAll layout depth items = items.flatMap fun i => (layOut? layout depth i).toList
  | [] => rfl
  | i :: items => by rw [layOutAll, layOutAll_eq_flatMap layout depth items, flatMap_cons]

theorem mem_layOutAll {ι η : Type} {line : ι → String} {head : η → String} {depth : Nat}
    {items : List (Item ι η)} :
    t ∈ layOutAll layout depth (toTexts line head items) ↔
      ∃ i ∈ items, t ∈ layOut? layout depth (toText line head i) := by
  simp [layOutAll_eq_flatMap, toTexts_eq_map]

variable {layout : Layout}

/-- Each item is laid out as a sentence, whatever its depth. -/
theorem CallsOnly.sentence (hl : layout.Plain) {i : Item Line Head} (h : i.CallsOnly G) :
    ∀ depth, ∀ t ∈ layOut? layout depth (i.toText Line.text Head.text), Sentence G t := by
  have inner {items : List (Item Line Head)} (ih : ∀ i ∈ items, ∀ depth,
      ∀ t ∈ layOut? layout depth (i.toText Line.text Head.text), Sentence G t) (depth : Nat) :
      Sentence G (layout.braces depth
        (layOutAll layout (depth + 1) (toTexts Line.text Head.text items))) := by
    refine hl.braces depth fun t ht => ?_
    obtain ⟨i, hi, ht⟩ := mem_layOutAll.1 ht
    exact ih i hi (depth + 1) t ht
  induction h with
  | @line l hline =>
    intro depth t ht
    rw [toText, layOut?] at ht
    split at ht
    · cases ht
    · cases ht
      exact (layout.margin_sentence depth).followedBy hline.terminated
  | block _ ih =>
    intro depth t ht
    rw [toText, layOut?] at ht
    cases ht
    exact inner ih depth
  | @head h items hhead _ ih =>
    intro depth t ht
    rw [toText, layOut?] at ht
    cases ht
    have hbraces := inner ih depth
    have hbreak : Sentence G layout.newline ∧ Gap layout.newline := hl.newline
    have hfront := (layout.margin_sentence depth).append hhead
    exact Layout.append_braces (hfront.append_gap hbreak.1.toCallsOnly hbreak.2) hbraces

end Item

namespace Program

variable {layout : Layout}
variable {block : Block Line Head}

theorem bracedText_sentence (hl : layout.Plain) (h : ∀ i ∈ block, i.CallsOnly G) :
    Sentence G (Block.bracedText layout (Item.toTexts Line.text Head.text block)) := by
  refine hl.braces 0 fun t ht => ?_
  obtain ⟨i, hi, ht⟩ := Item.mem_layOutAll.1 ht
  exact (h i hi).sentence hl 1 t ht

theorem sectionText_sentence (hl : layout.Plain) (h : ∀ i ∈ block, i.CallsOnly G)
    {keyword : String} (hk : isName keyword = true) :
    Sentence G (sectionText layout keyword (Item.toTexts Line.text Head.text block)) := by
  have hbraced := bracedText_sentence hl h
  rw [sectionText]
  split
  · exact sentence_empty
  · exact (Layout.append_braces (callsOnly_name hk) hbraced).followedBy hl.newline.1

/-- A program calls what its functions, lines and heads call. -/
theorem callsOnly_text (hl : layout.Plain) {p : Program Line Head}
    (hr : ∀ r ∈ p.routines, Sentence G (r.source ++ "\n"))
    (hi : ∀ i ∈ p.start ++ p.row ++ p.finish, i.CallsOnly G) :
    CallsOnly G (p.written.text layout) := by
  have hstart : ∀ i ∈ p.start, i.CallsOnly G := fun i h => hi i (by simp [h])
  have hrow : ∀ i ∈ p.row, i.CallsOnly G := fun i h => hi i (by simp [h])
  have hfinish : ∀ i ∈ p.finish, i.CallsOnly G := fun i h => hi i (by simp [h])
  have hpreamble : Sentence G (String.join (p.routines.map fun r => r.source ++ "\n")) := by
    refine Sentence.join fun t ht => ?_
    obtain ⟨r, hm, rfl⟩ := mem_map.1 ht
    exact hr r hm
  have hkeywords : isName "BEGIN" = true ∧ isName "END" = true := by decide
  have hall := (((hpreamble.followedBy (sectionText_sentence hl hstart hkeywords.1)).followedBy
    (bracedText_sentence hl hrow)).followedBy hl.newline.1).followedBy
    (sectionText_sentence hl hfinish hkeywords.2)
  exact hall.toCallsOnly

end Program

end RowAwk.Awk
