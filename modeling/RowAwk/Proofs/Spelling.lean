import RowAwk.Proofs.SourceTrees

/-!
How tokens are spelt, so that a scan finds them again.

A scan takes the longest token at the head of a text. So a token is found where it was written as
long as what follows does not continue it: no letter, digit or point may follow a name or a number,
and no second half of an operator its first half.

    total | ( | 2.5e3 | , | "a\n" | )        name, symbol, number, symbol, string, symbol

`Cuts` says what a text is cut into, token after token from its end to its head. For numbers the
scan is put against the form of a numeral, digits with a fraction and an exponent that may be
absent, which is what a scan finds and what it finds again.
-/

open List

namespace RowAwk.Syntax

namespace Lexeme

/-! ### What may follow -/

/-- A text that continues neither a name nor a number. -/
def Apart (r : List Char) : Prop := ∀ c ∈ r.head?, isNamePart c = false ∧ c ≠ '.'

theorem apart_nil : Apart [] := nofun

variable {c : Char} {cs r ds part exp : List Char}

theorem apart_cons (h : isNamePart c = false ∧ c ≠ '.') (r : List Char) : Apart (c :: r) := by
  rintro d hd
  cases hd
  exact h

theorem isDigit_eq_false (h : isNamePart c = false) : c.isDigit = false := by
  simp only [isNamePart, Char.isAlphanum, Bool.or_eq_false_iff] at h
  exact h.1.2

/-- A stretch ends where its property fails. -/
theorem takeWhile_append_stop {p : Char → Bool} (hc : ∀ c ∈ cs, p c = true)
    (hr : ∀ c ∈ r.head?, p c = false) : (cs ++ r).takeWhile p = cs := by
  rw [takeWhile_append_of_pos hc]
  cases r with
  | nil => rw [takeWhile_nil, append_nil]
  | cons d ds =>
    have hd : ¬ p d = true := by rw [hr d rfl]; exact Bool.false_ne_true
    rw [takeWhile_cons_of_neg hd, append_nil]

/-! ### Numerals -/

/-- One digit or more. -/
def IsDigits (ds : List Char) : Prop := ds ≠ [] ∧ ∀ d ∈ ds, d.isDigit = true

/-- Nothing, or a point and digits. -/
def IsFraction (cs : List Char) : Prop := cs = [] ∨ ∃ ds, IsDigits ds ∧ cs = '.' :: ds

/-- Nothing, or a mark, a sign that may be absent, and digits. -/
def IsExponent (cs : List Char) : Prop :=
  cs = [] ∨ ∃ e s ds, (e = 'e' ∨ e = 'E') ∧ (s = [] ∨ s = ['+'] ∨ s = ['-']) ∧ IsDigits ds ∧
    cs = e :: (s ++ ds)

/-- Digits after a first one, a fraction and an exponent. -/
def IsNumeral (cs : List Char) : Prop :=
  ∃ c whole part exp, cs = c :: (whole ++ (part ++ exp)) ∧ c.isDigit = true ∧
    (∀ d ∈ whole, d.isDigit = true) ∧ IsFraction part ∧ IsExponent exp

theorem take_digits (cs : List Char) : cs.take (digits cs) = cs.takeWhile Char.isDigit :=
  (prefix_iff_eq_take.1 (List.takeWhile_prefix Char.isDigit)).symm

theorem isDigits_take (h : digits cs ≠ 0) : IsDigits (cs.take (digits cs)) := by
  rw [take_digits]
  exact ⟨fun hnil => h (by rw [digits, hnil]; rfl), all_eq_true.1 all_takeWhile⟩

theorem isFraction_take (cs : List Char) : IsFraction (cs.take (fraction cs)) := by
  fun_cases fraction cs with
  | case1 cs h | case3 cs h => exact .inl (take_zero)
  | case2 cs h => exact .inr ⟨_, isDigits_take h, take_succ_cons⟩

theorem take_sign (cs : List Char) :
    cs.take (sign cs) = [] ∨ cs.take (sign cs) = ['+'] ∨ cs.take (sign cs) = ['-'] := by
  fun_cases sign cs with
  | case1 cs => exact .inr (.inl rfl)
  | case2 cs => exact .inr (.inr rfl)
  | case3 cs => exact .inl take_zero

theorem isExponent_take (cs : List Char) : IsExponent (cs.take (exponent cs)) := by
  fun_cases exponent cs with
  | case1 c cs he n hn | case3 c cs he => exact .inl take_zero
  | case2 c cs he n hn =>
    refine .inr ⟨c, cs.take (sign cs), _, he, take_sign cs, isDigits_take hn, ?_⟩
    rw [Nat.add_assoc, Nat.add_comm 1, take_succ_cons, take_add]
  | case4 => exact .inl take_nil

/-- What a scan takes for a number is a numeral. -/
theorem isNumeral_take (hc : c.isDigit = true) (cs : List Char) :
    IsNumeral (c :: cs.take (numberTail cs)) := by
  have hp := isFraction_take (cs.drop (digits cs))
  have he := isExponent_take (cs.drop (digits cs + fraction (cs.drop (digits cs))))
  refine ⟨c, cs.takeWhile Char.isDigit, _, _, ?_, hc, all_eq_true.1 all_takeWhile, hp, he⟩
  rw [numberTail, take_add, take_add, take_digits, append_assoc]

theorem digits_append (hd : ∀ d ∈ ds, d.isDigit = true) (hr : ∀ c ∈ r.head?, c.isDigit = false) :
    digits (ds ++ r) = ds.length := by
  rw [digits, takeWhile_append_stop hd hr]

theorem fraction_append (h : IsFraction cs) (hr : ∀ c ∈ r.head?, c.isDigit = false ∧ c ≠ '.') :
    fraction (cs ++ r) = cs.length := by
  rcases h with rfl | ⟨ds, ⟨hne, hd⟩, rfl⟩
  · rw [nil_append, fraction]
    · rfl
    · rintro s rfl
      exact (hr '.' rfl).2 rfl
  · have hlen : digits (ds ++ r) = ds.length := digits_append hd fun c hc => (hr c hc).1
    rw [cons_append, fraction, hlen, if_neg (by simpa using hne), length_cons]

theorem sign_append {s : List Char} (hs : s = [] ∨ s = ['+'] ∨ s = ['-']) (hd : IsDigits ds) :
    sign (s ++ (ds ++ r)) = s.length := by
  rcases hs with rfl | rfl | rfl
  · obtain ⟨d, ds, rfl⟩ := exists_cons_of_ne_nil hd.1
    have hdigit := hd.2 d mem_cons_self
    rw [nil_append, cons_append, sign]
    · rfl
    · rintro _ hcons
      cases hcons
      exact absurd hdigit (by decide)
    · rintro _ hcons
      cases hcons
      exact absurd hdigit (by decide)
  · rfl
  · rfl

theorem exponent_append (h : IsExponent cs) (hr : Apart r) : exponent (cs ++ r) = cs.length := by
  rcases h with rfl | ⟨e, s, ds, he, hs, hd, rfl⟩
  · cases r with
    | nil => rfl
    | cons c r =>
      have hc : ¬ (c = 'e' ∨ c = 'E') := by
        rintro (rfl | rfl)
        · exact absurd (hr 'e' rfl).1 (by decide)
        · exact absurd (hr 'E' rfl).1 (by decide)
      rw [nil_append, exponent, if_neg hc]
      rfl
  · have hlen : digits (ds ++ r) = ds.length :=
      digits_append hd.2 fun c hc => isDigit_eq_false (hr c hc).1
    have hne : ds.length ≠ 0 := by simpa using hd.1
    rw [cons_append, append_assoc, exponent, if_pos he, sign_append hs hd,
      drop_left, hlen, if_neg hne]
    simp only [length_cons, length_append]
    omega

theorem IsExponent.head (h : IsExponent cs) (hr : Apart r) :
    ∀ c ∈ (cs ++ r).head?, c.isDigit = false ∧ c ≠ '.' := by
  rcases h with rfl | ⟨e, s, ds, he, -, -, rfl⟩
  · exact fun c hc => ⟨isDigit_eq_false (hr c hc).1, (hr c hc).2⟩
  · rintro c hc
    cases hc
    rcases he with rfl | rfl <;> decide

theorem IsFraction.head (h : IsFraction part) (he : IsExponent exp) (hr : Apart r) :
    ∀ c ∈ (part ++ (exp ++ r)).head?, c.isDigit = false := by
  rcases h with rfl | ⟨ds, -, rfl⟩
  · exact fun c hc => (he.head hr c hc).1
  · rintro c hc
    cases hc
    decide

/-- A numeral is taken as a whole. -/
theorem numberTail_append {whole : List Char} (hw : ∀ d ∈ whole, d.isDigit = true)
    (hp : IsFraction part) (he : IsExponent exp) (hr : Apart r) :
    numberTail (whole ++ (part ++ (exp ++ r))) = (whole ++ (part ++ exp)).length := by
  have hparts : (whole ++ (part ++ (exp ++ r))).drop (whole.length + part.length) = exp ++ r := by
    rw [← append_assoc, ← length_append, drop_left]
  rw [numberTail, digits_append hw (hp.head he hr), drop_left,
    fraction_append hp (he.head hr), hparts, exponent_append he hr]
  simp only [length_append]
  omega

/-! ### Strings -/

/-- A character that a quoted text shows as itself, or by a letter that stands for it. -/
def isPlain (c : Char) : Bool :=
  Text.quoteChar c == [c] ||
    [['\\', '"'], ['\\', '\\'], ['\\', 'n'], ['\\', 'r'], ['\\', 't']].contains (Text.quoteChar c)

/-- The characters that are written behind a backslash, each with what is written for it. -/
def escapes : List (Char × Char) :=
  [('"', '"'), ('\\', '\\'), ('\n', 'n'), ('\r', 'r'), ('\t', 't')]

/-- A writing of strings spells a character as itself, if it is none that a scan looks for, or by
    what stands for it behind a backslash. -/
def Spells (w : Char → List Char) (c : Char) : Prop :=
  (w c = [c] ∧ c ≠ '"' ∧ c ≠ '\\' ∧ c ≠ '\n') ∨
    ∃ d, w c = ['\\', d] ∧ d ≠ '\n' ∧ unescape? d = some c

theorem spells_of {w : Char → List Char} (hw : ∀ p ∈ escapes, w p.1 = ['\\', p.2])
    (hc : (∀ p ∈ escapes, c ≠ p.1) → w c = [c]) : Spells w c := by
  by_cases h : ∃ p ∈ escapes, c = p.1
  · obtain ⟨p, hp, rfl⟩ := h
    have hread : ∀ p ∈ escapes, p.2 ≠ '\n' ∧ unescape? p.2 = some p.1 := by decide
    exact .inr ⟨p.2, hw p hp, hread p hp⟩
  · have hne : ∀ p ∈ escapes, c ≠ p.1 := fun p hp he => h ⟨p, hp, he⟩
    exact .inl ⟨hc hne, hne ('"', '"') (by decide), hne ('\\', '\\') (by decide),
      hne ('\n', 'n') (by decide)⟩

theorem quoteChar_spells (hc : isPlain c = true) : Spells Text.quoteChar c := by
  refine spells_of (by decide) fun h => ?_
  simp only [escapes, forall_mem_cons, not_mem_nil, false_implies, implies_true, and_true] at h
  obtain ⟨h₁, h₂, h₃, h₄, h₅⟩ := h
  by_cases h₆ : c = '\x00'
  · subst h₆
    exact absurd hc (by decide)
  have hq : Text.quoteChar c = if Text.isVisible c then [c]
      else ['\\', 'u', '\x7b'] ++ Text.hexDigits c.toNat ++ ['\x7d'] := by
    rw [Text.quoteChar, if_neg h₁, if_neg h₂, if_neg h₃, if_neg h₄, if_neg h₅, if_neg h₆]
  by_cases hv : Text.isVisible c = true
  · rw [hq, if_pos hv]
  · rw [isPlain, hq, if_neg hv] at hc
    simp at hc

theorem stringTail_spelled {w : Char → List Char} (h : ∀ c ∈ cs, Spells w c) (r : List Char) :
    stringTail '"' (cs.flatMap w ++ '"' :: r) = ((cs.flatMap w).length + 1, some cs) := by
  induction cs with
  | nil => rfl
  | cons c cs ih =>
    obtain ⟨hc, hcs⟩ := forall_mem_cons.1 h
    rw [flatMap_cons, append_assoc]
    rcases hc with ⟨hq, hquote, hslash, hline⟩ | ⟨d, hq, hline, hd⟩
    · rw [hq, singleton_append, stringTail, if_neg hquote, if_neg (by simp [hslash, hline]), ih hcs]
      · rfl
      · rintro d ds rfl
        exact (hslash rfl).elim
    · rw [hq, cons_append, singleton_append, stringTail, if_neg hline, ih hcs, hd]
      rfl

/-- The first bare quote ends a string, with all its characters read. -/
theorem first_spelled {w : Char → List Char} (h : ∀ c ∈ s.toList, Spells w c) (r : List Char) :
    first '"' (s.toList.flatMap w ++ ['"'] ++ r)
      = (.token (.literal (.string s)), (s.toList.flatMap w ++ ['"']).length) := by
  rw [append_assoc, singleton_append, first, if_neg (by decide), if_neg (by decide),
    if_neg (by decide), if_neg (by decide), if_pos (.inl rfl), stringTail_spelled h]
  simp only [String.ofList_toList, length_append, length_singleton]

/-! ### Symbols -/

/-- A text that continues no symbol. -/
def Loose (r : List Char) : Prop := ∀ c ∈ r.head?, c ∉ ['*', '/', '<', '>', '=']

/-- The symbols that are the start of no other. -/
def alone : List Symbol :=
  [.plus, .minus, .percent, .ampersand, .pipe, .tilde, .comma, .semicolon, .openParen,
    .closeParen, .openBracket, .closeBracket]

theorem longest?_alone {s : Symbol} (hs : s ∈ alone) (r : List Char) :
    Symbol.longest? (s.chars ++ r) = some s := by
  cases s <;> first | rfl | exact absurd hs (by decide)

theorem mem_tail_chars (s : Symbol) : ∀ c ∈ s.chars.tail, c ∈ ['*', '/', '<', '>', '='] := by
  cases s <;> simp [Symbol.chars]

/-- What continues no symbol changes nothing about which symbols a text starts with. -/
theorem isPrefixOf_loose (s s' : Symbol) (hr : Loose r) :
    s'.chars.isPrefixOf (s.chars ++ r) = s'.chars.isPrefixOf s.chars := by
  rw [Bool.eq_iff_iff, List.isPrefixOf_iff_prefix, List.isPrefixOf_iff_prefix]
  refine ⟨fun h => ?_, fun h => h.trans (prefix_append s.chars r)⟩
  rcases prefix_or_prefix_of_prefix h (prefix_append s.chars r) with h' | ⟨more, hmore⟩
  · exact h'
  cases more with
  | nil => exact ⟨[], by rw [← hmore, append_nil, append_nil]⟩
  | cons c more =>
    rw [← hmore, prefix_append_right_inj] at h
    obtain ⟨rest, rfl⟩ := h
    have hc : c ∈ s'.chars.tail := by
      rw [← hmore]
      cases s <;> simp [Symbol.chars]
    exact absurd (mem_tail_chars s' c hc) (hr c rfl)

theorem longest?_loose (s : Symbol) (hr : Loose r) : Symbol.longest? (s.chars ++ r) = some s := by
  simp only [Symbol.longest?, isPrefixOf_loose s _ hr]
  cases s <;> rfl

/-! ### Cutting -/

/-- A text on one line is cut into tokens, wherever it stands. -/
structure Cuts (cs : List Char) (ts : List Token) : Prop where
  scan : ∀ start, (scanFrom start cs).map (List.map Lexeme.token) = .ok ts
  line : .newline ∉ ts

theorem cuts_nil : Cuts [] [] where
  scan start := by
    rw [scanFrom]
    rfl
  line := not_mem_nil

theorem byteLength_append (as bs : List Char) :
    Text.byteLength (as ++ bs) = Text.byteLength as + Text.byteLength bs := by
  induction as with
  | nil => rw [nil_append, Text.byteLength, Nat.zero_add]
  | cons a as ih =>
    rw [cons_append, Text.byteLength, Text.byteLength, ih, Nat.add_assoc]

section

variable {c : Char} {cs r : List Char} {ts : List Token}

theorem byteLength_toList (s : String) : Text.byteLength s.toList = s.utf8ByteSize := by
  have hlist (cs : List Char) : (String.ofList cs).utf8ByteSize = Text.byteLength cs := by
    induction cs with
    | nil => rfl
    | cons c cs ih =>
      rw [String.ofList_cons, String.utf8ByteSize_append, String.utf8ByteSize_singleton, ih,
        Text.byteLength]
  rw [← hlist, String.ofList_toList]

/-- A token at the head covers its own text, and the scan goes on behind it. -/
theorem scanFrom_token {t : Token} (hf : first c (cs ++ r) = (.token t, cs.length)) (start : Nat) :
    scanFrom start (c :: (cs ++ r))
      = (scanFrom (start + Text.byteLength (c :: cs)) r).map
          (⟨t, ⟨start, start + Text.byteLength (c :: cs)⟩⟩ :: ·) := by
  rw [scanFrom, hf]
  simp only [drop_left, take_left]

/-- A token at the head is found before the tokens of what follows it. -/
theorem Cuts.token {t : Token} (h : Cuts r ts) (ht : .newline ≠ t)
    (hf : first c (cs ++ r) = (.token t, cs.length)) : Cuts (c :: (cs ++ r)) (t :: ts) := by
  refine ⟨fun start => ?_, not_mem_cons_of_ne_of_not_mem ht h.line⟩
  obtain ⟨ls, hls, hts⟩ := except_map_eq_ok.1 (h.scan (start + Text.byteLength (c :: cs)))
  rw [scanFrom_token hf, hls]
  simp only [Except.map, map_cons, hts]

/-- A blank before something else is skipped. -/
theorem Cuts.blank (h : Cuts r ts) (hr : ∀ c ∈ r.head?, isGap c = false) : Cuts (' ' :: r) ts := by
  have hgap : r.takeWhile isGap = [] := takeWhile_append_stop (forall_mem_nil _) hr
  have hf : first ' ' r = (.skipped, 0) := by
    rw [first, if_pos (by decide), hgap]
    rfl
  refine ⟨fun start => ?_, h.line⟩
  rw [scanFrom, hf]
  exact h.scan _

/-- A symbol is found before what does not continue it. -/
theorem Cuts.symbol {s : Symbol} (h : Cuts r ts) (hs : Symbol.longest? (s.chars ++ r) = some s) :
    Cuts (s.chars ++ r) (.symbol s :: ts) := by
  obtain ⟨c, cs, hc, hgap, hcomment, hline, hdigit, hquote, hname⟩ : ∃ c cs, s.chars = c :: cs ∧
      ¬ isGap c = true ∧ c ≠ '#' ∧ c ≠ '\n' ∧ ¬ c.isDigit = true ∧ ¬ (c = '"' ∨ c = '\'') ∧
      ¬ isNameStart c = true := by
    cases s <;> exact ⟨_, _, rfl, by decide, by decide, by decide, by decide, by decide, by decide⟩
  have hlen : s.chars.length - 1 = cs.length := by rw [hc, length_cons, Nat.add_sub_cancel]
  rw [hc, cons_append] at hs ⊢
  refine h.token Token.noConfusion ?_
  rw [first, if_neg hgap, if_neg hcomment, if_neg hline, if_neg hdigit, if_neg hquote,
    if_neg hname, hs]
  exact congrArg (Prod.mk _) hlen

variable {s : String} {p : Char → Bool}

theorem ne_of_apply {d : Char} (hc : p c = true) (hd : p d = false) : c ≠ d := by
  rintro rfl
  rw [hc] at hd
  cases hd

theorem isGap_eq_false (hc : p c = true)
    (hp : p ' ' = false ∧ p '\t' = false ∧ p '\r' = false ∧ p '\x0c' = false) :
    ¬ isGap c = true := by
  simp only [isGap, Bool.or_eq_true, beq_iff_eq, not_or]
  exact ⟨⟨⟨ne_of_apply hc hp.1, ne_of_apply hc hp.2.1⟩, ne_of_apply hc hp.2.2.1⟩,
    ne_of_apply hc hp.2.2.2⟩

theorem isDigit_isNameStart (h : isNameStart c = true) : ¬ c.isDigit = true := by
  intro hd
  simp only [Char.isDigit, Bool.and_eq_true, decide_eq_true_eq] at hd
  unfold isNameStart Char.isAlpha Char.isUpper Char.isLower at h
  simp only [Bool.or_eq_true, Bool.and_eq_true, decide_eq_true_eq, beq_iff_eq] at h
  rcases h with (h | h) | rfl
  · exact absurd (UInt32.le_trans h.1 hd.2) (by decide)
  · exact absurd (UInt32.le_trans h.1 hd.2) (by decide)
  · exact absurd hd (by decide)

/-- A word goes as far as it can. -/
theorem Cuts.word {w : String} (h : Cuts r ts) (hw : isName w = true) (hr : Apart r) :
    Cuts (w.toList ++ r) (.ofWord w :: ts) := by
  rw [isName] at hw
  cases hc : w.toList with
  | nil =>
    rw [hc] at hw
    cases hw
  | cons c cs =>
    simp only [hc, Bool.and_eq_true, all_eq_true] at hw
    have hpart : (cs ++ r).takeWhile isNamePart = cs :=
      takeWhile_append_stop hw.2 fun c hc => (hr c hc).1
    have hquote : ¬ (c = '"' ∨ c = '\'') :=
      not_or.2 ⟨ne_of_apply hw.1 rfl, ne_of_apply hw.1 rfl⟩
    have hword : .newline ≠ Token.ofWord w := by
      unfold Token.ofWord
      repeat' split
      all_goals exact Token.noConfusion
    refine h.token hword ?_
    rw [first, if_neg (isGap_eq_false hw.1 (by decide)), if_neg (ne_of_apply hw.1 rfl),
      if_neg (ne_of_apply hw.1 rfl), if_neg (isDigit_isNameStart hw.1), if_neg hquote, if_pos hw.1,
      hpart]
    simp only [← hc, String.ofList_toList]

/-- A numeral is found as a whole. -/
theorem first_number (hs : IsNumeral s.toList) (hr : Apart r) :
    ∃ c cs, s.toList = c :: cs ∧
      first c (cs ++ r) = (.token (.literal (.number s)), cs.length) := by
  obtain ⟨c, whole, part, exp, hcs, hc, hw, hp, he⟩ := hs
  have htail : numberTail (whole ++ (part ++ exp) ++ r) = (whole ++ (part ++ exp)).length := by
    rw [append_assoc, append_assoc]
    exact numberTail_append hw hp he hr
  have hnumber : String.ofList (c :: (whole ++ (part ++ exp))) = s := by
    rw [← hcs, String.ofList_toList]
  refine ⟨c, _, hcs, ?_⟩
  rw [first, if_neg (isGap_eq_false hc (by decide)), if_neg (ne_of_apply hc rfl),
    if_neg (ne_of_apply hc rfl), if_pos hc, htail]
  simp only [take_left, hnumber]

theorem Cuts.number (h : Cuts r ts) (hs : IsNumeral s.toList) (hr : Apart r) :
    Cuts (s.toList ++ r) (.literal (.number s) :: ts) := by
  obtain ⟨c, cs, hcs, hf⟩ := first_number hs hr
  rw [hcs, cons_append]
  exact h.token Token.noConfusion hf

/-- A quoted text of plain characters is found with its value. -/
theorem Cuts.string (h : Cuts r ts) (hs : ∀ c ∈ s.toList, isPlain c = true) :
    Cuts ((Text.quoted s).toList ++ r) (.literal (.string s) :: ts) := by
  have htext : (Text.quoted s).toList ++ r
      = '"' :: (s.toList.flatMap Text.quoteChar ++ ['"'] ++ r) := by
    rw [Text.quoted, String.toList_ofList]
    rfl
  rw [htext]
  exact h.token Token.noConfusion (first_spelled (fun c hc => quoteChar_spells (hs c hc)) r)

end

end Lexeme

/-! ### The tokens of a scan -/

/-- A token as a scan finds it: a name is not one of the other words, and a number is a numeral. -/
def Token.Possible : Token → Prop
  | .name n => isName n = true ∧ ofWord n = .name n
  | .literal (.number s) => Lexeme.IsNumeral s.toList
  | _ => True

namespace Lexeme

theorem possible_ofWord {w : String} (h : isName w = true) : (Token.ofWord w).Possible := by
  generalize ht : Token.ofWord w = t
  have hword := ht
  rw [Token.ofWord] at ht
  split at ht
  · subst ht
    trivial
  split at ht
  · subst ht
    trivial
  split at ht
  · subst ht
    trivial
  · subst ht
    exact ⟨h, hword⟩

theorem possible_first {c : Char} {cs : List Char} {t : Token} (h : (first c cs).1 = .token t) :
    t.Possible := by
  rcases first_cases (Prod.ext h rfl) with
    ⟨hd, hn, rfl⟩ | ⟨hs, -, rfl⟩ | ⟨value, rfl⟩ | ⟨s, rfl⟩ | rfl
  · rw [Token.Possible, String.toList_ofList, hn]
    exact isNumeral_take hd cs
  · exact possible_ofWord (isName_takeWhile hs cs)
  · trivial
  · trivial
  · trivial

/-- Every token of a scan is a possible one. -/
theorem possible_scan {source : String} {ls : List Lexeme} (h : scan source = .ok ls) :
    ∀ t ∈ ls.map Lexeme.token, t.Possible := by
  intro t ht
  obtain ⟨l, hl, rfl⟩ := mem_map.1 ht
  obtain ⟨c, rest, hf⟩ := exists_first_of_mem_scan h hl
  exact possible_first hf

end Lexeme

end RowAwk.Syntax
