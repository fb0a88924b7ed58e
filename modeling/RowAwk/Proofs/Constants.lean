import RowAwk.Proofs.Numerals
import RowAwk.Proofs.Spelling

/-!
Constants as tokens.

The language of the sources writes strings and numbers almost as awk does, so its scan can be put on
the constants of a program. A string constant is one token, whatever follows it, and its value is
the string: no quote inside is left bare, so the first bare one ends it.

    "a\"b\\" …          a"b\

The constant of a number that a source wrote is again a number: digits alone if the source wrote
digits alone and 64 bits can hold them, else digits around a point. This ends where the numbers do:

    007          7
    1.50e3       1500.0
    1e309        inf          behind the greatest number there is only this name
-/

open List

namespace RowAwk.Awk

open Syntax (Lexeme)

/-! ### Strings -/

theorem escapeChar_spells (c : Char) : Lexeme.Spells escapeChar c := by
  refine Lexeme.spells_of (by decide) fun h => ?_
  simp only [Lexeme.escapes, forall_mem_cons, not_mem_nil, false_implies, implies_true,
    and_true] at h
  simp [escapeChar, h]

theorem toList_stringText (s : String) :
    (stringText s).toList = '"' :: (s.toList.flatMap escapeChar ++ ['"']) := by
  simp [stringText]

/-- A string constant is the first token of whatever text it starts. -/
theorem first_stringText (s : String) (t : List Char) :
    Lexeme.first '"' (s.toList.flatMap escapeChar ++ ['"'] ++ t)
      = (.token (.literal (.string s)), (s.toList.flatMap escapeChar ++ ['"']).length) :=
  Lexeme.first_spelled (fun c _ => escapeChar_spells c) t

theorem stringText_append_inj {s s' : String} {t t' : List Char} :
    (stringText s).toList ++ t = (stringText s').toList ++ t' ↔ s = s' ∧ t = t' := by
  constructor
  · intro h
    rw [toList_stringText, toList_stringText, cons_append, cons_append] at h
    have hrest := (List.cons.inj h).2
    have hfirst := first_stringText s t
    rw [hrest, first_stringText s' t'] at hfirst
    simp only [Prod.mk.injEq, Lexeme.Piece.token.injEq, Syntax.Token.literal.injEq,
      Syntax.Literal.string.injEq] at hfirst
    obtain ⟨rfl, -⟩ := hfirst
    exact ⟨rfl, append_cancel_left hrest⟩
  · rintro ⟨rfl, rfl⟩
    rfl

/-- A string constant is read back as one token from the head of any text, with its own text for
    its span and the string for its value. So its text says where it ends and what it is. -/
theorem string_constants_read_back (s t : String) (start : Nat) :
    (∃ rest, ((Const.str s).text ++ t).toList = '"' :: rest ∧
      Lexeme.first '"' rest
        = (.token (.literal (.string s)), (Const.str s).text.length - 1)) ∧
    Lexeme.scanFrom start ((Const.str s).text ++ t).toList
      = (Lexeme.scanFrom (start + (Const.str s).text.utf8ByteSize) t.toList).map
          (⟨.literal (.string s), ⟨start, start + (Const.str s).text.utf8ByteSize⟩⟩ :: ·) ∧
    ∀ s' t' : String, (Const.str s).text ++ t = (Const.str s').text ++ t' ↔ s = s' ∧ t = t' := by
  have htext : (Const.str s).text.toList = '"' :: (s.toList.flatMap escapeChar ++ ['"']) :=
    toList_stringText s
  have hwhole : ((Const.str s).text ++ t).toList
      = '"' :: (s.toList.flatMap escapeChar ++ ['"'] ++ t.toList) := by
    rw [String.toList_append, htext, List.cons_append]
  refine ⟨⟨_, hwhole, ?_⟩, ?_, fun s' t' => ?_⟩
  · rw [first_stringText, ← String.length_toList, htext, List.length_cons, Nat.add_sub_cancel]
  · rw [hwhole, Lexeme.scanFrom_token (first_stringText s t.toList), ← htext,
      Lexeme.byteLength_toList]
  · rw [← String.toList_inj, String.toList_append, String.toList_append]
    exact stringText_append_inj.trans (and_congr_right' String.toList_inj)

end RowAwk.Awk

/-! ### The numbers that numerals write -/

namespace RowAwk.Number

open Syntax.Lexeme (IsDigits IsExponent IsFraction IsNumeral)

variable {cs : List Char}

/-- The exponent that the end of a numeral writes. -/
inductive WritesExponent : List Char → Int → Prop
  | absent : WritesExponent [] 0
  | positive {mark : Char} {sign ds : List Char} (hm : mark = 'e' ∨ mark = 'E')
      (hs : sign = [] ∨ sign = ['+']) (hd : IsDigits ds) :
      WritesExponent (mark :: (sign ++ ds)) (Nat.ofDigitChars 10 ds 0)
  | negative {mark : Char} {ds : List Char} (hm : mark = 'e' ∨ mark = 'E') (hd : IsDigits ds) :
      WritesExponent (mark :: '-' :: ds) (-(Nat.ofDigitChars 10 ds 0 : Int))

/-- Digits behind a point, which is left out if there are none. -/
def pointed : List Char → List Char
  | [] => []
  | d :: ds => '.' :: d :: ds

/-- The number that a numeral writes: its digits with the point where it stands, moved as far as the
    exponent says. -/
inductive Writes : List Char → ℚ → Prop
  | numeral {whole fraction exp : List Char} {e : Int} (hw : IsDigits whole)
      (hf : ∀ d ∈ fraction, d.isDigit = true) (he : WritesExponent exp e) :
      Writes (whole ++ (pointed fraction ++ exp))
        (Nat.ofDigitChars 10 (whole ++ fraction) 0 * 10 ^ (e - fraction.length))

theorem exists_writesExponent (h : IsExponent cs) : ∃ e, WritesExponent cs e := by
  rcases h with rfl | ⟨mark, sign, ds, hm, hs, hd, rfl⟩
  · exact ⟨0, .absent⟩
  · rcases hs with rfl | rfl | rfl
    · exact ⟨_, .positive hm (.inl rfl) hd⟩
    · exact ⟨_, .positive hm (.inr rfl) hd⟩
    · exact ⟨_, .negative hm hd⟩

/-- Every numeral writes a number. -/
theorem exists_writes (h : IsNumeral cs) : ∃ x, Writes cs x := by
  obtain ⟨c, whole, part, exp, rfl, hc, hw, hp, he⟩ := h
  obtain ⟨e, he⟩ := exists_writesExponent he
  have hdigits : IsDigits (c :: whole) := ⟨by simp, by simpa [hc] using hw⟩
  rcases hp with rfl | ⟨ds, ⟨hne, hd⟩, rfl⟩
  · exact ⟨_, .numeral hdigits (forall_mem_nil _) he⟩
  · obtain ⟨d, ds, rfl⟩ := exists_cons_of_ne_nil hne
    exact ⟨_, .numeral hdigits hd he⟩

variable {e : Int} {x : ℚ}

theorem exponentOf?_of_writes (h : WritesExponent cs e) : exponentOf? cs = some e := by
  have hsign {ds : List Char} (hd : IsDigits ds) : takeSign ds = (false, ds) := by
    obtain ⟨d, ds, rfl⟩ := exists_cons_of_ne_nil hd.1
    exact takeSign_of_isDigit (hd.2 d (by simp)) ds
  cases h with
  | absent => rfl
  | positive hm hs hd =>
    rcases hs with rfl | rfl
    · simp [exponentOf?, hm, intOfDigits?, hsign hd, natOfDigits?_eq hd.1 hd.2]
    · simp [exponentOf?, hm, intOfDigits?, takeSign, natOfDigits?_eq hd.1 hd.2]
  | negative hm hd =>
    simp [exponentOf?, hm, intOfDigits?, takeSign, natOfDigits?_eq hd.1 hd.2]

theorem WritesExponent.head (h : WritesExponent cs e) :
    ∀ c ∈ cs.head?, c.isDigit = false ∧ c ≠ '.' := by
  cases h with
  | absent => simp
  | positive hm | negative hm => rcases hm with rfl | rfl <;> simp

/-- Digits end where something else starts. -/
theorem dropWhile_isDigit {ds r : List Char} (hd : ∀ d ∈ ds, d.isDigit = true)
    (hr : ∀ c ∈ r.head?, c.isDigit = false) : (ds ++ r).dropWhile Char.isDigit = r := by
  have h := takeWhile_append_dropWhile (p := Char.isDigit) (l := ds ++ r)
  rw [Syntax.Lexeme.takeWhile_append_stop hd hr] at h
  exact append_cancel_left h

theorem takeFraction_of_writes {fraction exp : List Char} (hf : ∀ d ∈ fraction, d.isDigit = true)
    (he : WritesExponent exp e) : takeFraction (pointed fraction ++ exp) = (fraction, exp) := by
  have hstop : ∀ c ∈ exp.head?, c.isDigit = false := fun c hc => (he.head c hc).1
  cases fraction with
  | nil =>
    unfold takeFraction
    split
    · rename_i h
      have := he.head '.' (by simpa [pointed] using congrArg List.head? h)
      simp at this
    · rfl
  | cons d ds =>
    show ((d :: ds ++ exp).takeWhile Char.isDigit, (d :: ds ++ exp).dropWhile Char.isDigit) = _
    rw [Syntax.Lexeme.takeWhile_append_stop hf hstop, dropWhile_isDigit hf hstop]

/-- Digits write a number with no more digits. -/
theorem ofDigitChars_lt : ∀ {ds : List Char} (n : Nat), (∀ d ∈ ds, d.isDigit = true) →
    Nat.ofDigitChars 10 ds n < (n + 1) * 10 ^ ds.length
  | [], n, _ => by simp
  | d :: ds, n, h => by
    have hd : d.toNat - '0'.toNat ≤ 9 := by
      have := h d (by simp)
      simp only [Char.isDigit, Bool.and_eq_true, decide_eq_true_eq] at this
      have hle : d.toNat ≤ 57 := this.2
      show d.toNat - 48 ≤ 9
      omega
    rw [Nat.ofDigitChars_cons, length_cons, Nat.pow_succ']
    calc Nat.ofDigitChars 10 ds (10 * n + (d.toNat - '0'.toNat))
        < (10 * n + (d.toNat - '0'.toNat) + 1) * 10 ^ ds.length :=
          ofDigitChars_lt _ fun x hx => h x (by simp [hx])
      _ ≤ (10 * (n + 1)) * 10 ^ ds.length := Nat.mul_le_mul_right _ (by omega)
      _ = (n + 1) * (10 * 10 ^ ds.length) := by ring

/-- A numeral is read as a decimal of the number that it writes. -/
theorem ofNumeral?_of_writes (h : Writes cs x) :
    ∃ significand digits e, Binary64.ofNumeral? false cs
        = some (Binary64.ofDecimal false significand digits e) ∧
      significand < 10 ^ digits ∧ x = significand * 10 ^ e := by
  cases h with
  | @numeral whole fraction exp e hw hf he =>
    have hstop : ∀ c ∈ (pointed fraction ++ exp).head?, c.isDigit = false := by
      cases fraction with
      | nil => exact fun c hc => (he.head c hc).1
      | cons d ds => simp [pointed]
    have hdigits : ∀ d ∈ whole ++ fraction, d.isDigit = true := by
      intro d hd
      rcases mem_append.1 hd with hd | hd
      · exact hw.2 d hd
      · exact hf d hd
    refine ⟨Nat.ofDigitChars 10 (whole ++ fraction) 0, (whole ++ fraction).length,
      e - fraction.length, ?_, ?_, rfl⟩
    · rw [Binary64.ofNumeral?, Syntax.Lexeme.takeWhile_append_stop hw.2 hstop,
        dropWhile_isDigit hw.2 hstop, takeFraction_of_writes hf he]
      simp [natOfDigits?_eq (by simp [hw.1]) hdigits, exponentOf?_of_writes he]
    · simpa using ofDigitChars_lt 0 hdigits

/-- A decimal is read as no number from the limit on, and only then. -/
theorem ofDecimal_eq_infinite_iff {significand digits : Nat} (h : significand < 10 ^ digits) :
    Binary64.ofDecimal false significand digits e = .infinite false ↔
      Binary64.limit ≤ significand * 10 ^ e := by
  rw [Binary64.ofDecimal]
  split
  · rename_i hzero
    rw [hzero, Nat.cast_zero, zero_mul]
    exact iff_of_false Binary64.noConfusion (not_le.2 limit_pos)
  rename_i hne
  split
  · -- far above: already ten to the power is beyond the limit
    rename_i hbig
    have hone : (1 : ℚ) ≤ significand := by exact_mod_cast Nat.pos_of_ne_zero hne
    refine iff_of_true rfl ?_
    calc Binary64.limit ≤ 2 ^ 53 * 2 ^ Binary64.greatestExponent :=
          mul_le_mul_of_nonneg_right (by norm_num) (by positivity)
      _ = 2 ^ (1024 : Int) := by
          rw [← zpow_natCast, ← zpow_add₀ two_ne_zero]
          rfl
      _ ≤ 2 ^ (3 * e) := zpow_le_zpow_right₀ one_le_two (by omega)
      _ = 8 ^ e := by rw [zpow_mul]; norm_num
      _ ≤ 10 ^ e := zpow_le_zpow_left₀ (by omega) (by norm_num) (by norm_num)
      _ ≤ significand * 10 ^ e := le_mul_of_one_le_left (by positivity) hone
  split
  · -- far below: not even one
    rename_i hsmall
    have hlt : (significand : ℚ) < 10 ^ (digits : Int) := by exact_mod_cast h
    refine iff_of_false Binary64.noConfusion (not_le.2 ?_)
    calc (significand : ℚ) * 10 ^ e ≤ 10 ^ (digits : Int) * 10 ^ e :=
          mul_le_mul_of_nonneg_right hlt.le (by positivity)
      _ = 10 ^ (e + digits) := by rw [← zpow_add₀ (by norm_num), add_comm]
      _ ≤ 1 := zpow_le_one_of_nonpos₀ (by norm_num) (by omega)
      _ < Binary64.limit := by
          have hgreat : (1 : ℚ) ≤ 2 ^ Binary64.greatestExponent :=
            one_le_zpow₀ one_le_two (by decide)
          rw [Binary64.limit]
          linarith
  · have hten : 0 < (10 : Nat) := by decide
    obtain ⟨hup, hdown⟩ := powRatio_pos hten e
    have hdown' : (0 : ℚ) < (powRatio 10 e).2 := by exact_mod_cast hdown
    have hpow : (10 : ℚ) ^ e = (powRatio 10 e).1 / (powRatio 10 e).2 := (powRatio_div 10 e).symm
    dsimp only
    rw [ofRatio_eq_infinite_iff false hdown.ne', hpow, mul_div_assoc', le_div_iff₀ hdown']
    push_cast
    exact Iff.rfl

/-- A numeral is digits alone, or it shows that it has a fraction or an exponent. -/
theorem Writes.isDigits_or (h : Writes cs x) :
    (IsDigits cs ∧ x = Nat.ofDigitChars 10 cs 0) ∨ ∃ c ∈ cs, c = '.' ∨ c = 'e' ∨ c = 'E' := by
  cases h with
  | @numeral whole fraction exp e hw hf he =>
    cases fraction with
    | cons d ds => exact .inr ⟨'.', by simp [pointed], .inl rfl⟩
    | nil =>
      cases he with
      | absent => exact .inl ⟨by simpa [pointed] using hw, by simp [pointed]⟩
      | positive hm | negative hm => exact .inr ⟨_, by simp [pointed], .inr hm⟩

theorem Writes.eq_of_isDigits (h : Writes cs x) (hd : IsDigits cs) :
    x = Nat.ofDigitChars 10 cs 0 := by
  rcases h.isDigits_or with ⟨-, hx⟩ | ⟨c, hc, hmark⟩
  · exact hx
  · have hdigit := hd.2 c hc
    rcases hmark with rfl | rfl | rfl <;> exact absurd hdigit (by decide)

theorem Writes.exists_cons (h : Writes cs x) : ∃ d ds, cs = d :: ds ∧ d.isDigit = true := by
  cases h with
  | numeral hw =>
    obtain ⟨d, ds, rfl⟩ := exists_cons_of_ne_nil hw.1
    exact ⟨d, _, rfl, hw.2 d (by simp)⟩

theorem two_pow_lt_limit : (2 : ℚ) ^ 63 < Binary64.limit := by
  have hgreat : (2 : ℚ) ^ (11 : Int) ≤ 2 ^ Binary64.greatestExponent :=
    zpow_le_zpow_right₀ one_le_two (by decide)
  rw [Binary64.limit]
  norm_num at hgreat ⊢
  linarith

/-- Numbers laid out in full have digits on both sides of a point. -/
theorem positionalText_digits {digits : List Char} (hd : IsDigits digits) (point : Int) :
    ∃ whole fraction, positionalText digits point = whole ++ '.' :: fraction ∧
      IsDigits whole ∧ IsDigits fraction := by
  obtain ⟨hne, hd⟩ := hd
  rw [positionalText]
  split
  · refine ⟨['0'], List.replicate (-point).toNat '0' ++ digits, by simp, ⟨by simp, by simp⟩,
      by simp [hne], ?_⟩
    intro c hc
    rcases mem_append.1 hc with hc | hc
    · rw [eq_of_mem_replicate hc]
      decide
    · exact hd c hc
  split
  · refine ⟨digits ++ List.replicate (point.toNat - digits.length) '0', ['0'], by simp,
      ⟨by simp [hne], ?_⟩, by simp, by simp⟩
    intro c hc
    rcases mem_append.1 hc with hc | hc
    · exact hd c hc
    · rw [eq_of_mem_replicate hc]
      decide
  · rename_i hpos hlt
    refine ⟨_, _, rfl, ⟨?_, fun c hc => hd c (mem_of_mem_take hc)⟩, ?_,
      fun c hc => hd c (mem_of_mem_drop hc)⟩
    · simp only [ne_eq, take_eq_nil_iff, not_or]
      exact ⟨by omega, hne⟩
    · simp only [ne_eq, drop_eq_nil_iff]
      omega

end RowAwk.Number

/-! ### Constants of numbers -/

namespace RowAwk.Compile.Lowering

open Awk (Const)
open Number (Binary64 Writes)
open Syntax (Lexeme Literal)
open Syntax.Lexeme (IsDigits IsNumeral)

variable {spelling : String}

/-- A numeral scans as the one token that it is. -/
theorem scan_numeral {s : String} (h : IsNumeral s.toList) :
    Lexeme.scan s = .ok [⟨.literal (.number s), ⟨0, s.utf8ByteSize⟩⟩] := by
  obtain ⟨c, cs, hcs, hf⟩ := Lexeme.first_number h Lexeme.apart_nil
  have hs := Lexeme.scanFrom_token hf 0
  rw [append_nil, ← hcs, Lexeme.byteLength_toList, Lexeme.scanFrom, Nat.zero_add] at hs
  rw [Lexeme.scan, hs]
  rfl

theorem isNumeral_toString (n : Nat) : IsNumeral (toString n).toList := by
  have hdigit := Number.isDigit_toString n
  obtain ⟨c, cs, hcs⟩ := exists_cons_of_ne_nil (Number.toString_ne_nil n)
  rw [hcs] at hdigit ⊢
  exact ⟨c, cs, [], [], by simp, hdigit c (by simp), fun d hd => hdigit d (by simp [hd]),
    .inl rfl, .inl rfl⟩

/-- The text of a number with a fraction is a numeral with a point. -/
theorem isNumeral_float (m : Nat) (q : Int) :
    IsNumeral (Const.float (.finite false m q)).text.toList ∧
      '.' ∈ (Const.float (.finite false m q)).text.toList := by
  have hdigits : IsDigits (Number.digitsOf Awk.numberStyle.tie m q).1 := by
    rw [Number.digitsOf]
    split
    · exact ⟨by simp, by simp⟩
    · exact ⟨Number.toString_ne_nil _, Number.isDigit_toString _⟩
  obtain ⟨whole, fraction, htext, ⟨hne, hw⟩, hf⟩ := Number.positionalText_digits hdigits
    ((Number.digitsOf Awk.numberStyle.tie m q).1.length
      + (Number.digitsOf Awk.numberStyle.tie m q).2)
  rw [← Number.toList_text Const.positional_numberStyle] at htext
  obtain ⟨c, whole, rfl⟩ := exists_cons_of_ne_nil hne
  rw [Const.text, htext]
  exact ⟨⟨c, whole, '.' :: fraction, [], by simp, hw c (by simp), fun d hd => hw d (by simp [hd]),
    .inr ⟨fraction, hf, rfl⟩, .inl rfl⟩, by simp⟩

theorem isFractional_of_isDigits (hd : IsDigits spelling.toList) :
    (Literal.number spelling).isFractional = false := by
  rw [Literal.isFractional, any_eq_false]
  intro c hc
  have hdigit := hd.2 c hc
  simp only [Bool.or_eq_true, beq_iff_eq]
  rintro ((rfl | rfl) | rfl) <;> exact absurd hdigit (by decide)

/-- Digits alone write an integer if 64 bits can hold it. -/
theorem constant?_whole (hd : IsDigits spelling.toList)
    (hlt : Nat.ofDigitChars 10 spelling.toList 0 < 2 ^ 63) :
    constant? (.number spelling) = some (.int (Nat.ofDigitChars 10 spelling.toList 0)) := by
  have hlt : Nat.ofDigitChars 10 spelling.toList 0 < Nat.pow 2 63 := hlt
  simp [constant?, isFractional_of_isDigits hd, Number.natOfDigits?_eq hd.1 hd.2, Option.filter_some,
    hlt]

/-- All other numerals write a number that may have a fraction. -/
theorem constant?_real {x : ℚ} (hx : Writes spelling.toList x)
    (h : ¬ (IsDigits spelling.toList ∧ x < 2 ^ 63)) :
    ∃ y, Binary64.ofNumeral? false spelling.toList = some y ∧
      constant? (.number spelling) = some (.float y) := by
  obtain ⟨significand, digits, e, hread, -, -⟩ := Number.ofNumeral?_of_writes hx
  refine ⟨_, hread, ?_⟩
  have htext : Binary64.ofText? spelling = Binary64.ofNumeral? false spelling.toList := by
    obtain ⟨d, ds, hs, hd⟩ := hx.exists_cons
    rw [ofText?_of_isDigit hs hd, hs]
  rcases hx.isDigits_or with ⟨hd, rfl⟩ | ⟨c, hc, hmark⟩
  · have hlarge : ¬ Nat.ofDigitChars 10 spelling.toList 0 < Nat.pow 2 63 := by
      intro hlt
      exact h ⟨hd, by exact_mod_cast hlt⟩
    simp [constant?, isFractional_of_isDigits hd, Number.natOfDigits?_eq hd.1 hd.2,
      Option.filter_some, hlarge, htext, hread]
  · have hfractional : (Literal.number spelling).isFractional = true := by
      rw [Literal.isFractional, any_eq_true]
      exact ⟨c, hc, by rcases hmark with rfl | rfl | rfl <;> rfl⟩
    simp [constant?, hfractional, htext, hread]

/-- How a constant shows the number that a numeral wrote: as digits without leading zeros if the
    numeral is digits alone and 64 bits can hold them, else with a point. Either way it is one token
    of a number again, unless the number is behind the greatest one. -/
structure Shows (spelling : String) (x : ℚ) (c : Const) : Prop where
  whole : IsDigits spelling.toList ∧ x < 2 ^ 63 → ∃ n : Nat, x = n ∧ c = .int n ∧ c.text = toString n
  point : ¬ (IsDigits spelling.toList ∧ x < 2 ^ 63) → x < Binary64.limit → '.' ∈ c.text.toList
  number : x < Binary64.limit →
    Lexeme.scan c.text = .ok [⟨.literal (.number c.text), ⟨0, c.text.utf8ByteSize⟩⟩]
  infinite : Binary64.limit ≤ x → c.text = "inf"

theorem exists_constant? {x : ℚ} (hx : Writes spelling.toList x) :
    ∃ c, constant? (.number spelling) = some c ∧ Shows spelling x c := by
  by_cases h : IsDigits spelling.toList ∧ x < 2 ^ 63
  · obtain ⟨hd, hlt⟩ := h
    have hval := hx.eq_of_isDigits hd
    have hc := constant?_whole hd (by rw [hval] at hlt; exact_mod_cast hlt)
    have hlimit : ¬ Binary64.limit ≤ x := not_le.2 (hlt.trans Number.two_pow_lt_limit)
    exact ⟨_, hc, fun _ => ⟨_, hval, rfl, rfl⟩, fun h => absurd ⟨hd, hlt⟩ h,
      fun _ => scan_numeral (isNumeral_toString _), fun h => absurd h hlimit⟩
  · obtain ⟨y, hread, hc⟩ := constant?_real hx h
    obtain ⟨significand, digits, e, hread', hdigits, hval⟩ := Number.ofNumeral?_of_writes hx
    have hlimit := Number.ofDecimal_eq_infinite_iff (e := e) hdigits
    have hwritten := written_ofDecimal significand digits e
    rw [← Option.some.inj (hread.symm.trans hread'), ← hval] at hlimit
    rw [← Option.some.inj (hread.symm.trans hread')] at hwritten
    refine ⟨_, hc, ?_⟩
    cases hwritten with
    | @real m q _ =>
      have hlt : ¬ Binary64.limit ≤ x := fun hle => by cases hlimit.2 hle
      obtain ⟨hnumeral, hpoint⟩ := isNumeral_float m q
      exact ⟨fun h' => absurd h' h, fun _ _ => hpoint, fun _ => scan_numeral hnumeral,
        fun hle => absurd hle hlt⟩
    | infinite =>
      have hge : ¬ x < Binary64.limit := not_lt.2 (hlimit.1 rfl)
      exact ⟨fun h' => absurd h' h, fun _ hlt => absurd hlt hge, fun hlt => absurd hlt hge,
        fun _ => rfl⟩

/-- Every number that a source can write is lowered to a constant that shows it. -/
theorem number_literals_stay_numbers {source spelling : String} {ls : List Lexeme}
    (hs : Lexeme.scan source = .ok ls)
    (hl : .literal (.number spelling) ∈ ls.map Lexeme.token) :
    (∃ x, Writes spelling.toList x) ∧
    ∃ c, (∀ s, (literal (.number spelling)).run s = .ok (.const c, s)) ∧
      ∀ x, Writes spelling.toList x → Shows spelling x c := by
  have hnumeral : IsNumeral spelling.toList := Lexeme.possible_scan hs _ hl
  obtain ⟨x, hx⟩ := Number.exists_writes hnumeral
  obtain ⟨c, hc, -⟩ := exists_constant? hx
  refine ⟨⟨x, hx⟩, c, fun s => ?_, fun x hx => ?_⟩
  · rw [literal, hc]
    rfl
  · obtain ⟨c', hc', hshows⟩ := exists_constant? hx
    rwa [Option.some.inj (hc.symm.trans hc')]

/-- A fraction and an exponent are written out. -/
theorem number_literals_stay_numbers_exponent :
    Lexeme.scan "1.50e3" = .ok [⟨.literal (.number "1.50e3"), ⟨0, 6⟩⟩] ∧
      Writes "1.50e3".toList 1500 ∧
      ∃ c, (∀ s, (literal (.number "1.50e3")).run s = .ok (.const c, s)) ∧
        '.' ∈ c.text.toList ∧
        Lexeme.scan c.text = .ok [⟨.literal (.number c.text), ⟨0, c.text.utf8ByteSize⟩⟩] := by
  have hs : Lexeme.scan "1.50e3" = .ok [⟨.literal (.number "1.50e3"), ⟨0, 6⟩⟩] := by decide +kernel
  have hx : Writes "1.50e3".toList 1500 := by
    have hthree : Number.WritesExponent ['e', '3'] 3 :=
      .positive (.inl rfl) (.inl rfl) ⟨by simp, by simp⟩
    have h := @Writes.numeral ['1'] ['5', '0'] _ _ ⟨by simp, by simp⟩ (by simp) hthree
    have hvalue : (Nat.ofDigitChars 10 (['1'] ++ ['5', '0']) 0 : ℚ)
        * 10 ^ ((3 : Int) - ['5', '0'].length) = 1500 := by
      rw [show Nat.ofDigitChars 10 (['1'] ++ ['5', '0']) 0 = 150 by decide]
      norm_num
    rwa [hvalue] at h
  have hlt : (1500 : ℚ) < Binary64.limit := lt_trans (by norm_num) Number.two_pow_lt_limit
  have hpoint : ¬ (IsDigits "1.50e3".toList ∧ (1500 : ℚ) < 2 ^ 63) := fun h =>
    absurd (h.1.2 '.' (by decide +kernel)) (by decide)
  obtain ⟨-, c, hrun, hshows⟩ := number_literals_stay_numbers hs List.mem_cons_self
  exact ⟨hs, hx, c, hrun, (hshows _ hx).point hpoint hlt, (hshows _ hx).number hlt⟩

/-- A number behind the greatest one is lowered to a name, which awk takes for a variable. -/
theorem huge_number_becomes_name :
    Lexeme.scan "1e309" = .ok [⟨.literal (.number "1e309"), ⟨0, 5⟩⟩] ∧
      ∃ c, (∀ s, (literal (.number "1e309")).run s = .ok (.const c, s)) ∧ c.text = "inf" ∧
        Lexeme.scan c.text = .ok [⟨.name "inf", ⟨0, 3⟩⟩] := by
  have hc : constant? (.number "1e309") = some (.float (.infinite false)) := by decide +kernel
  refine ⟨by decide +kernel, .float (.infinite false), fun s => ?_, rfl, by decide +kernel⟩
  rw [literal, hc]
  rfl

end RowAwk.Compile.Lowering
