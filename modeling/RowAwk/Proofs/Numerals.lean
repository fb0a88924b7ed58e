import RowAwk.Proofs.Rounding
import RowAwk.Proofs.SourceTrees
import RowAwk.Compile.Lowering

/-!
Texts of constants.

A number with a fraction is written with a point between digits, which fixes its value; this value
rounds to the number and to no other one. So different constants have different texts, but for the
truth values, which are written as one and zero.

    0.001     1200.0     3.25
-/

open List

namespace RowAwk.Number

/-! ### Digits around a point -/

/-- A text of digits around a point, and its value. -/
def Decimal (cs : List Char) (x : ℚ) : Prop :=
  ∃ whole fraction, cs = whole ++ '.' :: fraction ∧ whole ≠ [] ∧
    (∀ c ∈ whole, c.isDigit = true) ∧ (∀ c ∈ fraction, c.isDigit = true) ∧
      x * 10 ^ fraction.length = Nat.ofDigitChars 10 (whole ++ fraction) 0

/-- What stands before a point is all that comes before the first one. -/
theorem takeWhile_isDigit {whole : List Char} (hw : ∀ c ∈ whole, c.isDigit = true)
    (fraction : List Char) :
    (whole ++ '.' :: fraction).takeWhile Char.isDigit = whole := by
  rw [takeWhile_append_of_pos hw, takeWhile_cons_of_neg (by decide), append_nil]

variable {cs : List Char} {c : Char} {n : Nat}

theorem Decimal.unique {x y : ℚ} (hx : Decimal cs x) (hy : Decimal cs y) : x = y := by
  obtain ⟨w, f, rfl, -, hw, -, hx⟩ := hx
  obtain ⟨w', f', h, -, hw', -, hy⟩ := hy
  have hww : w = w' := by rw [← takeWhile_isDigit hw f, h, takeWhile_isDigit hw']
  subst hww
  cases append_cancel_left h
  exact mul_right_cancel₀ (pow_ne_zero _ (by norm_num)) (hx.trans hy.symm)

theorem decimal_positionalText {digits : List Char} (hd : ∀ c ∈ digits, c.isDigit = true)
    (k : Int) (hne : digits ≠ []) :
    Decimal (positionalText digits (digits.length + k))
      (Nat.ofDigitChars 10 digits 0 * 10 ^ k) := by
  have hzero : ∀ {n : Nat}, ∀ c ∈ List.replicate n '0', c.isDigit = true := by
    intro n c hc
    rw [eq_of_mem_replicate hc]
    decide
  have hten : (10 : ℚ) ≠ 0 := by norm_num
  rw [positionalText]
  split
  · -- zeros between the point and the digits
    rename_i hp
    refine ⟨['0'], List.replicate (-(digits.length + k)).toNat '0' ++ digits, by simp, by simp,
      by simp, ?_, ?_⟩
    · intro c hc
      exact (mem_append.1 hc).elim (hzero c) (hd c)
    · have hlen : k + ((-(digits.length + k)).toNat + digits.length : Nat) = 0 := by
        push_cast
        omega
      rw [mul_assoc, ← zpow_natCast, ← zpow_add₀ hten, length_append, length_replicate, hlen]
      simp [Nat.ofDigitChars_append, Nat.ofDigitChars_cons]
  split
  · -- zeros between the digits and the point
    rename_i hp hl
    obtain ⟨n, rfl⟩ := Int.eq_ofNat_of_zero_le (show 0 ≤ k by omega)
    have hn : (((digits.length : Int) + n).toNat - digits.length) = n := by omega
    refine ⟨digits ++ List.replicate n '0', ['0'], by simp [hn], by simp [hne], ?_, by simp, ?_⟩
    · intro c hc
      exact (mem_append.1 hc).elim (hd c) (hzero c)
    · simp [Nat.ofDigitChars_append, Nat.ofDigitChars_cons]
      ring
  · -- the point among the digits
    rename_i hp hl
    refine ⟨digits.take _, digits.drop _, rfl, ?_, fun c hc => hd c (mem_of_mem_take hc),
      fun c hc => hd c (mem_of_mem_drop hc), ?_⟩
    · rw [Ne, take_eq_nil_iff, not_or]
      exact ⟨by omega, hne⟩
    · have hlen : k + (digits.drop ((digits.length : Int) + k).toNat).length = 0 := by
        rw [length_drop]
        omega
      rw [mul_assoc, ← zpow_natCast, ← zpow_add₀ hten, hlen, zpow_zero, mul_one, take_append_drop]

theorem isDigit_toString (n : Nat) : ∀ c ∈ (toString n).toList, c.isDigit = true := by
  intro c hc
  rw [show (toString n).toList = Nat.toDigits 10 n from Nat.toList_repr] at hc
  exact Nat.isDigit_of_mem_toDigits (by decide) (by decide) hc

theorem toString_ne_nil (n : Nat) : (toString n).toList ≠ [] := by
  rw [show (toString n).toList = Nat.toDigits 10 n from Nat.toList_repr]
  exact Nat.toDigits_ne_nil

theorem ofDigitChars_toString (n : Nat) : Nat.ofDigitChars 10 (toString n).toList 0 = n := by
  rw [show (toString n).toList = Nat.toDigits 10 n from Nat.toList_repr]
  exact Nat.ofDigitChars_ten_toDigits

theorem digitValue?_of_isDigit (h : c.isDigit = true) :
    digitValue? 10 c = some (c.toNat - '0'.toNat) := by
  have hc : '0' ≤ c ∧ c ≤ '9' := by
    rw [Char.isDigit, Bool.and_eq_true, decide_eq_true_eq, decide_eq_true_eq] at h
    exact h
  have hle : c.toNat ≤ 57 := hc.2
  simp only [digitValue?, if_pos hc, Option.filter_some]
  rw [if_pos (by simp only [decide_eq_true_eq]; show c.toNat - 48 < 10; omega)]

theorem natOfDigits?_eq (hne : cs ≠ []) (h : ∀ c ∈ cs, c.isDigit = true) :
    natOfDigits? 10 cs = some (Nat.ofDigitChars 10 cs 0) := by
  have hvalues : ∀ {cs : List Char}, (∀ c ∈ cs, c.isDigit = true) →
      cs.mapM (digitValue? 10) = some (cs.map fun c => c.toNat - '0'.toNat) := by
    intro cs h
    induction cs with
    | nil => rfl
    | cons c cs ih =>
      rw [mapM_cons, digitValue?_of_isDigit (h c mem_cons_self),
        ih fun d hd => h d (mem_cons_of_mem c hd)]
      rfl
  have hfalse : cs.isEmpty = false := by
    rw [isEmpty_eq_false_iff]
    exact hne
  rw [natOfDigits?, hfalse, hvalues h, if_neg Bool.false_ne_true, Option.map_some,
    ofDigits, foldl_map, Nat.ofDigitChars]

theorem isDigit_of_digitValue? (h : digitValue? 10 c = some n) : c.isDigit = true := by
  rw [digitValue?, Option.filter_eq_some_iff] at h
  obtain ⟨h, hn⟩ := h
  rw [Char.isDigit, Bool.and_eq_true, decide_eq_true_eq, decide_eq_true_eq]
  split at h
  · next hc => exact hc
  · exfalso
    split at h
    · cases h
      simp at hn
    · split at h
      · cases h
        simp at hn
      · cases h

theorem isDigit_of_mapM : ∀ {cs : List Char} {ns : List Nat},
    cs.mapM (digitValue? 10) = some ns → ∀ c ∈ cs, c.isDigit = true
  | [], _, _ => nofun
  | c :: cs, ns, h => by
    rw [mapM_cons] at h
    obtain ⟨value, hvalue, h⟩ := Option.bind_eq_some_iff.1 h
    obtain ⟨rest, hrest, -⟩ := Option.bind_eq_some_iff.1 h
    exact forall_mem_cons.2 ⟨isDigit_of_digitValue? hvalue, isDigit_of_mapM hrest⟩

/-- A number is written with one or more digits, and has the value of these. -/
theorem natOfDigits?_eq_some_iff : natOfDigits? 10 cs = some n ↔
    cs ≠ [] ∧ (∀ c ∈ cs, c.isDigit = true) ∧ n = Nat.ofDigitChars 10 cs 0 := by
  constructor
  · intro h
    have hne : cs ≠ [] := by
      rintro rfl
      cases h
    have hd : ∀ c ∈ cs, c.isDigit = true := by
      rw [natOfDigits?, if_neg (by simpa using hne)] at h
      obtain ⟨ns, hns, -⟩ := Option.map_eq_some_iff.1 h
      exact isDigit_of_mapM hns
    rw [natOfDigits?_eq hne hd] at h
    exact ⟨hne, hd, (Option.some.inj h).symm⟩
  · rintro ⟨hne, hd, rfl⟩
    exact natOfDigits?_eq hne hd

/-- Digits, perhaps behind a plus sign, that write a number of 64 bits. -/
def WritesWord (cs : List Char) (n : Nat) : Prop :=
  ∃ ds, (cs = ds ∨ cs = '+' :: ds) ∧ ds ≠ [] ∧ (∀ d ∈ ds, d.isDigit = true) ∧
    n = Nat.ofDigitChars 10 ds 0 ∧ n < 2 ^ 64

theorem word64OfDigits?_eq_some_iff : word64OfDigits? cs = some n ↔ WritesWord cs n := by
  unfold word64OfDigits?
  rw [Option.filter_eq_some_iff, decide_eq_true_iff, natOfDigits?_eq_some_iff]
  split
  · next rest =>
    constructor
    · rintro ⟨⟨hne, hd, hn⟩, hlt⟩
      exact ⟨rest, .inr rfl, hne, hd, hn, hlt⟩
    · rintro ⟨ds, rfl | hds, hne, hd, hn, hlt⟩
      · exact absurd (hd '+' mem_cons_self) (by decide)
      · cases hds
        exact ⟨⟨hne, hd, hn⟩, hlt⟩
  · next hplus =>
    constructor
    · rintro ⟨⟨hne, hd, hn⟩, hlt⟩
      exact ⟨cs, .inl rfl, hne, hd, hn, hlt⟩
    · rintro ⟨ds, rfl | rfl, hne, hd, hn, hlt⟩
      · exact ⟨⟨hne, hd, hn⟩, hlt⟩
      · exact absurd rfl (hplus ds)

theorem takeSign_of_isDigit (hc : c.isDigit = true) (cs : List Char) :
    takeSign (c :: cs) = (false, c :: cs) := by
  unfold takeSign
  split
  · rename_i h
    cases h
    exact absurd hc (by decide)
  · rename_i h
    cases h
    exact absurd hc (by decide)
  · rfl

/-! ### Texts of numbers -/

section

variable {style : Style} {m n : Nat} {p q : Int}

/-- The digits of a number, and the power of ten of the last one. -/
def digitsOf (tie : Tie) (m : Nat) (q : Int) : List Char × Int :=
  if m = 0 then (['0'], 0)
  else
    let (c, k) := Neighbourhood.shortest tie ⟨m, q⟩
    ((toString c).toList, k)

theorem toList_text (hs : ∀ point, style.positional point = true) :
    ((Binary64.finite false m q).text style).toList
      = positionalText (digitsOf style.tie m q).1
          ((digitsOf style.tie m q).1.length + (digitsOf style.tie m q).2) := by
  rw [Binary64.text, digitsOf]
  simp only [hs, if_true, Bool.false_eq_true, if_false, String.toList_ofList]

/-- A number in normal form is written as a decimal that rounds to it. -/
theorem decimal_text (hs : ∀ point, style.positional point = true) (h : Normal m q) :
    ∃ x, Decimal ((Binary64.finite false m q).text style).toList x ∧
      (m = 0 ∧ x = 0 ∨ 0 < x ∧ Neighbourhood.Covers ⟨m, q⟩ x) := by
  rw [toList_text hs, digitsOf]
  split
  · rename_i hm
    exact ⟨_, decimal_positionalText (by simp) 0 (by simp), .inl ⟨hm, by simp [Nat.ofDigitChars_cons]⟩⟩
  · obtain ⟨hpos, hc⟩ := Neighbourhood.covers_shortest (v := ⟨m, q⟩) style.tie h
    dsimp only
    generalize Neighbourhood.shortest style.tie ⟨m, q⟩ = r at hpos hc ⊢
    refine ⟨_, decimal_positionalText (isDigit_toString r.1) r.2 (toString_ne_nil r.1), .inr ?_⟩
    rw [ofDigitChars_toString]
    have : (0 : ℚ) < r.1 := by exact_mod_cast hpos
    exact ⟨by positivity, hc⟩

/-- Different numbers have different texts. -/
theorem text_inj (hs : ∀ point, style.positional point = true) (hm : Normal m q) (hn : Normal n p)
    (h : (Binary64.finite false m q).text style = (Binary64.finite false n p).text style) :
    m = n ∧ q = p := by
  obtain ⟨x, hx, hcx⟩ := decimal_text hs hm
  obtain ⟨y, hy, hcy⟩ := decimal_text hs hn
  obtain rfl := hx.unique (h ▸ hy)
  rcases hcx with ⟨rfl, rfl⟩ | ⟨hpos, hcx⟩
  · rcases hcy with ⟨rfl, -⟩ | ⟨hpos, -⟩
    · have hm := hm.full
      have hn := hn.full
      exact ⟨rfl, by omega⟩
    · exact absurd hpos (lt_irrefl _)
  · rcases hcy with ⟨-, rfl⟩ | ⟨-, hcy⟩
    · exact absurd hpos (lt_irrefl _)
    · cases hcx.unique hm hn hcy
      exact ⟨rfl, rfl⟩

end

end RowAwk.Number

/-! ### Constants -/

namespace RowAwk.Awk.Const

open Number (Binary64 Normal)

/-- The constants that sources write. -/
inductive Written : Const → Prop
  | nat (n : Nat) : Written (.int n)
  | real {m : Nat} {q : Int} : Normal m q → Written (.float (.finite false m q))
  | infinite : Written (.float (.infinite false))
  | str (s : String) : Written (.str s)
  | bool (b : Bool) : Written (.bool b)

/-- The constant with truth values as numbers. -/
def plain : Const → Const
  | .bool b => .int (if b then 1 else 0)
  | c => c

/-- Whether a constant is written with digits. -/
def isNumeral : Const → Bool
  | .int _ | .bool _ => true
  | .float x => x.isFinite
  | .str _ => false

/-- A text of digits and points that starts with a digit. -/
def Numeral (cs : List Char) : Prop :=
  (∀ c ∈ cs, c.isDigit = true ∨ c = '.') ∧ ∃ c rest, cs = c :: rest ∧ c.isDigit = true

theorem numeral_toString (n : Nat) : Numeral (toString n).toList := by
  refine ⟨fun c hc => .inl (Number.isDigit_toString n c hc), ?_⟩
  obtain ⟨c, rest, h⟩ := exists_cons_of_ne_nil (Number.toString_ne_nil n)
  exact ⟨c, rest, h, Number.isDigit_toString n c (h ▸ mem_cons_self)⟩

theorem positional_numberStyle (point : Int) : numberStyle.positional point = true := rfl

theorem numeral_decimal {cs : List Char} {x : ℚ} (h : Number.Decimal cs x) : Numeral cs := by
  obtain ⟨whole, fraction, rfl, hne, hw, hf, -⟩ := h
  constructor
  · intro c hc
    rcases mem_append.1 hc with hc | hc
    · exact .inl (hw c hc)
    · rcases mem_cons.1 hc with rfl | hc
      · exact .inr rfl
      · exact .inl (hf c hc)
  · obtain ⟨c, rest, rfl⟩ := exists_cons_of_ne_nil hne
    exact ⟨c, rest ++ '.' :: fraction, rfl, hw c mem_cons_self⟩

/-- Numerals write a whole number, which truth values are too, or one with a fraction. -/
theorem Written.nat_or_real {c : Const} (h : c.Written) (hn : c.isNumeral = true) :
    (∃ n : Nat, c.plain = .int n ∧ c.text.toList = (toString n).toList) ∨
      ∃ m q, c = .float (.finite false m q) ∧ Normal m q := by
  cases h with
  | nat n => exact .inl ⟨n, rfl, rfl⟩
  | real hm => exact .inr ⟨_, _, rfl, hm⟩
  | infinite | str => cases hn
  | bool b =>
    cases b
    · exact .inl ⟨0, rfl, rfl⟩
    · exact .inl ⟨1, rfl, rfl⟩

theorem decimal_float {m : Nat} {q : Int} (hm : Normal m q) :
    ∃ x, Number.Decimal (Const.float (.finite false m q)).text.toList x := by
  obtain ⟨x, hx, -⟩ := Number.decimal_text positional_numberStyle hm
  exact ⟨x, hx⟩

theorem Written.numeral {c : Const} (h : c.Written) (hn : c.isNumeral = true) :
    Numeral c.text.toList := by
  rcases h.nat_or_real hn with ⟨n, -, ht⟩ | ⟨m, q, rfl, hm⟩
  · rw [ht]
    exact numeral_toString n
  · obtain ⟨x, hx⟩ := decimal_float hm
    exact numeral_decimal hx

theorem not_decimal_toString {n : Nat} {x : ℚ} : ¬ Number.Decimal (toString n).toList x := by
  rintro ⟨whole, fraction, h, -⟩
  have := Number.isDigit_toString n '.' (h ▸ by simp)
  exact absurd this (by decide)

/-- Numerals with one text are one number. -/
theorem Written.plain_eq {a b : Const} (ha : a.Written) (hb : b.Written)
    (hna : a.isNumeral = true) (hnb : b.isNumeral = true) (h : a.text = b.text) :
    a.plain = b.plain := by
  rcases ha.nat_or_real hna with ⟨n, hpa, hta⟩ | ⟨m, q, rfl, hm⟩
  · rcases hb.nat_or_real hnb with ⟨n', hpb, htb⟩ | ⟨m, q, rfl, hm⟩
    · have hn : n = n' := by
        rw [← Number.ofDigitChars_toString n, ← hta, h, htb, Number.ofDigitChars_toString]
      rw [hpa, hpb, hn]
    · obtain ⟨x, hx⟩ := decimal_float hm
      rw [← h, hta] at hx
      exact absurd hx not_decimal_toString
  · rcases hb.nat_or_real hnb with ⟨n', hpb, htb⟩ | ⟨m', q', rfl, hm'⟩
    · obtain ⟨x, hx⟩ := decimal_float hm
      rw [h, htb] at hx
      exact absurd hx not_decimal_toString
    · obtain ⟨rfl, rfl⟩ := Number.text_inj positional_numberStyle hm hm' h
      rfl

end RowAwk.Awk.Const

/-! ### Literals -/

namespace RowAwk.Compile.Lowering

open Awk (Const)
open Number (Binary64 Normal)
open Syntax (Literal)

theorem written_ofDecimal (significand digits : Nat) (e : Int) :
    (Const.float (Binary64.ofDecimal false significand digits e)).Written := by
  rw [Binary64.ofDecimal]
  split
  · exact .real Number.normal_zero
  split
  · exact .infinite
  split
  · exact .real Number.normal_zero
  · have hten : 0 < (10 : Nat) := by decide
    have hdown := (Number.powRatio_pos hten e).2.ne'
    dsimp only
    rcases Number.ofRatio_cases false hdown with h | ⟨m, q, hm, h⟩
    · rw [h]
      exact .infinite
    · rw [h]
      exact .real hm

variable {cs : List Char}

theorem written_ofNumeral? {x : Binary64} (h : Binary64.ofNumeral? false cs = some x) :
    (Const.float x).Written := by
  obtain ⟨significand, -, h⟩ := Option.bind_eq_some_iff.1 h
  obtain ⟨exponent, -, h⟩ := Option.bind_eq_some_iff.1 h
  cases h
  exact written_ofDecimal _ _ _

/-- A text that starts with a digit has no sign and is no word. -/
theorem ofText?_of_isDigit {text : String} {c : Char} (ht : text.toList = c :: cs)
    (hc : c.isDigit = true) : Binary64.ofText? text = Binary64.ofNumeral? false (c :: cs) := by
  have hlower : c.toLower = c := by
    unfold Char.toLower
    refine dif_neg fun h => ?_
    simp only [Char.isDigit, Bool.and_eq_true, decide_eq_true_eq] at hc
    exact absurd (UInt32.le_trans h.1 hc.2) (by decide)
  have hword (w : List Char) (hw : w.head?.any Char.isDigit = false) :
      c.toLower :: cs.map Char.toLower ≠ w := by
    rintro rfl
    rw [List.head?_cons, Option.any_some, hlower, hc] at hw
    cases hw
  rw [Binary64.ofText?, ht, Number.takeSign_of_isDigit hc]
  dsimp only
  rw [map_cons, if_neg, if_neg]
  · exact hword _ (by decide +kernel)
  · rw [not_or]
    exact ⟨hword _ (by decide +kernel), hword _ (by decide +kernel)⟩

/-- Sources write these constants only. -/
theorem written_constant? {v : Literal} {c : Const} (hv : v.Spelt) (h : constant? v = some c) :
    c.Written := by
  cases v with
  | bool b =>
    cases h
    exact .bool b
  | string s =>
    cases h
    exact .str s
  | number spelling =>
    obtain ⟨d, ds, hs, hd⟩ := hv
    rw [constant?] at h
    split at h
    · cases h
      exact .nat _
    · rw [ofText?_of_isDigit hs hd] at h
      obtain ⟨x, hx, rfl⟩ := Option.map_eq_some_iff.1 h
      exact written_ofNumeral? hx

end RowAwk.Compile.Lowering
