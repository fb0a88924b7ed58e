import Mathlib.Algebra.Order.Field.Power
import Mathlib.Data.Rat.Cast.Order
import Mathlib.Tactic.FieldSimp
import Mathlib.Tactic.Linarith
import Mathlib.Tactic.NormNum
import Mathlib.Tactic.Positivity
import Mathlib.Tactic.Ring
import RowAwk.Number.Shortest

/-!
Numbers, the intervals that round to them, and the decimals in these intervals.

A number `m · 2 ^ q` in normal form stands for an interval of reals, whose ends belong to it if `m`
is even. Intervals of different numbers are disjoint: where two of them meet, one mantissa is odd.

       m even             m + 1 odd            m + 2 even
    [────┼────]          (────┼────)          [────┼────]

The shortest decimal of a number lies in its interval, so it belongs to no other number. Behind the
interval of the greatest number lies what rounds to none.
-/

namespace RowAwk.Number

open Binary64

/-! ### Powers -/

theorem powRatio_div (base : Nat) (e : Int) :
    ((powRatio base e).1 : ℚ) / (powRatio base e).2 = (base : ℚ) ^ e := by
  obtain ⟨n, rfl | rfl⟩ := e.eq_nat_or_neg
  · simp [powRatio]
  · simp [powRatio]

theorem powRatio_pos {base : Nat} (hb : 0 < base) (e : Int) :
    0 < (powRatio base e).1 ∧ 0 < (powRatio base e).2 :=
  ⟨Nat.pow_pos hb, Nat.pow_pos hb⟩

/-- Quotients with powers on both sides, cleared of denominators. -/
theorem powRatio_le_iff {b c : Nat} (hb : 0 < b) (hc : 0 < c) (d e : Int) (x y : Nat) :
    x * ((powRatio b d).1 * (powRatio c e).2) ≤ y * ((powRatio b d).2 * (powRatio c e).1) ↔
      (x : ℚ) * (b : ℚ) ^ d ≤ y * (c : ℚ) ^ e := by
  have hd : (0 : ℚ) < (powRatio b d).2 := by exact_mod_cast (powRatio_pos hb d).2
  have he : (0 : ℚ) < (powRatio c e).2 := by exact_mod_cast (powRatio_pos hc e).2
  rw [← powRatio_div b, ← powRatio_div c, mul_div_assoc', mul_div_assoc', div_le_div_iff₀ hd he,
    ← Nat.cast_le (α := ℚ)]
  push_cast
  constructor <;> intro h <;> linarith

theorem powRatio_lt_iff {b c : Nat} (hb : 0 < b) (hc : 0 < c) (d e : Int) (x y : Nat) :
    x * ((powRatio b d).1 * (powRatio c e).2) < y * ((powRatio b d).2 * (powRatio c e).1) ↔
      (x : ℚ) * (b : ℚ) ^ d < y * (c : ℚ) ^ e := by
  have h := powRatio_le_iff hc hb e d y x
  rw [Nat.mul_comm (powRatio c e).1, Nat.mul_comm (powRatio c e).2] at h
  rw [← not_le, ← not_le, h]

/-! ### Intervals -/

/-- A number in normal form: 53 bits, or fewer at the least exponent. -/
structure Normal (mantissa : Nat) (exponent : Int) : Prop where
  bits : mantissa < 2 ^ 53
  full : 2 ^ 52 ≤ mantissa ∨ exponent = leastExponent
  least : leastExponent ≤ exponent
  greatest : exponent ≤ greatestExponent

theorem normal_zero : Normal 0 leastExponent :=
  ⟨by decide, .inr rfl, le_rfl, by decide⟩

namespace Neighbourhood

/-- A quarter of the last place. -/
def quarter (v : Neighbourhood) : ℚ := 2 ^ (v.exponent - 2)

/-- The numbers that round to `v`. -/
def Covers (v : Neighbourhood) (x : ℚ) : Prop :=
  if v.mantissa % 2 = 0 then v.lower * v.quarter ≤ x ∧ x ≤ v.upper * v.quarter
  else v.lower * v.quarter < x ∧ x < v.upper * v.quarter

variable {v w : Neighbourhood} {x : ℚ} {k : Int} {c n : Nat}

theorem quarter_pos (v : Neighbourhood) : 0 < v.quarter := zpow_pos two_pos _

theorem le_scales_iff :
    n * (v.scales k).1 ≤ c * (v.scales k).2 ↔ (n : ℚ) * v.quarter ≤ c * 10 ^ k :=
  powRatio_le_iff two_pos (by decide) _ k n c

theorem lt_scales_iff :
    n * (v.scales k).1 < c * (v.scales k).2 ↔ (n : ℚ) * v.quarter < c * 10 ^ k :=
  powRatio_lt_iff two_pos (by decide) _ k n c

theorem scales_le_iff :
    c * (v.scales k).2 ≤ n * (v.scales k).1 ↔ (c : ℚ) * 10 ^ k ≤ n * v.quarter := by
  rw [← not_lt, ← not_lt, lt_scales_iff]

theorem scales_lt_iff :
    c * (v.scales k).2 < n * (v.scales k).1 ↔ (c : ℚ) * 10 ^ k < n * v.quarter := by
  rw [← not_le, ← not_le, le_scales_iff]

theorem holds_iff : v.holds k c = true ↔ v.Covers (c * 10 ^ k) := by
  rw [holds, Covers]
  dsimp only
  split
  · rw [Bool.and_eq_true, decide_eq_true_iff, decide_eq_true_iff, le_scales_iff, scales_le_iff]
  · rw [Bool.and_eq_true, decide_eq_true_iff, decide_eq_true_iff, lt_scales_iff, scales_lt_iff]

theorem Covers.lower_le (h : v.Covers x) : v.lower * v.quarter ≤ x := by
  rw [Covers] at h
  split at h
  · exact h.1
  · exact h.1.le

theorem Covers.le_upper (h : v.Covers x) : x ≤ v.upper * v.quarter := by
  rw [Covers] at h
  split at h
  · exact h.2
  · exact h.2.le

theorem Covers.lt_upper (h : v.Covers x) (hodd : v.mantissa % 2 = 1) : x < v.upper * v.quarter := by
  rw [Covers, if_neg (by omega)] at h
  exact h.2

theorem Covers.lower_lt (h : v.Covers x) (hodd : v.mantissa % 2 = 1) : v.lower * v.quarter < x := by
  rw [Covers, if_neg (by omega)] at h
  exact h.1

/-! ### Intervals are disjoint -/

/-- The lower end where a smaller mantissa has the same exponent. -/
theorem lower_eq (hv : Normal v.mantissa v.exponent) (he : v.exponent = w.exponent)
    (hm : v.mantissa < w.mantissa) : w.lower = 4 * w.mantissa - 2 := by
  rw [lower, if_neg]
  rintro ⟨hpow, hexp⟩
  have hfull := hv.full
  have : Nat.pow 2 52 = 2 ^ 52 := rfl
  omega

/-- At one exponent a greater mantissa has its interval behind. -/
theorem Covers.not_of_mantissa_lt (hv : Normal v.mantissa v.exponent)
    (he : v.exponent = w.exponent) (hm : v.mantissa < w.mantissa) (hx : v.Covers x) :
    ¬ w.Covers x := by
  intro hy
  have hl := lower_eq hv he hm
  have hq : v.quarter = w.quarter := by rw [quarter, quarter, he]
  have hend : (v.upper : ℚ) * v.quarter ≤ w.lower * w.quarter := by
    have hle : v.upper ≤ w.lower := by rw [hl, upper]; omega
    rw [hq]
    exact mul_le_mul_of_nonneg_right (by exact_mod_cast hle) w.quarter_pos.le
  rcases Nat.mod_two_eq_zero_or_one v.mantissa with hev | hodd
  · rcases Nat.mod_two_eq_zero_or_one w.mantissa with hev' | hodd'
    · -- both ends are closed, but then an odd mantissa lies between
      have hlt : v.upper < w.lower := by rw [hl, upper]; omega
      have hlt : (v.upper : ℚ) * v.quarter < w.lower * w.quarter := by
        rw [hq]
        exact mul_lt_mul_of_pos_right (by exact_mod_cast hlt) w.quarter_pos
      linarith [hx.le_upper, hy.lower_le]
    · linarith [hx.le_upper, hy.lower_lt hodd']
  · linarith [hx.lt_upper hodd, hy.lower_le]

theorem two_mul_quarter_le (h : v.exponent < w.exponent) : 2 * v.quarter ≤ w.quarter := by
  have hpow : (2 : ℚ) ^ (v.exponent - 1) ≤ 2 ^ (w.exponent - 2) :=
    zpow_le_zpow_right₀ one_le_two (by omega)
  rw [quarter, quarter]
  calc (2 : ℚ) * 2 ^ (v.exponent - 2) = 2 ^ (v.exponent - 1) := by
        rw [show v.exponent - 1 = (v.exponent - 2) + 1 by omega, zpow_add_one₀ two_ne_zero, mul_comm]
    _ ≤ 2 ^ (w.exponent - 2) := hpow

/-- Above the least exponent, intervals start high. -/
theorem le_lower (hw : Normal w.mantissa w.exponent) (he : leastExponent < w.exponent) :
    2 ^ 54 ≤ w.lower + 1 := by
  have hfull := hw.full
  have : Nat.pow 2 52 = 2 ^ 52 := rfl
  rw [lower]
  split <;> omega

/-- A greater exponent has its interval behind. -/
theorem Covers.not_of_exponent_lt (hv : Normal v.mantissa v.exponent)
    (hw : Normal w.mantissa w.exponent) (he : v.exponent < w.exponent) (hx : v.Covers x) :
    ¬ w.Covers x := by
  intro hy
  have hlow : ((2 : ℚ) ^ 54 - 1) * (2 * v.quarter) ≤ w.lower * w.quarter := by
    have hl := le_lower hw (lt_of_le_of_lt hv.least he)
    have hl : (2 : ℚ) ^ 54 ≤ w.lower + 1 := by exact_mod_cast hl
    exact mul_le_mul (by linarith) (two_mul_quarter_le he) (by linarith [v.quarter_pos])
      (by linarith)
  have hq := v.quarter_pos
  have hbits := hv.bits
  have hup : (v.upper : ℚ) = 4 * v.mantissa + 2 := by rw [upper]; push_cast; ring
  rcases Nat.mod_two_eq_zero_or_one v.mantissa with hev | hodd
  · -- an even mantissa is not the greatest one
    have hm : (v.mantissa : ℚ) + 2 ≤ 2 ^ 53 := by
      have : v.mantissa + 2 ≤ 2 ^ 53 := by omega
      exact_mod_cast this
    have := hx.le_upper
    rw [hup] at this
    nlinarith [hy.lower_le]
  · have hm : (v.mantissa : ℚ) + 1 ≤ 2 ^ 53 := by
      have : v.mantissa + 1 ≤ 2 ^ 53 := by omega
      exact_mod_cast this
    have := hx.lt_upper hodd
    rw [hup] at this
    nlinarith [hy.lower_le]

/-- No number rounds to two. -/
theorem Covers.unique (hv : Normal v.mantissa v.exponent) (hw : Normal w.mantissa w.exponent)
    (hx : v.Covers x) (hy : w.Covers x) : v = w := by
  obtain ⟨m, q⟩ := v
  obtain ⟨n, r⟩ := w
  rcases lt_trichotomy q r with he | rfl | he
  · exact absurd hy (hx.not_of_exponent_lt hv hw he)
  · rcases lt_trichotomy m n with hm | rfl | hm
    · exact absurd hy (hx.not_of_mantissa_lt hv rfl hm)
    · rfl
    · exact absurd hx (hy.not_of_mantissa_lt hw rfl hm)
  · exact absurd hx (hy.not_of_exponent_lt hw hv he)

/-! ### The shortest decimal is in the interval -/

theorem floor_le : (v.floor k : ℚ) * 10 ^ k ≤ (4 * v.mantissa : Nat) * v.quarter :=
  scales_le_iff.1 (Nat.div_mul_le_self _ _)

theorem lt_floor_add_one :
    ((4 * v.mantissa : Nat) : ℚ) * v.quarter < (v.floor k + 1 : Nat) * 10 ^ k := by
  have hten : 0 < (10 : Nat) := by decide
  have hpos : 0 < (v.scales k).2 :=
    Nat.mul_pos (powRatio_pos two_pos _).2 (powRatio_pos hten k).1
  refine lt_scales_iff.1 ?_
  rw [Nat.mul_comm (v.floor k + 1)]
  exact Nat.lt_mul_div_succ _ hpos

/-- On a grid that is fine enough, the point above the number is in the interval. -/
theorem covers_floor_add_one (h : (10 : ℚ) ^ k < 2 * v.quarter) :
    v.Covers ((v.floor k + 1 : Nat) * 10 ^ k) := by
  have hbelow : (v.lower : ℚ) * v.quarter ≤ (4 * v.mantissa : Nat) * v.quarter := by
    have hle : v.lower ≤ 4 * v.mantissa := by
      rw [lower]
      split <;> omega
    exact mul_le_mul_of_nonneg_right (by exact_mod_cast hle) v.quarter_pos.le
  have hlow : (v.lower : ℚ) * v.quarter < (v.floor k + 1 : Nat) * 10 ^ k :=
    lt_of_le_of_lt hbelow lt_floor_add_one
  have hup : ((v.floor k + 1 : Nat) : ℚ) * 10 ^ k < v.upper * v.quarter := by
    have hfloor := floor_le (v := v) (k := k)
    rw [upper]
    push_cast at hfloor ⊢
    linarith
  rw [Covers]
  split
  · exact ⟨hlow.le, hup.le⟩
  · exact ⟨hlow, hup⟩

theorem nearer_cases (tie : Tie) : v.nearer tie k = v.floor k ∨ v.nearer tie k = v.floor k + 1 := by
  rw [nearer]
  dsimp only
  split
  · exact .inl rfl
  split
  · exact .inr rfl
  cases tie with
  | up => exact .inr rfl
  | toEven =>
    dsimp only
    split
    · exact .inl rfl
    · exact .inr rfl

/-- What is found on a grid is in the interval. -/
theorem covers_of_pointOn? {tie : Tie} (h : v.pointOn? tie k = some c) :
    0 < c ∧ v.Covers (c * 10 ^ k) := by
  rw [pointOn?] at h
  cases hf : (decide (0 < v.floor k) && v.holds k (v.floor k)) with
  | true =>
    obtain ⟨hpos, hfloor⟩ := Bool.and_eq_true_iff.1 hf
    rw [decide_eq_true_iff] at hpos
    cases hs : v.holds k (v.floor k + 1) with
    | true =>
      simp only [hf, hs, Option.some.injEq] at h
      subst h
      rcases nearer_cases (v := v) (k := k) tie with hn | hn
      · rw [hn]
        exact ⟨hpos, holds_iff.1 hfloor⟩
      · rw [hn]
        exact ⟨Nat.succ_pos _, holds_iff.1 hs⟩
    | false =>
      simp only [hf, hs, Option.some.injEq] at h
      subst h
      exact ⟨hpos, holds_iff.1 hfloor⟩
  | false =>
    cases hs : v.holds k (v.floor k + 1) with
    | true =>
      simp only [hf, hs, Option.some.injEq] at h
      subst h
      exact ⟨Nat.succ_pos _, holds_iff.1 hs⟩
    | false => simp only [hf, hs, reduceCtorEq] at h

theorem pointOn?_isSome (tie : Tie) (h : (10 : ℚ) ^ k < 2 * v.quarter) :
    (v.pointOn? tie k).isSome = true := by
  have hs := holds_iff.2 (covers_floor_add_one h)
  rw [pointOn?]
  cases (decide (0 < v.floor k) && v.holds k (v.floor k)) with
  | true | false => simp only [hs, Option.isSome_some]

/-- The search ends on a grid with a point, if there is one among those it looks at. -/
theorem pointOn?_search (tie : Tie) : ∀ {steps j : Nat} {k : Int}, j < steps →
    (v.pointOn? tie (k - j)).isSome = true →
      v.pointOn? tie (v.search tie steps k).2 = some (v.search tie steps k).1
  | 0, _, _, hj, _ => absurd hj (Nat.not_lt_zero _)
  | steps + 1, j, k, hj, h => by
    rw [search]
    cases hk : v.pointOn? tie k with
    | some c => exact hk
    | none =>
      cases j with
      | zero =>
        rw [Nat.cast_zero, sub_zero, hk] at h
        cases h
      | succ j =>
        refine pointOn?_search tie (Nat.lt_of_succ_lt_succ hj) ?_
        rwa [show k - 1 - (j : Int) = k - (j + 1 : Nat) by push_cast; ring]

/-- The last grid that is looked at is finer than half the last place. -/
theorem ten_zpow_lt (hv : Normal v.mantissa v.exponent) :
    (10 : ℚ) ^ ((((v.mantissa.log2 : Int) + 1 + v.exponent) * 30103 / 100000 + 2) - 23)
      < 2 * v.quarter := by
  have hlog : v.mantissa.log2 ≤ 52 := by
    rcases Nat.eq_zero_or_pos v.mantissa with h | h
    · rw [h]
      decide
    · have := (Nat.log2_lt h.ne').2 hv.bits
      omega
  have hleast : -1074 ≤ v.exponent := hv.least
  have hgreat : v.exponent ≤ 971 := hv.greatest
  have hhalf : 2 * v.quarter = 2 ^ (v.exponent - 1) := by
    rw [quarter, show v.exponent - 1 = (v.exponent - 2) + 1 by omega, zpow_add_one₀ two_ne_zero,
      mul_comm]
  rw [hhalf]
  generalize hk : (((v.mantissa.log2 : Int) + 1 + v.exponent) * 30103 / 100000 + 2) - 23 = k
  -- ten is a little less than `2 ^ (10 / 3)` and a little more than `2 ^ (93 / 28)`
  rcases le_or_gt 0 k with hpos | hneg
  · refine lt_of_pow_lt_pow_left₀ 3 (by positivity) ?_
    calc ((10 : ℚ) ^ k) ^ 3 = (10 ^ 3) ^ k := by rw [← zpow_natCast, zpow_comm, zpow_natCast]
      _ ≤ (2 ^ 10) ^ k := zpow_le_zpow_left₀ hpos (by norm_num) (by norm_num)
      _ = 2 ^ (10 * k) := by rw [zpow_mul]; norm_num
      _ < 2 ^ ((v.exponent - 1) * 3) := zpow_lt_zpow_right₀ one_lt_two (by omega)
      _ = (2 ^ (v.exponent - 1)) ^ 3 := by rw [zpow_mul]; norm_num
  · refine lt_of_pow_lt_pow_left₀ 28 (by positivity) ?_
    have hinv : ((10 : ℚ) ^ 28) ^ k ≤ (2 ^ 93) ^ k := by
      obtain ⟨n, hn⟩ := Int.eq_ofNat_of_zero_le (by omega : 0 ≤ -k)
      rw [show k = -(n : Int) by omega, zpow_neg, zpow_neg, zpow_natCast, zpow_natCast]
      exact inv_anti₀ (by positivity) (pow_le_pow_left₀ (by norm_num) (by norm_num) n)
    calc ((10 : ℚ) ^ k) ^ 28 = (10 ^ 28) ^ k := by rw [← zpow_natCast, zpow_comm, zpow_natCast]
      _ ≤ (2 ^ 93) ^ k := hinv
      _ = 2 ^ (93 * k) := by rw [zpow_mul]; norm_num
      _ < 2 ^ ((v.exponent - 1) * 28) := zpow_lt_zpow_right₀ one_lt_two (by omega)
      _ = (2 ^ (v.exponent - 1)) ^ 28 := by rw [zpow_mul]; norm_num

/-- The shortest decimal of a number rounds to it. -/
theorem covers_shortest (tie : Tie) (hv : Normal v.mantissa v.exponent) :
    0 < (v.shortest tie).1 ∧ v.Covers ((v.shortest tie).1 * 10 ^ (v.shortest tie).2) := by
  have hlast := pointOn?_isSome tie (ten_zpow_lt hv)
  exact covers_of_pointOn? (pointOn?_search tie (show 23 < 24 by decide) hlast)

end Neighbourhood

/-! ### Rounding gives normal forms -/

section

variable {num den : Nat} {e : Int}

theorem lt_quotient_iff (hd : 0 < den) (n : Nat) :
    num * (powRatio 2 e).2 / (den * (powRatio 2 e).1) < n ↔ (num : ℚ) < n * (den * 2 ^ e) := by
  obtain ⟨hup, hdown⟩ := powRatio_pos two_pos e
  have hdown' : (0 : ℚ) < (powRatio 2 e).2 := by exact_mod_cast hdown
  have hpow : (2 : ℚ) ^ e = (powRatio 2 e).1 / (powRatio 2 e).2 := (powRatio_div 2 e).symm
  rw [Nat.div_lt_iff_lt_mul (Nat.mul_pos hd hup), ← Nat.cast_lt (α := ℚ), hpow, mul_div_assoc',
    mul_div_assoc', lt_div_iff₀ hdown']
  push_cast
  exact Iff.rfl

theorem le_quotient_iff (hd : 0 < den) (n : Nat) :
    n ≤ num * (powRatio 2 e).2 / (den * (powRatio 2 e).1) ↔ n * (den * 2 ^ e) ≤ (num : ℚ) := by
  rw [← not_lt, ← not_lt, lt_quotient_iff hd]

theorem quotient_le_roundDiv (n d : Nat) : n / d ≤ roundDiv n d ∧ roundDiv n d ≤ n / d + 1 := by
  rw [roundDiv]
  split <;> omega

/-- The logarithms place a quotient between two powers. -/
theorem quotient_bounds (hn : num ≠ 0) (hd : den ≠ 0) :
    (2 : ℚ) ^ ((num.log2 : Int) - den.log2 - 1) * den ≤ num ∧
      (num : ℚ) < 2 ^ ((num.log2 : Int) - den.log2 + 1) * den := by
  have hnum : (2 : ℚ) ^ (num.log2 : Int) ≤ num := by
    rw [zpow_natCast]
    exact_mod_cast Nat.log2_self_le hn
  have hnum' : (num : ℚ) < 2 ^ ((num.log2 : Int) + 1) := by
    have := Nat.lt_log2_self (n := num)
    exact_mod_cast this
  have hden : (2 : ℚ) ^ (den.log2 : Int) ≤ den := by
    rw [zpow_natCast]
    exact_mod_cast Nat.log2_self_le hd
  have hden' : (den : ℚ) ≤ 2 ^ ((den.log2 : Int) + 1) := by
    have := (Nat.lt_log2_self (n := den)).le
    exact_mod_cast this
  constructor
  · calc (2 : ℚ) ^ ((num.log2 : Int) - den.log2 - 1) * den
        ≤ 2 ^ ((num.log2 : Int) - den.log2 - 1) * 2 ^ ((den.log2 : Int) + 1) :=
          mul_le_mul_of_nonneg_left hden' (by positivity)
      _ = 2 ^ (num.log2 : Int) := by rw [← zpow_add₀ two_ne_zero]; congr 1; ring
      _ ≤ num := hnum
  · calc (num : ℚ) < 2 ^ ((num.log2 : Int) + 1) := hnum'
      _ = 2 ^ ((num.log2 : Int) - den.log2 + 1) * 2 ^ (den.log2 : Int) := by
          rw [← zpow_add₀ two_ne_zero]; congr 1; ring
      _ ≤ 2 ^ ((num.log2 : Int) - den.log2 + 1) * den :=
          mul_le_mul_of_nonneg_left hden (by positivity)

/-- At the exponent for a quotient its whole part has 53 bits, or fewer if that is the least. -/
theorem exponentFor_spec (hn : num ≠ 0) (hd : den ≠ 0) :
    let e := exponentFor num den
    (num : ℚ) < (2 ^ 53 : Nat) * (den * 2 ^ e) ∧ leastExponent ≤ e ∧
      (((2 ^ 52 : Nat) : ℚ) * (den * 2 ^ e) ≤ num ∨ e = leastExponent) := by
  have hpos : 0 < den := Nat.pos_of_ne_zero hd
  obtain ⟨hlow, hup⟩ := quotient_bounds hn hd
  have hden : (0 : ℚ) < den := by exact_mod_cast hpos
  -- the exponent before it is cut off at the least one
  obtain ⟨exact, he, hlt, hge⟩ : ∃ exact : Int,
      exponentFor num den = max exact leastExponent ∧
        (num : ℚ) < (2 ^ 53 : Nat) * (den * 2 ^ exact) ∧
          ((2 ^ 52 : Nat) : ℚ) * (den * 2 ^ exact) ≤ num := by
    have hguess (i : Int) : (2 : ℚ) ^ ((num.log2 : Int) - den.log2 + i)
        = 2 ^ (53 + i) * 2 ^ ((num.log2 : Int) - den.log2 - 53) := by
      rw [← zpow_add₀ two_ne_zero]
      congr 1
      ring
    rw [sub_eq_add_neg, hguess] at hlow
    rw [hguess] at hup
    refine ⟨_, rfl, ?_⟩
    split
    · rename_i h
      rw [zpow_add_one₀ two_ne_zero]
      have h := (le_quotient_iff hpos _).1 h
      push_cast [Nat.pow_eq] at h ⊢
      norm_num at hup h ⊢
      constructor <;> linarith
    · rename_i h
      have h := (lt_quotient_iff hpos _).1 (Nat.lt_of_not_le h)
      push_cast [Nat.pow_eq] at h ⊢
      norm_num at hlow h ⊢
      constructor <;> linarith
  dsimp only
  rw [he]
  rcases le_total exact leastExponent with hle | hle
  · rw [max_eq_right hle]
    refine ⟨lt_of_lt_of_le hlt ?_, le_rfl, .inr rfl⟩
    have : (2 : ℚ) ^ exact ≤ 2 ^ leastExponent := zpow_le_zpow_right₀ one_le_two hle
    gcongr
  · rw [max_eq_left hle]
    exact ⟨hlt, hle, .inl hge⟩

end

/-- A quotient is rounded to a number in normal form, unless it is too large. -/
theorem ofRatio_cases (negative : Bool) {num den : Nat} (hd : den ≠ 0) :
    ofRatio negative num den = .infinite negative ∨
      ∃ m q, Normal m q ∧ ofRatio negative num den = .finite negative m q := by
  rw [ofRatio]
  split
  · exact .inr ⟨0, _, normal_zero, rfl⟩
  · rename_i hn
    obtain ⟨hlt, hleast, hfull⟩ := exponentFor_spec hn hd
    have hpos : 0 < den := Nat.pos_of_ne_zero hd
    dsimp only at hlt hleast hfull ⊢
    generalize exponentFor num den = e at hlt hleast hfull ⊢
    have hbits := (lt_quotient_iff hpos _).2 hlt
    obtain ⟨hge, hle⟩ := quotient_le_roundDiv (num * (powRatio 2 e).2) (den * (powRatio 2 e).1)
    have hfull : 2 ^ 52 ≤ num * (powRatio 2 e).2 / (den * (powRatio 2 e).1) ∨
        e = leastExponent := hfull.imp_left (le_quotient_iff hpos _).2
    generalize roundDiv (num * (powRatio 2 e).2) (den * (powRatio 2 e).1) = r at hge hle ⊢
    have h53 : Nat.pow 2 53 = 2 ^ 53 := rfl
    have h52 : Nat.pow 2 52 = 2 ^ 52 := rfl
    split
    · -- the carry makes one more bit, and the next exponent
      split
      · exact .inl rfl
      · exact .inr ⟨_, _, ⟨by omega, .inl (by omega), by omega, by omega⟩, rfl⟩
    · split
      · exact .inl rfl
      · refine .inr ⟨_, _, ⟨by omega, hfull.imp_left (le_trans · hge), hleast, by omega⟩, rfl⟩

/-! ### Numbers too large -/

/-- Half a step above the greatest number. From there on, decimals round to no number. -/
def Binary64.limit : ℚ := (2 ^ 53 - 1 / 2) * 2 ^ greatestExponent

theorem limit_pos : 0 < limit :=
  mul_pos (by norm_num) (zpow_pos two_pos _)

/-- A quotient below an even number is rounded up to it from the half before it on. -/
theorem roundDiv_eq_iff {n d k : Nat} (hd : 0 < d) (hk : k % 2 = 0) (hq : n / d < k) :
    roundDiv n d = k ↔ (2 * k - 1) * d ≤ 2 * n := by
  have hn : d * (n / d) + n % d = n := Nat.div_add_mod n d
  have hr : n % d < d := Nat.mod_lt n hd
  rw [roundDiv]
  generalize n / d = q at hq hn ⊢
  generalize n % d = r at hn hr ⊢
  subst hn
  rcases Nat.lt_or_ge (q + 1) k with hlt | hge
  · -- there is a whole number between
    have hfar : (2 * q + 3) * d ≤ (2 * k - 1) * d := Nat.mul_le_mul_right d (by omega)
    have hsum : (2 * q + 3) * d = 2 * (d * q) + 3 * d := by ring
    constructor
    · split <;> omega
    · omega
  · obtain rfl : k = q + 1 := by omega
    have hsum : (2 * (q + 1) - 1) * d = 2 * (d * q) + d := by
      rw [show 2 * (q + 1) - 1 = 2 * q + 1 by omega]
      ring
    rw [hsum]
    split <;> omega

section

variable {num den : Nat} {e : Int}

/-- The mantissa that a quotient is rounded to gets one more bit than it may have. -/
theorem roundDiv_eq_two_pow_iff (hd : 0 < den) (hlt : (num : ℚ) < (2 ^ 53 : Nat) * (den * 2 ^ e)) :
    roundDiv (num * (powRatio 2 e).2) (den * (powRatio 2 e).1) = 2 ^ 53 ↔
      (2 ^ 53 - 1 / 2) * (den * 2 ^ e) ≤ (num : ℚ) := by
  obtain ⟨hup, hdown⟩ := powRatio_pos two_pos e
  have hdown' : (0 : ℚ) < (powRatio 2 e).2 := by exact_mod_cast hdown
  have hpow : (2 : ℚ) ^ e = (powRatio 2 e).1 / (powRatio 2 e).2 := (powRatio_div 2 e).symm
  rw [roundDiv_eq_iff (Nat.mul_pos hd hup) (by norm_num) ((lt_quotient_iff hd _).2 hlt),
    ← Nat.cast_le (α := ℚ), hpow, mul_div_assoc', mul_div_assoc', div_le_iff₀ hdown']
  push_cast
  norm_num
  constructor <;> intro h <;> linarith

end

/-- Rounding a quotient gives no number from the limit on, and only then. -/
theorem ofRatio_eq_infinite_iff (negative : Bool) {num den : Nat} (hd : den ≠ 0) :
    ofRatio negative num den = .infinite negative ↔ limit * den ≤ num := by
  have hpos : 0 < den := Nat.pos_of_ne_zero hd
  have hden : (0 : ℚ) < den := by exact_mod_cast hpos
  rw [ofRatio]
  split
  · rename_i h
    rw [h, Nat.cast_zero]
    exact iff_of_false Binary64.noConfusion (not_le.2 (mul_pos limit_pos hden))
  · rename_i hn
    obtain ⟨hlt, -, hfull⟩ := exponentFor_spec hn hd
    dsimp only at hlt hfull ⊢
    generalize exponentFor num den = e at hlt hfull ⊢
    have hhalf := roundDiv_eq_two_pow_iff hpos hlt
    generalize roundDiv (num * (powRatio 2 e).2) (den * (powRatio 2 e).1) = r at hhalf ⊢
    have h53 : Nat.pow 2 53 = 2 ^ 53 := rfl
    have hstep {p q : Int} (h : p < q) : (2 : ℚ) * 2 ^ p ≤ 2 ^ q := by
      rw [mul_comm, ← zpow_add_one₀ two_ne_zero]
      exact zpow_le_zpow_right₀ one_le_two h
    have hgreat : (0 : ℚ) < 2 ^ greatestExponent := zpow_pos two_pos _
    rw [limit, mul_assoc, mul_comm _ (den : ℚ)]
    rcases lt_trichotomy e greatestExponent with he | rfl | he
    · -- one more bit is no matter yet
      refine iff_of_false ?_ (not_le.2 (lt_of_lt_of_le hlt ?_))
      · split
        · rw [if_neg (by omega)]
          exact Binary64.noConfusion
        · rw [if_neg (by omega)]
          exact Binary64.noConfusion
      · have := mul_le_mul_of_nonneg_left (hstep he) hden.le
        push_cast
        nlinarith [mul_pos hden hgreat]
    · rw [← hhalf, ← h53]
      split
      · rename_i hr
        rw [if_pos (by omega)]
        exact iff_of_true rfl hr
      · rename_i hr
        rw [if_neg (by omega)]
        exact iff_of_false Binary64.noConfusion hr
    · refine iff_of_true ?_ ?_
      · split
        · exact if_pos (by omega)
        · rfl
      · have hleast : e ≠ leastExponent := by
          have : leastExponent < greatestExponent := by decide
          omega
        have := mul_le_mul_of_nonneg_left (hstep he) hden.le
        refine le_trans ?_ (hfull.resolve_right hleast)
        push_cast
        nlinarith [mul_pos hden hgreat]

end RowAwk.Number
