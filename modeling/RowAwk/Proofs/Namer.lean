import Mathlib
import RowAwk.Compile.Namer
import RowAwk.Syntax.Name

/-!
The compiler's own names never clash.

No stem starts another one, so a name tells its stem and its number. A namer that has been grown
from the empty one gives different numbers to different keys of a stem, and keeps the number of a
key for good: this is `Sound`, and `nameFor` preserves it.
-/

open List

namespace RowAwk.Compile

/-- The stems of the variables that hold values for the function library. -/
def libraryStems : List String :=
  ["_abs", "_crc32", "_is_in_file", "_map_from_file", "_max", "_min", "_sh", "_spcnt", "_split",
    "_strip", "_uniq"]

/-- All stems: those of the library, and those of keys and accumulators. -/
def stems : List String := libraryStems ++ ["__key", "__row_key", "__grp_", "__acc_"]

/-- Whether a name has the form of a library variable: a stem and digits. -/
def isGenerated (name : String) : Bool :=
  libraryStems.any fun stem =>
    stem.toList.isPrefixOf name.toList &&
      (!(name.toList.drop stem.toList.length).isEmpty &&
        (name.toList.drop stem.toList.length).all Char.isDigit)

/-! ### Names tell their stems -/

variable {a b stem name : String}

theorem stem_eq_of_starts (ha : a ∈ stems) (hb : b ∈ stems) (h : a.toList <+: b.toList) :
    a = b := by
  have key : ∀ a ∈ stems, ∀ b ∈ stems, a.toList.isPrefixOf b.toList = true → a = b := by
    decide
  exact key a ha b hb (List.isPrefixOf_iff_prefix.2 h)

theorem stem_append_inj {x y : String} (ha : a ∈ stems) (hb : b ∈ stems) (h : a ++ x = b ++ y) :
    a = b ∧ x = y := by
  have hl : a.toList ++ x.toList = b.toList ++ y.toList := by
    rw [← String.toList_append, h, String.toList_append]
  have hab : a = b := by
    rcases prefix_or_prefix_of_prefix (prefix_append _ _)
      (hl ▸ prefix_append b.toList y.toList) with hp | hp
    · exact stem_eq_of_starts ha hb hp
    · exact (stem_eq_of_starts hb ha hp).symm
  subst hab
  exact ⟨rfl, String.toList_inj.1 (append_cancel_left hl)⟩

theorem stem_number_inj {i j : Nat} (ha : a ∈ stems) (hb : b ∈ stems)
    (h : a ++ toString i = b ++ toString j) : a = b ∧ i = j := by
  obtain ⟨rfl, hij⟩ := stem_append_inj ha hb h
  exact ⟨rfl, Nat.repr_inj.1 hij⟩

theorem mem_stems (h : stem ∈ libraryStems) : stem ∈ stems :=
  mem_append_left _ h

theorem isGenerated_number (h : stem ∈ libraryStems) (i : Nat) :
    isGenerated (stem ++ toString i) = true := by
  have hd : (stem ++ toString i).toList.drop stem.toList.length = Nat.toDigits 10 i := by
    rw [String.toList_append, drop_left]
    exact Nat.toList_repr
  rw [isGenerated, any_eq_true]
  refine ⟨stem, h, ?_⟩
  rw [hd, Bool.and_eq_true, Bool.and_eq_true]
  refine ⟨?_, ?_, ?_⟩
  · rw [List.isPrefixOf_iff_prefix, String.toList_append]
    exact prefix_append _ _
  · rw [Bool.not_eq_true', isEmpty_eq_false_iff]
    exact Nat.toDigits_ne_nil
  · rw [all_eq_true]
    intro c hc
    exact Nat.isDigit_of_mem_toDigits (by decide) (by decide) hc

theorem isGenerated_of_isInternal (h : Syntax.isInternal name = true) :
    isGenerated name = false := by
  obtain ⟨rest, hrest⟩ := List.isPrefixOf_iff_prefix.1 h
  rw [isGenerated, any_eq_false]
  intro stem hs
  have key : ∀ stem ∈ libraryStems, stem.toList.isPrefixOf (['_', '_'] ++ rest) = false := by
    intro stem hm
    fin_cases hm <;> rfl
  rw [← hrest, key stem hs]
  simp

theorem isInternal_of_isGenerated (h : isGenerated name = true) :
    Syntax.isInternal name = false := by
  cases hi : Syntax.isInternal name with
  | false => rfl
  | true =>
    rw [isGenerated_of_isInternal hi] at h
    cases h

/-! ### Growing a namer -/

namespace Namer

/-- Different keys of a stem have different numbers, each key has one, and all numbers are below
    the count of the stem. -/
structure Sound (n : Namer) : Prop where
  key_inj : ∀ {stem key key' i}, (stem, key, i) ∈ n.entries → (stem, key', i) ∈ n.entries →
    key = key'
  number_inj : ∀ {stem key i j}, (stem, key, i) ∈ n.entries → (stem, key, j) ∈ n.entries → i = j
  below : ∀ {stem key i}, (stem, key, i) ∈ n.entries → i < n.count stem

theorem sound_empty : empty.Sound := by
  constructor
  · intro _ _ _ _ h
    cases h
  · intro _ _ _ _ h
    cases h
  · intro _ _ _ h
    cases h

variable {n : Namer} {stem key : String}

theorem mem_of_number? {i : Nat} (h : n.number? stem key = some i) :
    (stem, key, i) ∈ n.entries := by
  obtain ⟨⟨s, k, j⟩, hf, rfl⟩ := Option.map_eq_some_iff.1 h
  have hm := mem_of_find?_eq_some hf
  have hp := List.find?_some hf
  simp only [Bool.and_eq_true, beq_iff_eq] at hp
  obtain ⟨rfl, rfl⟩ := hp
  exact hm

theorem not_mem_of_number? (h : n.number? stem key = none) (i : Nat) :
    (stem, key, i) ∉ n.entries := by
  intro hm
  have hf := Option.map_eq_none_iff.1 h
  have := List.find?_eq_none.1 hf _ hm
  simp at this

theorem count_concat (n : Namer) (stem stem' key : String) (i : Nat) :
    (Namer.mk (n.entries ++ [(stem', key, i)])).count stem
      = n.count stem + (if stem' = stem then 1 else 0) := by
  simp only [count, filter_append, length_append]
  by_cases h : stem' = stem <;> simp [h]

theorem mem_concat {st k : String} {i j : Nat} :
    (st, k, j) ∈ (Namer.mk (n.entries ++ [(stem, key, i)])).entries ↔
      (st, k, j) ∈ n.entries ∨ st = stem ∧ k = key ∧ j = i := by
  simp

/-- A new key keeps a namer sound, since its number is above all others of the stem. -/
theorem Sound.concat (hn : n.Sound) (hk : ∀ i, (stem, key, i) ∉ n.entries) :
    (Namer.mk (n.entries ++ [(stem, key, n.count stem)])).Sound := by
  constructor
  · intro st k k' i h h'
    rcases mem_concat.1 h with hm | ⟨rfl, rfl, rfl⟩ <;>
      rcases mem_concat.1 h' with hm' | ⟨hs, hk', hi⟩
    · exact hn.key_inj hm hm'
    · subst hs hi
      exact absurd (hn.below hm) (Nat.lt_irrefl _)
    · exact absurd (hn.below hm') (Nat.lt_irrefl _)
    · exact hk'.symm
  · intro st k i j h h'
    rcases mem_concat.1 h with hm | ⟨rfl, rfl, rfl⟩ <;>
      rcases mem_concat.1 h' with hm' | ⟨hs, hk', hi⟩
    · exact hn.number_inj hm hm'
    · subst hs hk'
      exact absurd hm (hk i)
    · exact absurd hm' (hk j)
    · exact hi.symm
  · intro st k i h
    rw [count_concat]
    rcases mem_concat.1 h with hm | ⟨rfl, -, rfl⟩
    · exact Nat.lt_of_lt_of_le (hn.below hm) (Nat.le_add_right _ _)
    · simp

/-- Naming forgets nothing. -/
theorem starts_nameFor (n : Namer) (stem key : String) :
    n.entries <+: (n.nameFor stem key).2.entries := by
  rw [nameFor]
  split
  · exact prefix_rfl
  · exact prefix_append _ _

/-- The name of a key is its stem and the number that it has from then on. -/
theorem nameFor_fst (n : Namer) (stem key : String) :
    ∃ i, (n.nameFor stem key).1 = stem ++ toString i ∧
      (stem, key, i) ∈ (n.nameFor stem key).2.entries := by
  rw [nameFor]
  cases hi : n.number? stem key with
  | some i => exact ⟨i, rfl, mem_of_number? hi⟩
  | none => exact ⟨n.count stem, rfl, by simp⟩

theorem Sound.nameFor (hn : n.Sound) (stem key : String) : (n.nameFor stem key).2.Sound := by
  rw [Namer.nameFor]
  cases hi : n.number? stem key with
  | some i => exact hn
  | none => exact hn.concat (not_mem_of_number? hi)

end Namer

end RowAwk.Compile
