import Mathlib.Data.List.Basic

/-!
Extended regular expressions: how a pattern is read, and what it matches.

A pattern is read from the left. What stands between parentheses is read as a frame of its own,
which a closing parenthesis makes one item of the frame around it. Groups are numbered by their
opening parentheses:

    ^(a|b(c))d      ──▶      start, group 1 (a or (b, group 2 c)), d

Lists of characters in brackets and counts in braces are not read.
-/

namespace RowAwk.Awk

inductive Regex where
  | empty
  | char (c : Char)
  | any
  | start
  | stop
  | seq (a b : Regex)
  | alt (a b : Regex)
  | star (a : Regex)
  | plus (a : Regex)
  | option (a : Regex)
  | group (number : Nat) (a : Regex)

namespace Regex

/-! ### Reading patterns -/

/-- Stands for itself in a pattern. -/
def isOrdinary (c : Char) : Bool := !"\\^$.[|()*+?\x7b".toList.contains c

def seqOf : List Regex → Regex
  | [] => .empty
  | a :: as => .seq a (seqOf as)

/-- What is read of a group, or of the whole pattern: its number, the alternatives that are
    complete, and the items of the last one, backwards. -/
structure Frame where
  number : Nat
  complete : Option Regex
  items : List Regex

namespace Frame

def push (f : Frame) (item : Regex) : Frame := { f with items := item :: f.items }

/-- The expression that a frame holds at its end. -/
def close (f : Frame) : Regex :=
  match f.complete with
  | none => seqOf f.items.reverse
  | some a => .alt a (seqOf f.items.reverse)

/-- Begins another alternative. -/
def branch (f : Frame) : Frame := { f with complete := some f.close, items := [] }

/-- Puts an operator behind the last item. -/
def modify? (f : Frame) (operator : Regex → Regex) : Option Frame :=
  match f.items with
  | [] => none
  | item :: items => some { f with items := operator item :: items }

end Frame

/-- Reads a pattern, with so many groups opened before it and the frames around its own. -/
def readFrom (groups : Nat) (outer : List Frame) (frame : Frame) : List Char → Option Regex
  | [] => if outer.isEmpty then some frame.close else none
  | c :: cs =>
    if isOrdinary c then readFrom groups outer (frame.push (.char c)) cs
    else match c with
      | '.' => readFrom groups outer (frame.push .any) cs
      | '^' => readFrom groups outer (frame.push .start) cs
      | '$' => readFrom groups outer (frame.push .stop) cs
      | '(' => readFrom (groups + 1) (frame :: outer) ⟨groups + 1, none, []⟩ cs
      | ')' =>
        match outer with
        | [] => none
        | f :: outer => readFrom groups outer (f.push (.group frame.number frame.close)) cs
      | '|' => readFrom groups outer frame.branch cs
      | '*' => (frame.modify? .star).bind fun f => readFrom groups outer f cs
      | '+' => (frame.modify? .plus).bind fun f => readFrom groups outer f cs
      | '?' => (frame.modify? .option).bind fun f => readFrom groups outer f cs
      | '\\' =>
        match cs with
        | [] => none
        | d :: cs => if isOrdinary d then none else readFrom groups outer (frame.push (.char d)) cs
      | _ => none

/-- The expression that a pattern stands for. -/
def read (pattern : List Char) : Option Regex := readFrom 0 [] ⟨0, none, []⟩ pattern

/-- Where the parentheses of a pattern stand that open a group; `escaped` tells whether a backslash
    stands before the text, which begins at `place`. -/
def openings (escaped : Bool) (place : Nat) : List Char → List Nat
  | [] => []
  | c :: cs =>
    if escaped then openings false (place + 1) cs
    else if c = '(' then place :: openings false (place + 1) cs
    else openings (c == '\\') (place + 1) cs

section

variable {groups : Nat} {outer : List Frame} {frame : Frame}

theorem readFrom_ordinary {c : Char} (hc : isOrdinary c = true) (cs : List Char) :
    readFrom groups outer frame (c :: cs) = readFrom groups outer (frame.push (.char c)) cs := by
  conv_lhs => unfold readFrom
  exact if_pos hc

theorem readFrom_dots (width : Nat) (cs : List Char) :
    readFrom groups outer frame (List.replicate width '.' ++ cs)
      = readFrom groups outer { frame with items := List.replicate width .any ++ frame.items }
          cs := by
  induction width generalizing frame with
  | zero => rfl
  | succ width ih =>
    rw [List.replicate_succ, List.cons_append, readFrom, if_neg (by decide), ih, Frame.push,
      List.replicate_succ']
    simp only [List.append_assoc, List.singleton_append]

/-- A group of dots becomes one item of the frame around it. -/
theorem readFrom_group (width : Nat) (cs : List Char) :
    readFrom groups outer frame ('(' :: List.replicate width '.' ++ ')' :: cs)
      = readFrom (groups + 1) outer
          (frame.push (.group (groups + 1) (seqOf (List.replicate width .any)))) cs := by
  rw [List.cons_append, readFrom, if_neg (by decide), readFrom_dots, readFrom,
    if_neg (by decide), Frame.close, List.append_nil, List.reverse_replicate]

/-! ### Matching texts -/

/-- The expression matches `text` between `left` and `right`, with what its groups hold. -/
inductive Matches : Regex → (left text right : List Char) → List (Nat × List Char) → Prop
  | empty {l r} : Matches .empty l [] r []
  | char {c l r} : Matches (.char c) l [c] r []
  | any {c l r} : Matches .any l [c] r []
  | start {r} : Matches .start [] [] r []
  | stop {l} : Matches .stop l [] [] []
  | seq {a b l t u r cs ds} : Matches a l t (u ++ r) cs → Matches b (l ++ t) u r ds →
      Matches (.seq a b) l (t ++ u) r (cs ++ ds)
  | left {a b l t r cs} : Matches a l t r cs → Matches (.alt a b) l t r cs
  | right {a b l t r cs} : Matches b l t r cs → Matches (.alt a b) l t r cs
  | none {a l r} : Matches (.star a) l [] r []
  | more {a l t u r cs ds} : Matches a l t (u ++ r) cs → Matches (.star a) (l ++ t) u r ds →
      Matches (.star a) l (t ++ u) r (cs ++ ds)
  | plus {a l t r cs} : Matches (.seq a (.star a)) l t r cs → Matches (.plus a) l t r cs
  | omitted {a l r} : Matches (.option a) l [] r []
  | present {a l t r cs} : Matches a l t r cs → Matches (.option a) l t r cs
  | group {n a l t r cs} : Matches a l t r cs → Matches (.group n a) l t r ((n, t) :: cs)

section

variable {l t r : List Char} {cs : List (Nat × List Char)}

theorem matches_char {c : Char} : Matches (.char c) l t r cs ↔ t = [c] ∧ cs = [] := by
  constructor
  · rintro ⟨⟩
    exact ⟨rfl, rfl⟩
  · rintro ⟨rfl, rfl⟩
    exact .char

theorem matches_any : Matches .any l t r cs ↔ t.length = 1 ∧ cs = [] := by
  constructor
  · rintro ⟨⟩
    exact ⟨rfl, rfl⟩
  · rintro ⟨ht, rfl⟩
    obtain ⟨c, rfl⟩ := List.length_eq_one_iff.1 ht
    exact .any

theorem matches_start : Matches .start l t r cs ↔ l = [] ∧ t = [] ∧ cs = [] := by
  constructor
  · rintro ⟨⟩
    exact ⟨rfl, rfl, rfl⟩
  · rintro ⟨rfl, rfl, rfl⟩
    exact .start

theorem matches_stop : Matches .stop l t r cs ↔ r = [] ∧ t = [] ∧ cs = [] := by
  constructor
  · rintro ⟨⟩
    exact ⟨rfl, rfl, rfl⟩
  · rintro ⟨rfl, rfl, rfl⟩
    exact .stop

theorem matches_group {n : Nat} {a : Regex} :
    Matches (.group n a) l t r cs ↔ ∃ ds, cs = (n, t) :: ds ∧ Matches a l t r ds := by
  constructor
  · rintro ⟨⟩
    exact ⟨_, rfl, ‹_›⟩
  · rintro ⟨ds, rfl, h⟩
    exact .group h

theorem matches_seq {a b : Regex} : Matches (.seq a b) l t r cs ↔
    ∃ t₁ t₂ cs₁ cs₂, t = t₁ ++ t₂ ∧ cs = cs₁ ++ cs₂ ∧ Matches a l t₁ (t₂ ++ r) cs₁ ∧
      Matches b (l ++ t₁) t₂ r cs₂ := by
  constructor
  · rintro ⟨⟩
    exact ⟨_, _, _, _, rfl, rfl, ‹_›, ‹_›⟩
  · rintro ⟨t₁, t₂, cs₁, cs₂, rfl, rfl, ha, hb⟩
    exact .seq ha hb

theorem matches_seqOf_cons {a : Regex} {as : List Regex} : Matches (seqOf (a :: as)) l t r cs ↔
    ∃ t₁ t₂ cs₁ cs₂, t = t₁ ++ t₂ ∧ cs = cs₁ ++ cs₂ ∧ Matches a l t₁ (t₂ ++ r) cs₁ ∧
      Matches (seqOf as) (l ++ t₁) t₂ r cs₂ := matches_seq

theorem matches_seqOf_nil : Matches (seqOf []) l t r cs ↔ t = [] ∧ cs = [] := by
  constructor
  · rintro ⟨⟩
    exact ⟨rfl, rfl⟩
  · rintro ⟨rfl, rfl⟩
    exact .empty

/-- So many dots match so many characters. -/
theorem matches_dots {width : Nat} :
    Matches (seqOf (List.replicate width .any)) l t r cs ↔ t.length = width ∧ cs = [] := by
  induction width generalizing l t cs with
  | zero => rw [List.replicate_zero, matches_seqOf_nil, List.length_eq_zero_iff]
  | succ width ih =>
    rw [List.replicate_succ, matches_seqOf_cons]
    constructor
    · rintro ⟨t₁, t₂, cs₁, cs₂, rfl, rfl, ha, hb⟩
      obtain ⟨ht₁, rfl⟩ := matches_any.1 ha
      obtain ⟨ht₂, rfl⟩ := ih.1 hb
      exact ⟨by rw [List.length_append]; omega, rfl⟩
    · rintro ⟨ht, rfl⟩
      obtain ⟨c, t, rfl⟩ := List.exists_cons_of_length_eq_add_one ht
      refine ⟨[c], t, [], [], rfl, rfl, .any, ih.2 ⟨?_, rfl⟩⟩
      simpa using ht

theorem matches_star_any : Matches (.star .any) l t r cs ↔ cs = [] := by
  constructor
  · intro h
    generalize ha : Regex.star .any = a at h
    induction h with
    | none => rfl
    | more h _ _ ih =>
      cases ha
      rw [(matches_any.1 h).2, ih rfl]
      rfl
    | _ => cases ha
  · rintro rfl
    induction t generalizing l with
    | nil => exact .none
    | cons c t ih => exact .more .any ih

end

end

/-! ### Filling in groups -/

/-- A replacement for a matched text: a digit behind a backslash refers to a group, an ampersand to
    the whole match. -/
def substitute (whole : List Char) (groups : List (Nat × List Char)) : List Char → List Char
  | [] => []
  | ['\\'] => ['\\']
  | '\\' :: d :: cs =>
    (if d.isDigit then (((0, whole) :: groups).lookup (d.toNat - '0'.toNat)).getD []
      else if d = '&' ∨ d = '\\' then [d] else ['\\', d]) ++ substitute whole groups cs
  | c :: cs => (if c = '&' then whole else [c]) ++ substitute whole groups cs

end Regex

end RowAwk.Awk
