import RowAwk.Proofs.Numerals
import RowAwk.Proofs.Regex

/-!
What the patterns of date formats match, and which groups their times refer to.

A format is a list of pieces, and every code among them is a group of dots in the pattern. The time
refers to the group of the last occurrence of each code, by the number of codes up to it:

    format      %H %d %H           pattern     ^(..) (..) (..).*$       time    1970 01 \2 \3 00 00
    date        10 17 12           groups       1    2    3                     1970 01 17 12 00 00

The number is that of the group unless literals of the format open groups of their own or escape
the parenthesis of a code, and a reference has one digit unless ten codes come up to it. Literals
match themselves unless they are operators of patterns.
-/

open List

namespace RowAwk.Compile.TimeFormat

open Awk (Regex)
open Awk.Regex

/-! ### Pieces of formats -/

/-- How a piece is written in a format. -/
def Piece.spelling : Piece → List Char
  | .literal c => [c]
  | .part p => ['%', p.code]

def Piece.isPart : Piece → Bool
  | .literal _ => false
  | .part _ => true

/-- The number of codes. -/
def codes (ps : List Piece) : Nat := ps.countP Piece.isPart

theorem Part.code_of_ofCode? {c : Char} (h : Part.ofCode? c = some p) : p.code = c := by
  have hfound : (p.code == c) = true := List.find?_some (p := fun x => Part.code x == c) h
  exact eq_of_beq hfound

/-- The pieces spell the format, and no percent sign stands alone. -/
theorem pieces_spelling {format : String} {cs : List Char} (h : pieces format cs = .ok ps) :
    ps.flatMap Piece.spelling = cs ∧ Piece.literal '%' ∉ ps := by
  induction cs using pieces.induct generalizing ps with
  | case1 =>
    rw [pieces] at h
    cases h
    exact ⟨rfl, not_mem_nil⟩
  | case2 =>
    rw [pieces] at h
    cases h
  | case3 c cs hc =>
    rw [pieces, hc] at h
    cases h
  | case4 c cs p hp ih =>
    rw [pieces, hp] at h
    obtain ⟨rest, hrest, rfl⟩ := except_map_eq_ok.1 h
    obtain ⟨hspell, hnone⟩ := ih hrest
    refine ⟨?_, fun hm => ?_⟩
    · rw [flatMap_cons, hspell, Piece.spelling, Part.code_of_ofCode? hp]
      rfl
    · rcases mem_cons.1 hm with he | hm
      · cases he
      · exact hnone hm
  | case5 c cs hlast hcode ih =>
    rw [pieces.eq_4 format c cs hlast hcode] at h
    obtain ⟨rest, hrest, rfl⟩ := except_map_eq_ok.1 h
    obtain ⟨hspell, hnone⟩ := ih hrest
    refine ⟨?_, fun hm => ?_⟩
    · rw [flatMap_cons, hspell]
      rfl
    · rcases mem_cons.1 hm with he | hm
      · cases he
        cases cs with
        | nil => exact hlast rfl rfl
        | cons c cs => exact hcode c cs rfl rfl
      · exact hnone hm

/-! ### Last occurrences -/

variable {p : Part} {ps : List Piece}

theorem group?_eq_none {n : Nat} : group? p n ps = none ↔ Piece.part p ∉ ps := by
  induction ps generalizing n with
  | nil => exact ⟨fun _ => not_mem_nil, fun _ => rfl⟩
  | cons piece ps ih =>
    cases piece with
    | literal c => rw [group?, ih, mem_cons, not_or, and_iff_right Piece.noConfusion]
    | part q =>
      have hrest : group? p (n + 1) ps = none ↔ Piece.part p ∉ ps := ih
      rw [group?, mem_cons, not_or, ← hrest, Piece.part.injEq]
      cases group? p (n + 1) ps with
      | none => by_cases hq : p = q <;> simp [hq]
      | some k => simp

variable {cs : List (Nat × List Char)} {before after : List Piece} {t date : List Char}
variable {fields : List (Part × List Char)}

/-- The number of a group is that of the codes up to the last occurrence. -/
theorem group?_last (h : Piece.part p ∉ after) (n : Nat) :
    group? p n (before ++ .part p :: after) = some (n + codes before + 1) := by
  induction before generalizing n with
  | nil =>
    rw [nil_append, group?, group?_eq_none.2 h]
    exact if_pos rfl
  | cons piece before ih =>
    cases piece with
    | literal c => exact ih n
    | part q =>
      rw [cons_append, group?, ih (n + 1), codes, codes, countP_cons_of_pos rfl]
      exact congrArg (fun k => some (k + 1)) (Nat.add_right_comm n 1 _)

/-- What stands for a part in the time. -/
def reference (ps : List Piece) (p : Part) : String :=
  match group? p 0 ps with
  | some n => "\\" ++ toString n
  | none => p.fallback

theorem replacement_eq (ps : List Piece) :
    replacement ps = " ".intercalate (Part.all.map (reference ps)) := rfl

theorem reference_of_not_mem (h : Piece.part p ∉ ps) : reference ps p = p.fallback := by
  rw [reference, group?_eq_none.2 h]

theorem reference_last (h : Piece.part p ∉ after) :
    reference (before ++ .part p :: after) p = "\\" ++ toString (codes before + 1) := by
  rw [reference, group?_last h, Nat.zero_add]

theorem exists_last (h : Piece.part p ∈ ps) :
    ∃ before after, ps = before ++ .part p :: after ∧ Piece.part p ∉ after := by
  obtain ⟨after, before, he, hlast⟩ := eq_append_cons_of_mem (mem_reverse.2 h)
  refine ⟨before.reverse, after.reverse, ?_, fun hm => hlast (mem_reverse.1 hm)⟩
  rw [← reverse_reverse ps, he]
  simp

/-- Only a part without a code has its fixed value. -/
theorem reference_eq_fallback : reference ps p = p.fallback ↔ Piece.part p ∉ ps := by
  refine ⟨fun h hm => ?_, reference_of_not_mem⟩
  obtain ⟨before, after, rfl, hlast⟩ := exists_last hm
  rw [reference_last hlast] at h
  have hhead := congrArg (fun s => s.toList.head?) h
  cases p <;> simp [Part.fallback] at hhead

/-- A reference has one digit for the first nine groups only. -/
theorem length_reference (n : Nat) : ("\\" ++ toString (n + 1)).length = 2 ↔ n + 1 ≤ 9 := by
  have hpos : (toString (n + 1)).length ≠ 0 := by
    rw [← String.length_toList]
    exact fun h => Number.toString_ne_nil (n + 1) (length_eq_zero_iff.1 h)
  have hone : (toString (n + 1)).length ≤ 1 ↔ n + 1 < 10 ^ 1 := Nat.length_repr_le_iff (by omega)
  rw [String.length_append]
  change 1 + _ = 2 ↔ _
  omega

/-! ### Groups of patterns -/

/-- Whether the parentheses of codes open groups and no others do; `escaped` tells whether a
    backslash stands before. -/
def isSteady (escaped : Bool) : List Piece → Bool
  | [] => !escaped
  | .literal c :: ps =>
    if escaped then isSteady false ps else c != '(' && isSteady (c == '\\') ps
  | .part _ :: ps => !escaped && isSteady false ps

theorem openings_dots (width place : Nat) (cs : List Char) :
    openings false place (List.replicate width '.' ++ cs)
      = openings false (place + width) cs := by
  induction width generalizing place with
  | zero => rfl
  | succ width ih =>
    rw [replicate_succ, cons_append, openings, if_neg (by decide), if_neg (by decide)]
    exact (ih (place + 1)).trans (by rw [Nat.add_right_comm, Nat.add_assoc])

theorem openings_part (place : Nat) (cs : List Char) :
    openings false place ((Piece.part p).pattern ++ cs)
      = place :: openings false (place + (Piece.part p).pattern.length) cs := by
  rw [Piece.pattern, append_assoc, cons_append, openings, if_neg (by decide), if_pos rfl,
    openings_dots, singleton_append, openings, if_neg (by decide), if_neg (by decide)]
  congr 2
  simp only [length_append, length_cons, length_replicate, length_nil]
  omega

/-- Steady pieces open one group for each code. -/
theorem openings_steady {escaped : Bool} (h : isSteady escaped ps = true) (place : Nat)
    (cs : List Char) : ∃ places, places.length = codes ps ∧
      openings escaped place (ps.flatMap Piece.pattern ++ cs)
        = places ++ openings false (place + (ps.flatMap Piece.pattern).length) cs := by
  induction ps generalizing escaped place with
  | nil =>
    rw [isSteady, Bool.not_eq_true'] at h
    exact ⟨[], rfl, by rw [h]; rfl⟩
  | cons piece ps ih =>
    rw [flatMap_cons, append_assoc, length_append, ← Nat.add_assoc]
    cases piece with
    | literal c =>
      -- a character moves the place by one and may escape the next one
      have hstep : ∃ escaped', isSteady escaped' ps = true ∧
          ∀ rest, openings escaped place (c :: rest)
            = openings escaped' (place + 1) rest := by
        cases escaped with
        | true => exact ⟨false, h, fun _ => rfl⟩
        | false =>
          obtain ⟨hc, hps⟩ := Bool.and_eq_true_iff.1 h
          refine ⟨c == '\\', hps, fun rest => ?_⟩
          rw [openings, if_neg (by decide), if_neg (bne_iff_ne.1 hc)]
      obtain ⟨escaped', hps, hrest⟩ := hstep
      obtain ⟨places, hlength, hplaces⟩ := ih hps (place + 1)
      exact ⟨places, hlength, (hrest _).trans hplaces⟩
    | part q =>
      obtain ⟨he, hps⟩ := Bool.and_eq_true_iff.1 h
      obtain ⟨places, hlength, hplaces⟩ := ih hps (place + (Piece.part q).pattern.length)
      rw [Bool.not_eq_true'] at he
      refine ⟨place :: places, ?_, ?_⟩
      · rw [length_cons, hlength, codes, codes, countP_cons_of_pos rfl]
      · rw [he, openings_part, hplaces, cons_append]

/-- Behind steady pieces, the group with the number of the code is the code's own. -/
theorem openings_last (h : isSteady false before = true) :
    (openings false 0 (pattern (before ++ .part p :: after)).toList)[codes before]?
      = some (1 + (before.flatMap Piece.pattern).length) := by
  obtain ⟨places, hlength, hplaces⟩ := openings_steady h 1
    ((Piece.part p).pattern ++ (after.flatMap Piece.pattern ++ ['.', '*', '$']))
  have hpattern : (pattern (before ++ .part p :: after)).toList
      = '^' :: (before.flatMap Piece.pattern ++
        ((Piece.part p).pattern ++ (after.flatMap Piece.pattern ++ ['.', '*', '$']))) := by
    rw [pattern, String.toList_ofList, flatMap_append, flatMap_cons]
    simp only [cons_append, append_assoc]
  rw [hpattern, openings, if_neg (by decide), if_neg (by decide)]
  change (openings false 1 _)[_]? = _
  rw [hplaces, openings_part, ← hlength, List.getElem?_append_right (Nat.le_refl _), Nat.sub_self]
  rfl

/-! ### Reading patterns -/

/-- The items that pieces are read as, where so many groups come before. -/
def items (groups : Nat) : List Piece → List Regex
  | [] => []
  | .literal c :: ps => .char c :: items groups ps
  | .part p :: ps =>
    .group (groups + 1) (seqOf (List.replicate p.width .any)) :: items (groups + 1) ps

theorem readFrom_pieces (h : ∀ c, .literal c ∈ ps → isOrdinary c = true) (groups : Nat)
    (frame : Regex.Frame) (cs : List Char) :
    readFrom groups [] frame (ps.flatMap Piece.pattern ++ cs)
      = readFrom (groups + codes ps) []
          { frame with items := (items groups ps).reverse ++ frame.items } cs := by
  induction ps generalizing groups frame with
  | nil => rfl
  | cons piece ps ih =>
    have hps : ∀ c, .literal c ∈ ps → isOrdinary c = true :=
      fun c hc => h c (mem_cons_of_mem _ hc)
    rw [flatMap_cons, append_assoc]
    cases piece with
    | literal c =>
      rw [Piece.pattern, singleton_append, readFrom_ordinary (h c mem_cons_self), ih hps, items,
        reverse_cons, append_assoc]
      rfl
    | part q =>
      rw [Piece.pattern, append_assoc, singleton_append, readFrom_group, ih hps,
        items, reverse_cons, append_assoc, codes, codes, countP_cons_of_pos rfl,
        Nat.add_right_comm, Nat.add_assoc]
      rfl

/-- A pattern is read piece by piece. -/
theorem read_pattern (h : ∀ c, .literal c ∈ ps → isOrdinary c = true) :
    Regex.read (pattern ps).toList
      = some (seqOf (.start :: (items 0 ps ++ [.star .any, .stop]))) := by
  have hpattern : (pattern ps).toList = '^' :: (ps.flatMap Piece.pattern ++ ['.', '*', '$']) := by
    rw [pattern, String.toList_ofList]
    rfl
  rw [hpattern, Regex.read, readFrom, if_neg (by decide), readFrom_pieces h]
  change some (seqOf _) = _
  simp [Regex.Frame.push]

/-! ### Dates -/

/-- A text is made of the pieces of a format, with a value of its width for each code. -/
inductive Dated : List Piece → List (Part × List Char) → List Char → Prop
  | nil : Dated [] [] []
  | literal {c ps fields text} : Dated ps fields text →
      Dated (.literal c :: ps) fields (c :: text)
  | part {p ps value fields text} (hw : value.length = Part.width p) : Dated ps fields text →
      Dated (.part p :: ps) ((p, value) :: fields) (value ++ text)

/-- The values with the numbers of their groups. -/
def numbered (groups : Nat) : List (Part × List Char) → List (Nat × List Char)
  | [] => []
  | field :: fields => (groups + 1, field.2) :: numbered (groups + 1) fields

/-- What the items of pieces match. -/
theorem matches_items {groups : Nat} {more : List Regex} {l r : List Char} :
    Regex.Matches (seqOf (items groups ps ++ more)) l t r cs ↔
      ∃ fields date t' cs', Dated ps fields date ∧ t = date ++ t' ∧
        cs = numbered groups fields ++ cs' ∧
        Regex.Matches (seqOf more) (l ++ date) t' r cs' := by
  induction ps generalizing groups l t cs with
  | nil =>
    constructor
    · intro h
      exact ⟨[], [], t, cs, .nil, rfl, rfl, by rwa [append_nil]⟩
    · rintro ⟨fields, date, t', cs', ⟨⟩, rfl, rfl, h⟩
      rwa [append_nil] at h
  | cons piece ps ih =>
    cases piece with
    | literal c =>
      rw [items, cons_append, matches_seqOf_cons]
      constructor
      · rintro ⟨t₁, t₂, cs₁, cs₂, rfl, rfl, ha, hb⟩
        obtain ⟨rfl, rfl⟩ := matches_char.1 ha
        obtain ⟨fields, date, t', cs', hd, rfl, rfl, h⟩ := ih.1 hb
        refine ⟨fields, c :: date, t', cs', .literal hd, rfl, rfl, ?_⟩
        rwa [append_assoc] at h
      · rintro ⟨fields, date, t', cs', hd, rfl, rfl, h⟩
        cases hd with
        | @literal _ _ _ date hd =>
          refine ⟨[c], date ++ t', [], _, rfl, rfl, .char,
            ih.2 ⟨fields, date, t', cs', hd, rfl, rfl, ?_⟩⟩
          rwa [append_assoc]
    | part q =>
      rw [items, cons_append, matches_seqOf_cons]
      constructor
      · rintro ⟨value, t₂, cs₁, cs₂, rfl, rfl, ha, hb⟩
        obtain ⟨ds, rfl, hdots⟩ := matches_group.1 ha
        obtain ⟨hw, rfl⟩ := matches_dots.1 hdots
        obtain ⟨fields, date, t', cs', hd, rfl, rfl, h⟩ := ih.1 hb
        refine ⟨(q, value) :: fields, value ++ date, t', cs', .part hw hd, ?_, rfl, ?_⟩
        · rw [append_assoc]
        · rwa [append_assoc] at h
      · rintro ⟨fields, date, t', cs', hd, rfl, rfl, h⟩
        cases hd with
        | @part _ _ value fields date hw hd =>
          refine ⟨value, date ++ t', [(groups + 1, value)], _, append_assoc .., rfl,
            .group (matches_dots.2 ⟨hw, rfl⟩),
            ih.2 ⟨fields, date, t', cs', hd, rfl, rfl, ?_⟩⟩
          rwa [append_assoc]

/-- A pattern matches the texts that begin with a date, and its groups hold the values. -/
theorem matches_pattern {e : Regex}
    (he : e = seqOf (.start :: (items 0 ps ++ [.star .any, .stop]))) :
    e.Matches [] t [] cs ↔
      ∃ fields date rest, Dated ps fields date ∧ t = date ++ rest ∧ cs = numbered 0 fields := by
  subst he
  rw [matches_seqOf_cons]
  constructor
  · rintro ⟨t₁, t₂, cs₁, cs₂, rfl, rfl, ha, hb⟩
    obtain ⟨-, rfl, rfl⟩ := matches_start.1 ha
    obtain ⟨fields, date, t', cs', hd, rfl, rfl, hend⟩ := matches_items.1 hb
    obtain ⟨t₃, t₄, cs₃, cs₄, rfl, rfl, hrest, hend⟩ := matches_seqOf_cons.1 hend
    obtain ⟨t₅, t₆, cs₅, cs₆, rfl, rfl, hstop, hnil⟩ := matches_seqOf_cons.1 hend
    obtain rfl := matches_star_any.1 hrest
    obtain ⟨-, rfl, rfl⟩ := matches_stop.1 hstop
    obtain ⟨rfl, rfl⟩ := matches_seqOf_nil.1 hnil
    exact ⟨fields, date, t₃ ++ [], hd, rfl, append_nil _⟩
  · rintro ⟨fields, date, rest, hd, rfl, rfl⟩
    refine ⟨[], date ++ rest, [], numbered 0 fields, rfl, rfl, .start,
      matches_items.2 ⟨fields, date, rest, [], hd, rfl, (append_nil _).symm, ?_⟩⟩
    refine matches_seqOf_cons.2 ⟨rest, [], [], [], (append_nil _).symm, rfl,
      matches_star_any.2 rfl, ?_⟩
    exact matches_seqOf_cons.2 ⟨[], [], [], [], rfl, rfl, .stop, .empty⟩

/-! ### Times -/

/-- The value of a part: the last one that a date gives, or else the fixed one. -/
def valueOf (fields : List (Part × List Char)) (p : Part) : List Char :=
  (fields.reverse.lookup p).getD p.fallback.toList

section

variable {fields : List (Part × List Char)} {date : List Char}

theorem Dated.mem (h : Dated ps fields date) {q : Part} {value : List Char}
    (hm : (q, value) ∈ fields) : Piece.part q ∈ ps := by
  induction h with
  | nil => cases hm
  | literal _ ih => exact mem_cons_of_mem _ (ih hm)
  | part _ _ ih =>
    rcases mem_cons.1 hm with he | hm
    · cases he
      exact mem_cons_self
    · exact mem_cons_of_mem _ (ih hm)

theorem Dated.lookup_eq_none (h : Dated ps fields date) (hp : Piece.part p ∉ ps) :
    fields.reverse.lookup p = none := by
  rw [lookup_eq_none_iff]
  rintro ⟨q, value⟩ hm
  rw [bne_iff_ne]
  rintro rfl
  exact hp (h.mem (mem_reverse.1 hm))

/-- The group of the last occurrence holds the value of a part. -/
theorem Dated.lookup_numbered (h : Dated ps fields date) {n k : Nat}
    (hk : group? p n ps = some k) : n < k ∧ ∃ value,
      (numbered n fields).lookup k = some value ∧ fields.reverse.lookup p = some value := by
  induction h generalizing n with
  | nil => cases hk
  | literal _ ih => exact ih hk
  | @part q ps value fields date _ hd ih =>
    rw [group?] at hk
    cases hg : group? p (n + 1) ps with
    | some k' =>
      rw [hg] at hk
      cases hk
      obtain ⟨hlt, value', hvalue, hlast⟩ := ih hg
      refine ⟨by omega, value', ?_, ?_⟩
      · rw [numbered, lookup_cons, beq_false_of_ne (by omega)]
        exact hvalue
      · rw [reverse_cons, lookup_append, hlast]
        rfl
    | none =>
      rw [hg] at hk
      obtain ⟨rfl, hn⟩ : p = q ∧ some (n + 1) = some k := Option.ite_none_right_eq_some.1 hk
      cases hn
      refine ⟨by omega, value, ?_, ?_⟩
      · rw [numbered, lookup_cons, beq_self_eq_true]
      · rw [reverse_cons, lookup_append, hd.lookup_eq_none (group?_eq_none.1 hg),
          Option.none_or, lookup_cons, beq_self_eq_true]

end

/-- A reference becomes the value of its part. -/
theorem substitute_reference (h : Dated ps fields date) (hcodes : codes ps ≤ 9)
    (whole rest : List Char) :
    substitute whole (numbered 0 fields) ((reference ps p).toList ++ rest)
      = valueOf fields p ++ substitute whole (numbered 0 fields) rest := by
  by_cases hp : Piece.part p ∈ ps
  · obtain ⟨before, after, rfl, hlast⟩ := exists_last hp
    have hk : group? p 0 (before ++ .part p :: after) = some (codes before + 1) := by
      rw [group?_last hlast, Nat.zero_add]
    obtain ⟨-, value, hvalue, hlookup⟩ := h.lookup_numbered hk
    have hsmall : codes before + 1 ≤ 9 := by
      rw [codes, countP_append, countP_cons_of_pos rfl] at hcodes
      rw [codes]
      omega
    -- a number below ten is one digit
    have hdigit : ∀ k ≤ 9, (toString k).toList = [Nat.digitChar k] ∧
        (Nat.digitChar k).isDigit = true ∧ (Nat.digitChar k).toNat - '0'.toNat = k := by decide
    obtain ⟨htext, hisDigit, hnumber⟩ := hdigit (codes before + 1) hsmall
    have hreference : (reference (before ++ .part p :: after) p).toList
        = ['\\', Nat.digitChar (codes before + 1)] := by
      rw [reference_last hlast, String.toList_append, htext]
      rfl
    rw [hreference, valueOf, hlookup, cons_append, singleton_append, substitute,
      if_pos hisDigit, hnumber, lookup_cons, beq_false_of_ne (by omega)]
    simp only [hvalue, Option.getD_some]
  · rw [reference_of_not_mem hp, valueOf, h.lookup_eq_none hp]
    cases p <;> rfl

/-- A replacement becomes the values of the parts, with blanks between them. -/
theorem substitute_replacement (h : Dated ps fields date) (hcodes : codes ps ≤ 9)
    (whole : List Char) :
    substitute whole (numbered 0 fields) (replacement ps).toList
      = [' '].intercalate (Part.all.map (valueOf fields)) := by
  have key : ∀ parts : List Part, substitute whole (numbered 0 fields)
      (" ".intercalate (parts.map (reference ps))).toList
        = [' '].intercalate (parts.map (valueOf fields)) := by
    intro parts
    induction parts with
    | nil => rfl
    | cons p parts ih =>
      cases parts with
      | nil =>
        rw [map_singleton, map_singleton, String.intercalate_singleton, intercalate_singleton]
        have hend := substitute_reference (p := p) h hcodes whole []
        rwa [append_nil, substitute, append_nil] at hend
      | cons q parts =>
        rw [map_cons, map_cons, map_cons, map_cons, String.intercalate_cons_cons,
          intercalate_cons_cons, ← map_cons, ← map_cons, String.toList_append, String.toList_append,
          append_assoc, substitute_reference h hcodes whole, append_assoc, ← ih]
        rfl
  exact key Part.all

/-! ### References -/

/-- What the time has for a part: the fixed value exactly if the format has no code for it, and
    else a reference to the group of the last one. The reference has one digit exactly for the first
    nine groups, and behind steady pieces the group with that number is the one of the code. -/
structure Refers (ps : List Piece) (p : Part) (text : String) : Prop where
  fallback : text = p.fallback ↔ Piece.part p ∉ ps
  number : ∀ {before after}, ps = before ++ .part p :: after → Piece.part p ∉ after →
    text = "\\" ++ toString (codes before + 1)
  digit : ∀ {before after}, ps = before ++ .part p :: after → Piece.part p ∉ after →
    (text.length = 2 ↔ codes before + 1 ≤ 9)
  group : ∀ {before after}, ps = before ++ .part p :: after → Piece.part p ∉ after →
    isSteady false before = true →
    (openings false 0 (pattern ps).toList)[codes before]?
      = some (1 + (before.flatMap Piece.pattern).length)

theorem refers_reference (ps : List Piece) (p : Part) : Refers ps p (reference ps p) where
  fallback := reference_eq_fallback
  number := by
    rintro before after rfl hlast
    exact reference_last hlast
  digit := by
    rintro before after rfl hlast
    rw [reference_last hlast]
    exact length_reference _
  group := by
    rintro before after rfl - hsteady
    exact openings_last hsteady

/-- Of an accepted format: its pieces spell it, the time has a reference or a fixed value for each
    part, and if the literals are no operators, the pattern matches exactly the texts that begin
    with a date, where the time gives the values of the date for at most nine codes. -/
theorem references_to_last_codes {format : String} {ps : List Piece}
    (h : pieces format format.toList = .ok ps) :
    (ps.flatMap Piece.spelling = format.toList ∧ Piece.literal '%' ∉ ps) ∧
    (∃ texts, replacement ps = " ".intercalate texts ∧
      List.Forall₂ (Refers ps) [.year, .month, .day, .hour, .minute, .second] texts) ∧
    ((∀ c, .literal c ∈ ps → isOrdinary c = true) →
      ∃ e, Regex.read (pattern ps).toList = some e ∧
        (∀ text held, e.Matches [] text [] held ↔ ∃ fields date rest,
          Dated ps fields date ∧ text = date ++ rest ∧ held = numbered 0 fields) ∧
        (codes ps ≤ 9 → ∀ fields date text, Dated ps fields date →
          substitute text (numbered 0 fields) (replacement ps).toList
            = [' '].intercalate (Part.all.map (valueOf fields)))) := by
  refine ⟨pieces_spelling h, ⟨Part.all.map (reference ps), replacement_eq ps, ?_⟩, fun hordinary => ?_⟩
  · exact List.forall₂_map_right_iff.2 (List.forall₂_same.2 fun p _ => refers_reference ps p)
  · exact ⟨_, read_pattern hordinary, fun text held => matches_pattern rfl,
      fun hcodes fields date text hd => substitute_replacement hd hcodes text⟩

/-- Of two hours the second one counts. -/
theorem references_to_last_codes_twoHours :
    ∃ ps e held, pieces "%H %d %H" "%H %d %H".toList = .ok ps ∧
      replacement ps = "1970 01 \\2 \\3 00 00" ∧
      Regex.read (pattern ps).toList = some e ∧ e.Matches [] "10 17 12, later".toList [] held ∧
      substitute "10 17 12, later".toList held (replacement ps).toList
        = "1970 01 17 12 00 00".toList := by
  have hps : pieces "%H %d %H" "%H %d %H".toList
      = .ok [.part .hour, .literal ' ', .part .day, .literal ' ', .part .hour] := by decide
  obtain ⟨-, -, hordinary⟩ := references_to_last_codes hps
  obtain ⟨e, he, hmatches, htime⟩ := hordinary (by
    intro c hc
    have hblank : c = ' ' := by simpa using hc
    rw [hblank]
    decide)
  have hdate : Dated [.part .hour, .literal ' ', .part .day, .literal ' ', .part .hour]
      [(.hour, ['1', '0']), (.day, ['1', '7']), (.hour, ['1', '2'])] "10 17 12".toList :=
    .part rfl (.literal (.part rfl (.literal (.part rfl .nil))))
  refine ⟨_, e, _, hps, by decide, he,
    (hmatches _ _).2 ⟨_, _, ", later".toList, hdate, by decide, rfl⟩, ?_⟩
  exact htime (by decide) _ _ _ hdate

/-- A parenthesis in the format opens a group of its own: the number of the month is that of the
    year's group. -/
theorem literal_parenthesis_moves_groups :
    ∃ ps, pieces "(%Y) %m" "(%Y) %m".toList = .ok ps ∧
      pattern ps = "^((....)) (..).*$" ∧ replacement ps = "\\1 \\2 01 00 00 00" ∧
      openings false 0 (pattern ps).toList = [1, 2, 10] ∧
      (openings false 0 (pattern ps).toList)[0]? ≠ some "^(".length ∧
      (openings false 0 (pattern ps).toList)[1]? = some "^(".length ∧
      (openings false 0 (pattern ps).toList)[1]? ≠ some "^((....)) ".length := by
  refine ⟨[.literal '(', .part .year, .literal ')', .literal ' ', .part .month], ?_⟩
  decide

end RowAwk.Compile.TimeFormat
