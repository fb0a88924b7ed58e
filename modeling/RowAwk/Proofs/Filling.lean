import RowAwk.Proofs.Headers

/-!
How templates are cut into holes and characters.

From the left, a hole is taken where one stands and a single character where none does. Holes are
written with few characters, so a character of another kind ends whatever looked like a hole before
it: what stands before such a character is cut without regard to what stands behind it.

    {var} = ({arg 0} {var});      ──▶      {var} and {var}; the blank in `{arg 0}` is no part of a hole
-/

open List

namespace RowAwk.Awk.Template

variable {cs : List Char}

/-- The holes as they are written, and the parts that they are. -/
inductive Hole : List Char → Part → Prop
  | name : Hole nameHole .name
  | argument {digits : List Char} {index : Nat} : Number.word64OfDigits? digits = some index →
      Hole (argumentHole ++ digits ++ ['\x7d'])
        (.argument index (argumentHole ++ digits ++ ['\x7d']))

/-- No hole stands at the head of a text. -/
def Holeless (cs : List Char) : Prop := ∀ h p rest, Hole h p → cs ≠ h ++ rest

/-- The characters that holes are written with. -/
def isHolePart (c : Char) : Bool := "\x7bvarg+\x7d".toList.contains c || c.isDigit

/-- The text that a part was cut from. -/
def Part.spelling : Part → List Char
  | .name => nameHole
  | .argument _ spelling => spelling
  | .char c => [c]

/-! ### How holes are written -/

/-- A number is written with digits, and a sign before them. -/
theorem isHolePart_of_word64OfDigits? {n : Nat} (h : Number.word64OfDigits? cs = some n) :
    ∀ c ∈ cs, isHolePart c = true ∧ c ≠ '\x7d' := by
  have digit : ∀ {c : Char}, c.isDigit = true → isHolePart c = true ∧ c ≠ '\x7d' := by
    intro c hc
    refine ⟨by rw [isHolePart, hc, Bool.or_true], ?_⟩
    rintro rfl
    exact absurd hc (by decide)
  obtain ⟨ds, hcs, -, hds, -⟩ := Number.word64OfDigits?_eq_some_iff.1 h
  intro c hc
  rcases hcs with rfl | rfl
  · exact digit (hds c hc)
  · rcases mem_cons.1 hc with rfl | hc
    · decide
    · exact digit (hds c hc)

section

variable {h h' cs r r' : List Char} {c : Char} {p p' : Part}

theorem Hole.isHolePart (hh : Hole h p) : ∀ c ∈ h, isHolePart c = true := by
  cases hh with
  | name => exact all_eq_true.1 (by decide)
  | argument hd =>
    intro c hc
    simp only [mem_append, mem_singleton] at hc
    rcases hc with (hc | hc) | rfl
    · have key : argumentHole.all Template.isHolePart = true := by decide
      exact all_eq_true.1 key c hc
    · exact (isHolePart_of_word64OfDigits? hd c hc).1
    · decide

theorem Hole.spelling_eq (hh : Hole h p) : p.spelling = h := by
  cases hh <;> rfl

theorem Hole.exists_cons (hh : Hole h p) : ∃ rest, h = '\x7b' :: rest := by
  cases hh <;> exact ⟨_, rfl⟩

/-- At most one hole stands at the head of a text. -/
theorem Hole.unique (hh : Hole h p) (hh' : Hole h' p') (he : h ++ r = h' ++ r') :
    h = h' ∧ p = p' ∧ r = r' := by
  cases hh with
  | name =>
    cases hh' with
    | name => exact ⟨rfl, rfl, append_cancel_left he⟩
    | argument => cases he
  | @argument digits index hd =>
    cases hh' with
    | name => cases he
    | @argument digits' index' hd' =>
      simp only [append_assoc, append_cancel_left_eq, singleton_append] at he
      -- the digits reach up to the first closing brace
      have cut : ∀ {ds r : List Char} {n : Nat}, Number.word64OfDigits? ds = some n →
          Text.cutAt? (· == '\x7d') (ds ++ '\x7d' :: r) = some (ds, r) := by
        intro ds r n hn
        refine Text.cutAt?_append (fun c hc => ?_) rfl r
        exact beq_eq_false_iff_ne.2 (isHolePart_of_word64OfDigits? hn c hc).2
      have hcut := cut (r := r) hd
      rw [he, cut hd'] at hcut
      cases hcut
      rw [hd] at hd'
      cases hd'
      exact ⟨rfl, rfl, rfl⟩

/-- A hole that is cut from a text ends before every character that is no part of holes. -/
theorem Hole.before_break (hh : Hole h p) (hc : Template.isHolePart c = false)
    (he : cs ++ c :: r = h ++ r') : ∃ rest, cs = h ++ rest ∧ r' = rest ++ c :: r := by
  rcases append_eq_append_iff.1 he with ⟨more, rfl, hmore⟩ | ⟨rest, rfl, hrest⟩
  · cases more with
    | nil => exact ⟨[], by rw [append_nil, append_nil], hmore.symm⟩
    | cons d more =>
      cases hmore
      have hd := hh.isHolePart c (mem_append_right _ mem_cons_self)
      rw [hc] at hd
      cases hd
  · exact ⟨rest, rfl, hrest⟩

end

/-! ### Cutting off the first part -/

variable {p : Part} {c : Char}

theorem argumentAt?_eq_some_iff {n : Nat} :
    argumentAt? cs = some (p, n) ↔
      ∃ digits index rest, Number.word64OfDigits? digits = some index ∧
        cs = argumentHole ++ digits ++ ['\x7d'] ++ rest ∧
        p = .argument index (argumentHole ++ digits ++ ['\x7d']) ∧
        n = argumentHole.length + digits.length + 1 := by
  have htake (digits rest : List Char) :
      (argumentHole ++ (digits ++ '\x7d' :: rest)).take (argumentHole.length + digits.length + 1)
        = argumentHole ++ digits ++ ['\x7d'] := by
    rw [show argumentHole ++ (digits ++ '\x7d' :: rest)
      = argumentHole ++ digits ++ ['\x7d'] ++ rest by simp]
    exact take_left' (by simp [Nat.add_assoc])
  rw [argumentAt?]
  constructor
  · intro h
    split at h
    · next hp =>
      obtain ⟨behind, rfl⟩ := List.isPrefixOf_iff_prefix.1 hp
      obtain ⟨⟨digits, rest⟩, hcut, h⟩ := Option.bind_eq_some_iff.1 h
      obtain ⟨index, hindex, h⟩ := Option.bind_eq_some_iff.1 h
      rw [drop_left] at hcut
      obtain ⟨d, hd, rfl⟩ := Text.cutAt?_eq_some hcut
      cases beq_iff_eq.1 hd
      cases h
      exact ⟨digits, index, rest, hindex, by simp, by rw [htake], rfl⟩
    · cases h
  · rintro ⟨digits, index, rest, hindex, rfl, rfl, rfl⟩
    have hcut : Text.cutAt? (· == '\x7d') (digits ++ '\x7d' :: rest) = some (digits, rest) := by
      refine Text.cutAt?_append (fun c hc => ?_) rfl rest
      exact beq_eq_false_iff_ne.2 (isHolePart_of_word64OfDigits? hindex c hc).2
    simp only [append_assoc, singleton_append]
    rw [if_pos (List.isPrefixOf_iff_prefix.2 (prefix_append _ _)), drop_left, hcut]
    simp [hindex, htake]

/-- The part at the head of a text is the hole that stands there, or else a character. -/
theorem first_cases (c : Char) (cs : List Char) :
    (∃ h p rest, Hole h p ∧ c :: cs = h ++ rest ∧ first c cs = (p, h.length - 1)) ∨
      (Holeless (c :: cs) ∧ first c cs = (.char c, 0)) := by
  rw [first]
  split
  · next hp =>
    obtain ⟨rest, hrest⟩ := List.isPrefixOf_iff_prefix.1 hp
    exact .inl ⟨nameHole, .name, rest, .name, hrest.symm, rfl⟩
  · next hp =>
    split
    · next p n ha =>
      obtain ⟨digits, index, rest, hindex, hcs, rfl, rfl⟩ := argumentAt?_eq_some_iff.1 ha
      refine .inl ⟨_, _, rest, .argument hindex, hcs, ?_⟩
      simp
    · next ha =>
      refine .inr ⟨fun h p rest hh he => ?_, rfl⟩
      cases hh with
      | name => exact hp (List.isPrefixOf_iff_prefix.2 ⟨rest, he.symm⟩)
      | argument hindex =>
        rw [argumentAt?_eq_some_iff.2 ⟨_, _, rest, hindex, he, rfl, rfl⟩] at ha
        cases ha

theorem parts_hole {h : List Char} (hh : Hole h p) (r : List Char) :
    parts (h ++ r) = p :: parts r := by
  obtain ⟨h', rfl⟩ := hh.exists_cons
  rw [cons_append, parts]
  rcases first_cases '\x7b' (h' ++ r) with ⟨g, q, rest, hg, he, hf⟩ | ⟨hn, -⟩
  · obtain ⟨rfl, rfl, rfl⟩ := hh.unique hg he
    rw [hf]
    simp
  · exact absurd rfl (hn _ p r hh)

theorem parts_char (h : Holeless (c :: cs)) : parts (c :: cs) = .char c :: parts cs := by
  rw [parts]
  rcases first_cases c cs with ⟨g, q, rest, hg, he, -⟩ | ⟨-, hf⟩
  · exact absurd he (h g q rest hg)
  · rw [hf]
    rfl

/-! ### Cutting texts -/

/-- From a text without holes at its head one character is cut, from another one the hole. -/
theorem parts_induction {motive : List Char → Prop} (nil : motive [])
    (hole : ∀ {h p} rest, Hole h p → motive rest → motive (h ++ rest))
    (char : ∀ {c} cs, Holeless (c :: cs) → motive cs → motive (c :: cs)) (cs : List Char) :
    motive cs := by
  induction hn : cs.length using Nat.strong_induction_on generalizing cs with
  | _ n ih =>
    subst hn
    cases cs with
    | nil => exact nil
    | cons c cs =>
      rcases first_cases c cs with ⟨h, p, rest, hh, he, -⟩ | ⟨hn, -⟩
      · rw [he]
        refine hole rest hh (ih rest.length ?_ rest rfl)
        obtain ⟨h', rfl⟩ := hh.exists_cons
        rw [he]
        simp only [length_append, length_cons]
        omega
      · exact char cs hn (ih cs.length (Nat.lt_succ_self _) cs rfl)

theorem holeless_cons (hc : c ≠ '\x7b') (cs : List Char) : Holeless (c :: cs) := by
  intro h p rest hh he
  obtain ⟨h', rfl⟩ := hh.exists_cons
  cases he
  exact hc rfl

/-- A text before a character that is no part of holes is cut without regard to what follows. -/
theorem parts_break (hc : isHolePart c = false) (r cs : List Char) :
    parts (cs ++ c :: r) = parts cs ++ .char c :: parts r := by
  induction cs using parts_induction with
  | nil =>
    rw [nil_append, parts_char (holeless_cons (by rintro rfl; cases hc) r)]
    simp [parts]
  | hole rest hh ih =>
    rw [append_assoc, parts_hole hh, parts_hole hh, ih, cons_append]
  | @char d cs hn ih =>
    have hlong : Holeless (d :: (cs ++ c :: r)) := by
      intro h p rest hh he
      have he : (d :: cs) ++ c :: r = h ++ rest := he
      obtain ⟨rest', hrest, -⟩ := hh.before_break hc he
      exact hn h p rest' hh hrest
    rw [cons_append, parts_char hlong, ih, parts_char hn, cons_append]

/-- What ends with a character that is no part of holes is cut on its own. -/
theorem parts_append_of_break (hc : isHolePart c = false) (cs r : List Char) :
    parts ((cs ++ [c]) ++ r) = parts (cs ++ [c]) ++ parts r := by
  rw [append_assoc, singleton_append, parts_break hc, parts_break hc, parts,
    append_assoc, singleton_append]

/-- The parts of a text spell it. -/
theorem flatMap_spelling (cs : List Char) : (parts cs).flatMap Part.spelling = cs := by
  induction cs using parts_induction with
  | nil => rw [parts]; rfl
  | hole rest hh ih => rw [parts_hole hh, flatMap_cons, hh.spelling_eq, ih]
  | char cs hn ih => rw [parts_char hn, flatMap_cons, ih]; rfl

/-- A brace opens no hole unless the next character goes on with one. -/
theorem holeless_brace (h : ∀ c ∈ cs.head?, c ≠ 'v' ∧ c ≠ 'a') : Holeless ('\x7b' :: cs) := by
  intro hole p rest hh he
  cases hh with
  | name =>
    cases he
    exact (h 'v' rfl).1 rfl
  | argument =>
    cases he
    exact (h 'a' rfl).2 rfl

/-- Whether each brace of a text stands before a character that no hole goes on with; `next` is
    the character behind the text. -/
def isSolid (next : Option Char) : List Char → Bool
  | [] => true
  | c :: cs =>
    (c != '\x7b' || (cs.head?.or next).all fun d => d != 'v' && d != 'a') && isSolid next cs

theorem isSolid_of_not_mem (h : '\x7b' ∉ cs) (next : Option Char) : isSolid next cs = true := by
  induction cs with
  | nil => rfl
  | cons c cs ih =>
    obtain ⟨hc, hcs⟩ : c ≠ '\x7b' ∧ '\x7b' ∉ cs :=
      ⟨fun he => h (he ▸ mem_cons_self), fun hm => h (mem_cons_of_mem c hm)⟩
    rw [isSolid, ih hcs, bne_iff_ne.2 hc]
    rfl

/-- A solid text is cut into its characters. -/
theorem parts_solid {r : List Char} (h : isSolid r.head? cs = true) :
    parts (cs ++ r) = cs.map .char ++ parts r := by
  induction cs with
  | nil => rfl
  | cons c cs ih =>
    rw [isSolid, Bool.and_eq_true, Bool.or_eq_true, bne_iff_ne] at h
    obtain ⟨hhead, htail⟩ := h
    have hn : Holeless (c :: (cs ++ r)) := by
      by_cases hc : c = '\x7b'
      · subst hc
        refine holeless_brace fun d hd => ?_
        rw [List.head?_append] at hd
        have hd' := (Option.all_eq_true _ _).1 (hhead.resolve_left fun hne => hne rfl) d hd
        simpa using hd'
      · exact holeless_cons hc _
    rw [cons_append, parts_char hn, ih htail]
    rfl

/-! ### Filling in -/

/-- Whether a part is filled in, where there are so many arguments. -/
def Part.isOpen (count : Nat) : Part → Bool
  | .name => true
  | .argument index _ => decide (index < count)
  | .char _ => false

theorem Part.fill_of_not_isOpen {name : List Char} {args : List (List Char)}
    (h : p.isOpen args.length = false) : p.fill name args = p.spelling := by
  cases p with
  | name => cases h
  | argument index spelling =>
    rw [isOpen, decide_eq_false_iff_not] at h
    have hnone : args[index]? = none := List.getElem?_eq_none (Nat.le_of_not_lt h)
    rw [fill, getD_eq_getElem?_getD, hnone]
    rfl
  | char => rfl

/-- A template with nothing to fill in stays as it is. -/
theorem expand_of_not_isOpen {template name : String} {args : List String}
    (h : ∀ p ∈ parts template.toList, p.isOpen args.length = false) :
    expand template name args = template := by
  have hfill : (parts template.toList).flatMap (Part.fill name.toList (args.map String.toList))
      = (parts template.toList).flatMap Part.spelling :=
    flatMap_congr fun p hp => Part.fill_of_not_isOpen (by rw [length_map]; exact h p hp)
  rw [expand, hfill, flatMap_spelling, String.ofList_toList]

end RowAwk.Awk.Template
