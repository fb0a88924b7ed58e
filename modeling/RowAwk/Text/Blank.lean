/-!
White space and the cutting of texts at characters.

A text is cut over its list of characters, so each cut is plain recursion on that list. Blanks are
those of the Unicode property `White_Space`, which is wider than the four that the core library
knows: headers may be laid out with any of them.
-/

namespace RowAwk.Text

/-- The 25 characters that have the Unicode property `White_Space`. -/
def isBlank (c : Char) : Bool :=
  let n := c.toNat
  (9 ≤ n && n ≤ 13) || n == 0x20 || n == 0x85 || n == 0xA0 || n == 0x1680
    || (0x2000 ≤ n && n ≤ 0x200A) || n == 0x2028 || n == 0x2029 || n == 0x202F
    || n == 0x205F || n == 0x3000

/-- The text without the characters of a class at its end. -/
def dropEndWhile (p : Char → Bool) (cs : List Char) : List Char :=
  (cs.reverse.dropWhile p).reverse

/-- The text without leading and trailing blanks. -/
def trim (cs : List Char) : List Char :=
  dropEndWhile isBlank (cs.dropWhile isBlank)

/-- The pieces between the separators of a text, in order: one more than it has separators, and
    empty where two of them meet. -/
def pieces (sep : Char → Bool) : List Char → List (List Char)
  | [] => [[]]
  | c :: cs =>
    if sep c then [] :: pieces sep cs
    else match pieces sep cs with
      | [] => [[c]]
      | piece :: rest => (c :: piece) :: rest

/-- The text before and after its first separator. -/
def cutAt? (sep : Char → Bool) : List Char → Option (List Char × List Char)
  | [] => none
  | c :: cs =>
    if sep c then some ([], cs)
    else (cutAt? sep cs).map fun (before, after) => (c :: before, after)

/-- The bytes that a text takes in UTF-8. -/
def byteLength : List Char → Nat
  | [] => 0
  | c :: cs => c.utf8Size + byteLength cs

/-! ### Facts about cutting -/

theorem pieces_ne_nil (sep : Char → Bool) : ∀ cs, pieces sep cs ≠ []
  | [] => by simp [pieces]
  | c :: cs => by
    rw [pieces]
    split
    · simp
    · split <;> simp

/-- Nothing but the one separator is lost in a cut. -/
theorem cutAt?_eq_some {sep : Char → Bool} : ∀ {cs before after : List Char},
    cutAt? sep cs = some (before, after) → ∃ c, sep c = true ∧ cs = before ++ c :: after
  | [], _, _, h => by simp [cutAt?] at h
  | c :: cs, before, after, h => by
    rw [cutAt?] at h
    split at h
    · next hc =>
      simp only [Option.some.injEq, Prod.mk.injEq] at h
      exact ⟨c, hc, by simp [← h.1, ← h.2]⟩
    · obtain ⟨⟨b, a⟩, hb, he⟩ := Option.map_eq_some_iff.1 h
      obtain ⟨d, hd, hcs⟩ := cutAt?_eq_some hb
      simp only [Prod.mk.injEq] at he
      exact ⟨d, hd, by simp [hcs, ← he.1, ← he.2]⟩

theorem length_lt_of_cutAt? {sep : Char → Bool} {cs before after : List Char}
    (h : cutAt? sep cs = some (before, after)) : after.length < cs.length := by
  obtain ⟨_, _, hcs⟩ := cutAt?_eq_some h
  simp only [hcs, List.length_append, List.length_cons]
  omega

end RowAwk.Text
