import RowAwk.Syntax.Cursor

/-!
What a cursor sees.

A cursor moves over all lexemes and counts the brackets on its way. `view` says what it will meet
without its moving: the lexemes from its position on, less the line breaks inside brackets. Each
thing a cursor is asked for is then a question to that list.

    next, eat, peek, location      the head of the view
    peekNth n                      entry `n` of the view, if no bracket stands before it

A cursor looks ahead with the depth it has. The place of entry `n` is wrong if a bracket comes first,
and a line break behind it: after `(` the one in `( ⏎ a` counts for a cursor that looks past both.
-/

open List

namespace RowAwk.Syntax

namespace Lexeme

/-- The lexemes without the line breaks inside brackets, for lexemes that `depth` brackets
    enclose. -/
def significant (depth : Nat) : List Lexeme → List Lexeme
  | [] => []
  | l :: ls =>
    let rest := significant (depthAfter depth l.token) ls
    if l.token = .newline ∧ 0 < depth then rest else l :: rest

/-- The lexemes of a source text that its grammar sees. -/
def scan (source : String) : Except SyntaxError (List Lexeme) :=
  (scanFrom 0 source.toList).map (significant 0)

theorem significant_dropWhile {depth : Nat} (hd : 0 < depth) (ls : List Lexeme) :
    significant depth (ls.dropWhile fun l => l.token == .newline) = significant depth ls := by
  induction ls with
  | nil => rfl
  | cons l ls ih =>
    by_cases hl : l.token = .newline
    · rw [dropWhile_cons_of_pos (by simpa using hl), ih, significant, if_pos ⟨hl, hd⟩, hl]
      rfl
    · rw [dropWhile_cons_of_neg (by simpa using hl)]

end Lexeme

namespace Cursor

open Lexeme (significant depthAfter)

/-- The lexemes that a cursor has before it. -/
def view (c : Cursor) : List Lexeme := significant c.depth (c.lexemes.drop c.position)

variable {ls : List Lexeme} {c : Cursor} {n : Nat} {t : Token}

theorem scan_eq_ok {source : String} :
    Lexeme.scan source = .ok ls ↔ ∃ c, start source = .ok c ∧ c.view = ls := by
  rw [Lexeme.scan, start]
  cases Lexeme.scanFrom 0 source.toList <;> simp [Except.map, view]

/-! ### Passing over line breaks -/

theorem drop_settle (c : Cursor) (i : Nat) :
    c.lexemes.drop (c.settle i) =
      if 0 < c.depth then (c.lexemes.drop i).dropWhile fun l => l.token == .newline
      else c.lexemes.drop i := by
  rw [settle]
  split
  · rw [← drop_drop]
    generalize c.lexemes.drop i = ls
    calc ls.drop (ls.takeWhile _).length = (ls.takeWhile _ ++ ls.dropWhile _).drop _ := by
          rw [takeWhile_append_dropWhile]
      _ = ls.dropWhile fun l => l.token == .newline := drop_left
  · rfl

theorem significant_settle (c : Cursor) (i : Nat) :
    significant c.depth (c.lexemes.drop (c.settle i)) =
      significant c.depth (c.lexemes.drop i) := by
  rw [drop_settle]
  split
  · rename_i hd
    exact Lexeme.significant_dropWhile hd _
  · rfl

/-- The lexeme at a place where no more line breaks are passed over is seen. -/
theorem significant_settled {i : Nat} {l : Lexeme} (h : c.lexemes[c.settle i]? = some l) :
    significant c.depth (c.lexemes.drop (c.settle i)) =
      l :: significant (depthAfter c.depth l.token) (c.lexemes.drop (c.settle i + 1)) := by
  obtain ⟨hlt, rfl⟩ := List.getElem?_eq_some_iff.1 h
  have hhead := drop_settle c i
  rw [drop_eq_getElem_cons hlt] at hhead ⊢
  rw [significant, if_neg]
  rintro ⟨hl, hd⟩
  have hne := head?_dropWhile_not (fun l => l.token == .newline) (c.lexemes.drop i)
  rw [if_pos hd] at hhead
  rw [← hhead, head?_cons] at hne
  simp [hl] at hne

theorem significant_end {i : Nat} (h : c.lexemes[i]? = none) :
    significant c.depth (c.lexemes.drop i) = [] := by
  rw [drop_eq_nil_of_le (List.getElem?_eq_none_iff.1 h), significant]

/-! ### Looking ahead -/

theorem exists_indexOf_eq_settle (c : Cursor) : ∀ n : Nat, ∃ i, c.indexOf n = c.settle i
  | 0 => ⟨c.position, rfl⟩
  | n + 1 => ⟨c.indexOf n + 1, rfl⟩

/-- What stands from the place of entry `n` on, if the tokens before it leave the depth as it is. -/
theorem significant_indexOf (h : ∀ l ∈ c.view.take n, depthAfter c.depth l.token = c.depth) :
    significant c.depth (c.lexemes.drop (c.indexOf n)) = c.view.drop n := by
  induction n with
  | zero => exact c.significant_settle c.position
  | succ n ih =>
    replace ih := ih fun l hl => h l ((take_sublist_take_left n.le_succ).subset hl)
    rw [indexOf, significant_settle, ← tail_drop (l := c.view), ← ih]
    cases hl : c.lexemes[c.indexOf n]? with
    | none =>
      rw [significant_end hl, significant_end]
      · rfl
      · exact List.getElem?_eq_none (Nat.le_succ_of_le (List.getElem?_eq_none_iff.1 hl))
    | some l =>
      obtain ⟨i, hi⟩ := c.exists_indexOf_eq_settle n
      rw [hi] at hl ih ⊢
      rw [significant_settled hl] at ih ⊢
      have hmem : l ∈ c.view.take (n + 1) := by
        refine mem_of_getElem? (i := n) ?_
        rw [getElem?_take_of_lt n.lt_succ_self, ← head?_drop, ← ih]
        rfl
      rw [h l hmem, tail_cons]

/-- The lexeme at the place of entry `n`, under the same condition. -/
theorem getElem?_indexOf (h : ∀ l ∈ c.view.take n, depthAfter c.depth l.token = c.depth) :
    c.lexemes[c.indexOf n]? = c.view[n]? := by
  rw [← head?_drop (l := c.view), ← significant_indexOf h]
  obtain ⟨i, hi⟩ := c.exists_indexOf_eq_settle n
  rw [hi]
  cases hl : c.lexemes[c.settle i]? with
  | none => rw [significant_end hl]; rfl
  | some l => rw [significant_settled hl]; rfl

theorem peekNth_eq (h : ∀ l ∈ c.view.take n, depthAfter c.depth l.token = c.depth) :
    c.peekNth n = c.view[n]?.map Lexeme.token := by
  rw [peekNth, getElem?_indexOf h]

theorem getElem?_indexOf_zero (c : Cursor) : c.lexemes[c.indexOf 0]? = c.view.head? := by
  rw [getElem?_indexOf (by simp), head?_eq_getElem?]

theorem peek_eq (c : Cursor) : c.peek = c.view.head?.map Lexeme.token := by
  rw [peek, peekNth, getElem?_indexOf_zero]

theorem location_eq (c : Cursor) :
    c.location = (c.view.head?.map Lexeme.span).getD ⟨c.stop, c.stop⟩ := by
  rw [location, getElem?_indexOf_zero]
  cases c.view.head? <;> rfl

/-! ### Moving on -/

theorem view_next {r : Read Lexeme c.left} (h : c.next = some r) :
    c.view = r.value :: r.rest.view := by
  rw [next] at h
  split at h
  · cases h
    have hs := significant_settled (c := c) (i := c.position) (List.getElem?_eq_getElem ‹_›)
    rwa [significant_settle] at hs
  · cases h

theorem next_eq_none : c.next = none ↔ c.view = [] := by
  rw [← head?_eq_none_iff, ← getElem?_indexOf_zero, List.getElem?_eq_none_iff, next]
  split <;> simp <;> omega

theorem exists_next {l : Lexeme} (h : c.view = l :: ls) :
    ∃ rest hr, c.next = some ⟨l, rest, hr⟩ ∧ rest.view = ls := by
  cases hn : c.next with
  | none => rw [next_eq_none.1 hn] at h; cases h
  | some r =>
    rw [view_next hn] at h
    cases h
    exact ⟨_, _, rfl, rfl⟩

theorem view_eat {r : Read Span c.left} (h : c.eat t = some r) :
    c.view = ⟨t, r.value⟩ :: r.rest.view := by
  rw [eat] at h
  split at h
  · rename_i ht
    obtain ⟨l, hl, rfl⟩ := Option.map_eq_some_iff.1 h
    have hv := view_next hl
    rw [peek_eq, hv] at ht
    cases ht
    exact hv
  · cases h

theorem exists_eat {span : Span} (h : c.view = ⟨t, span⟩ :: ls) :
    ∃ rest hr, c.eat t = some ⟨span, rest, hr⟩ ∧ rest.view = ls := by
  obtain ⟨rest, hr, hn, hv⟩ := exists_next h
  refine ⟨rest, hr, ?_, hv⟩
  rw [eat, if_pos (by rw [peek_eq, h]; rfl), hn]
  rfl

theorem eat_eq_none : c.eat t = none ↔ c.peek ≠ some t := by
  refine ⟨fun h hp => ?_, fun h => if_neg h⟩
  rw [peek_eq] at hp
  obtain ⟨⟨_, span⟩, hl, rfl⟩ := Option.map_eq_some_iff.1 hp
  obtain ⟨ls, hv⟩ := head?_eq_some_iff.1 hl
  obtain ⟨_, _, he, -⟩ := exists_eat hv
  rw [h] at he
  cases he

end Cursor

end RowAwk.Syntax
