import RowAwk.Proofs.Placements

/-!
What the trees of source texts look like.

Not every tree can be written down: names have the form of names, a number is spelt with a digit
first, and a chain of `and` or `or` has at least two operands. `WellFormed` says so, of lexemes and
of trees, and whatever is read from a source text is well formed.

    text  ──scan──▶  well formed lexemes  ──grammar──▶  well formed trees
-/

open List

namespace RowAwk

namespace Syntax

variable {ls : List Lexeme}

/-! ### Well formed trees -/

/-- A number starts with a digit. -/
def Literal.Spelt : Literal → Prop
  | .number spelling => ∃ c cs, spelling.toList = c :: cs ∧ c.isDigit = true
  | _ => True

theorem Literal.spelt_string (v : String) : (Literal.string v).Spelt := trivial

theorem Literal.spelt_digit : ∀ d ∈ ["0", "1", "2"], (Literal.number d).Spelt := by
  intro d hd
  simp only [mem_cons, not_mem_nil, or_false] at hd
  rcases hd with rfl | rfl | rfl
  · exact ⟨'0', [], rfl, rfl⟩
  · exact ⟨'1', [], rfl, rfl⟩
  · exact ⟨'2', [], rfl, rfl⟩

def Token.WellFormed : Token → Prop
  | .name n => isName n = true
  | .literal value => value.Spelt
  | _ => True

namespace Expr

variable (P : Literal → Prop)

mutual

/-- Names are names, literals have a property, and chains have two operands or more. -/
def WellFormed : Expr → Prop
  | .literal _ value => P value
  | .name _ n => isName n = true
  | .tuple _ items => AllWellFormed items
  | .list _ items => AllWellFormed items
  | .call _ function args keywords =>
    isName function.text = true ∧ AllWellFormed args ∧ KeywordsWellFormed keywords
  | .subscript _ base index => WellFormed base ∧ WellFormed index
  | .unary _ _ operand => WellFormed operand
  | .binary _ _ lhs rhs => WellFormed lhs ∧ WellFormed rhs
  | .boolean _ _ operands => 2 ≤ operands.length ∧ AllWellFormed operands
  | .compare _ _ lhs rhs => WellFormed lhs ∧ WellFormed rhs
  | .conditional _ test yes no => WellFormed test ∧ WellFormed yes ∧ WellFormed no

def AllWellFormed : List Expr → Prop
  | [] => True
  | e :: es => WellFormed e ∧ AllWellFormed es

def KeywordsWellFormed : List (KeywordArg Expr) → Prop
  | [] => True
  | ⟨_, e⟩ :: rest => WellFormed e ∧ KeywordsWellFormed rest

end

end Expr

/-- A statement is well formed if the name it binds and its value are. -/
def Stmt.WellFormed (P : Literal → Prop) : Stmt → Prop
  | .assign target e => isName target.text = true ∧ e.WellFormed P
  | .value e => e.WellFormed P

/-! ### Lexemes -/

namespace Lexeme

variable {ls : List Lexeme}

/-- Lexemes that a scan may give. -/
def AllWellFormed (ls : List Lexeme) : Prop := ∀ l ∈ ls, l.token.WellFormed

variable {l : Lexeme} {c : Char} {cs : List Char} {token : Token} {source : String}

theorem AllWellFormed.tail (h : AllWellFormed (l :: ls)) : AllWellFormed ls :=
  fun m hm => h m (mem_cons_of_mem l hm)

theorem AllWellFormed.head (h : AllWellFormed (l :: ls)) : l.token.WellFormed :=
  h l mem_cons_self

theorem isName_takeWhile (hc : isNameStart c = true) (cs : List Char) :
    isName (String.ofList (c :: cs.takeWhile isNamePart)) = true := by
  rw [isName, String.toList_ofList]
  simp only [hc, Bool.true_and, all_eq_true]
  exact all_eq_true.1 all_takeWhile

theorem wellFormed_ofWord {word : String} (h : isName word = true) :
    (Token.ofWord word).WellFormed := by
  rw [Token.ofWord]
  split
  · trivial
  · split
    · trivial
    · split
      · trivial
      · exact h

/-- The tokens that a text can start with. A number and a word are all that is taken. -/
theorem first_cases {n : Nat} (h : first c cs = (.token token, n)) :
    (c.isDigit = true ∧ n = numberTail cs ∧
        token = .literal (.number (String.ofList (c :: cs.take n)))) ∨
      (isNameStart c = true ∧ cs.take n = cs.takeWhile isNamePart ∧
        token = .ofWord (String.ofList (c :: cs.takeWhile isNamePart))) ∨
      (∃ value, token = .literal (.string value)) ∨ (∃ s, token = .symbol s) ∨
      token = .newline := by
  rw [first] at h
  split at h
  · cases h
  split at h
  · cases h
  split at h
  · cases h
    exact .inr (.inr (.inr (.inr rfl)))
  split at h
  · rename_i hd
    cases h
    exact .inl ⟨hd, rfl, rfl⟩
  split at h
  · split at h
    · cases h
      exact .inr (.inr (.inl ⟨_, rfl⟩))
    · cases h
  split at h
  · rename_i hs
    cases h
    exact .inr (.inl ⟨hs, (prefix_iff_eq_take.1 (List.takeWhile_prefix _)).symm, rfl⟩)
  split at h
  · cases h
    exact .inr (.inr (.inr (.inl ⟨_, rfl⟩)))
  · cases h

theorem wellFormed_first (h : (first c cs).1 = .token token) : token.WellFormed := by
  rcases first_cases (Prod.ext h rfl) with
    ⟨hd, -, rfl⟩ | ⟨hs, -, rfl⟩ | ⟨value, rfl⟩ | ⟨s, rfl⟩ | rfl
  · exact ⟨c, _, String.toList_ofList, hd⟩
  · exact wellFormed_ofWord (isName_takeWhile hs cs)
  · trivial
  · trivial
  · trivial

/-- Every token of a scan stands at the head of some text. -/
theorem exists_first_of_mem {start : Nat} (h : scanFrom start cs = .ok ls) (hl : l ∈ ls) :
    ∃ c rest, (first c rest).1 = .token l.token := by
  induction start, cs using scanFrom.induct generalizing ls with
  | case1 start =>
    rw [scanFrom] at h
    cases h
    cases hl
  | case2 start c cs piece text span hp =>
    rename_i ih
    rw [scanFrom, show (first c cs).1 = .skipped from hp] at h
    exact ih h hl
  | case3 start c cs piece text span token hp =>
    rename_i ih
    rw [scanFrom, show (first c cs).1 = .token token from hp] at h
    obtain ⟨rest, hr, rfl⟩ := except_map_eq_ok.1 h
    rcases mem_cons.1 hl with rfl | hl
    · exact ⟨c, cs, hp⟩
    · exact ih hr hl
  | case4 start c cs piece text span hp =>
    rw [scanFrom, show (first c cs).1 = .unknown from hp] at h
    cases h

theorem significant_sublist : ∀ (depth : Nat) (ls : List Lexeme), (significant depth ls).Sublist ls
  | _, [] => .slnil
  | depth, l :: ls => by
    rw [significant]
    split
    · exact (significant_sublist _ ls).cons l
    · exact (significant_sublist _ ls).cons_cons l

theorem exists_first_of_mem_scan (h : scan source = .ok ls) (hl : l ∈ ls) :
    ∃ c rest, (first c rest).1 = .token l.token := by
  obtain ⟨all, hs, rfl⟩ := except_map_eq_ok.1 h
  exact exists_first_of_mem hs ((significant_sublist 0 all).subset hl)

/-- A scan gives well formed lexemes. -/
theorem wellFormed_scan (h : scan source = .ok ls) : AllWellFormed ls := by
  intro l hl
  obtain ⟨c, rest, hf⟩ := exists_first_of_mem_scan h hl
  exact wellFormed_first hf

end Lexeme

/-! ### Trees on lexemes -/

open Lexeme (AllWellFormed)

variable {P : Literal → Prop} {stmts : List Stmt} {source : String}

theorem allWellFormed_pieces {pieces : List Piece} (hsub : ∀ p ∈ pieces, p.1 ⊆ ls)
    (hls : AllWellFormed ls) (h : ∀ p ∈ pieces, AllWellFormed p.1 → p.2.WellFormed P) :
    Expr.AllWellFormed P (pieces.map Prod.snd) := by
  induction pieces with
  | nil => trivial
  | cons p pieces ih =>
    rw [forall_mem_cons] at hsub h
    exact ⟨h.1 fun l hl => hls l (hsub.1 hl), ih hsub.2 h.2⟩

theorem keywordsWellFormed_pieces {named : List NamedPiece} (hsub : ∀ k ∈ named, k.lexemes ⊆ ls)
    (hls : AllWellFormed ls) (h : ∀ k ∈ named, AllWellFormed k.value.1 → k.value.2.WellFormed P) :
    Expr.KeywordsWellFormed P (named.map NamedPiece.keyword) := by
  induction named with
  | nil => trivial
  | cons k named ih =>
    rw [forall_mem_cons] at hsub h
    refine ⟨h.1 fun l hl => hls l (hsub.1 ?_), ih hsub.2 h.2⟩
    exact mem_cons_of_mem _ (mem_cons_of_mem _ hl)

/-- What is placed on well formed lexemes is well formed. -/
theorem Places.wellFormed {rule : Rule} {e : Expr} (h : Places rule ls e) (hls : AllWellFormed ls) :
    e.WellFormed Literal.Spelt := by
  induction h with
  | item _ ih | unconditional _ ih | link _ ih | positive _ ih | uncompared _ ih | operand _ ih
  | unsigned _ ih | base _ ih | bare _ ih => exact ih hls
  | tuple _ _ hs ih ihp =>
    obtain ⟨hfirst, hrest⟩ := forall_mem_append.1 hls
    exact ⟨ih hfirst, allWellFormed_pieces hs.subset_pieces (AllWellFormed.tail hrest) ihp⟩
  | conditional _ _ _ ihy iht ihn =>
    obtain ⟨hyes, hrest⟩ := forall_mem_append.1 hls
    obtain ⟨htest, hno⟩ := forall_mem_append.1 (AllWellFormed.tail hrest)
    exact ⟨iht htest, ihy hyes, ihn (AllWellFormed.tail hno)⟩
  | @chain op ls e rest pieces _ _ hne hc ih ihp =>
    obtain ⟨hfirst, hrest⟩ := forall_mem_append.1 hls
    refine ⟨?_, ih hfirst, allWellFormed_pieces hc.subset_pieces hrest ihp⟩
    rw [length_cons, length_map]
    exact Nat.succ_le_succ (length_pos_iff.2 hne)
  | not _ ih | sign _ _ _ ih => exact ih (AllWellFormed.tail hls)
  | compare _ _ _ ihl ihr =>
    obtain ⟨hleft, hrest⟩ := forall_mem_append.1 hls
    exact ⟨ihl hleft, ihr (forall_mem_append.1 hrest).2⟩
  | binary _ _ _ ihl ihr | power _ _ ihl ihr =>
    obtain ⟨hleft, hright⟩ := forall_mem_append.1 hls
    exact ⟨ihl hleft, ihr (AllWellFormed.tail hright)⟩
  | call _ _ _ hs ihf iha ihk =>
    obtain ⟨hname, hrest⟩ := forall_mem_append.1 hls
    have hargs := (forall_mem_append.1 (AllWellFormed.tail hrest)).1
    obtain ⟨ha, hk⟩ := hs.subset_arguments
    exact ⟨ihf hname, allWellFormed_pieces ha hargs iha, keywordsWellFormed_pieces hk hargs ihk⟩
  | subscript _ _ ihb ihi =>
    obtain ⟨hbase, hrest⟩ := forall_mem_append.1 hls
    exact ⟨ihb hbase, ihi (forall_mem_append.1 (AllWellFormed.tail hrest)).1⟩
  | name n span | literal v span => exact hls.head
  | empty => trivial
  | group _ ih => exact ih (forall_mem_append.1 hls.tail).1
  | list _ hs ihp =>
    exact allWellFormed_pieces hs.subset_pieces (forall_mem_append.1 hls.tail).1 ihp

theorem PlacesStmt.wellFormed {stmt : Stmt} (h : PlacesStmt ls stmt) (hls : AllWellFormed ls) :
    stmt.WellFormed Literal.Spelt := by
  cases h with
  | value h => exact h.wellFormed hls
  | assign h => exact ⟨hls.head, h.wellFormed hls.tail.tail⟩

theorem PlacesProgram.wellFormed (h : PlacesProgram ls stmts) (hls : AllWellFormed ls) :
    ∀ s ∈ stmts, s.WellFormed Literal.Spelt := by
  induction h with
  | nil => exact forall_mem_nil _
  | separator _ _ ih => exact ih hls.tail
  | last h => exact forall_mem_singleton.2 (h.wellFormed hls)
  | cons h _ _ ih =>
    obtain ⟨hfirst, hrest⟩ := forall_mem_append.1 hls
    exact forall_mem_cons.2 ⟨h.wellFormed hfirst, ih (AllWellFormed.tail hrest)⟩

/-- The expression that a source text is is well formed. -/
theorem wellFormed_parse {e : Expr} (h : Expr.parse source = .ok e) :
    e.WellFormed Literal.Spelt := by
  obtain ⟨ls, hl, hp⟩ := places_parse h
  exact hp.wellFormed (Lexeme.wellFormed_scan hl)

/-- The statements of a source text are well formed. -/
theorem wellFormed_parseAll (h : Stmt.parseAll source = .ok stmts) :
    ∀ s ∈ stmts, s.WellFormed Literal.Spelt := by
  obtain ⟨ls, hl, hp⟩ := places_parseAll h
  exact hp.wellFormed (Lexeme.wellFormed_scan hl)

end Syntax

end RowAwk
