import Mathlib.Data.List.DropRight
import RowAwk.Proofs.Recognition

/-!
How the statements of a source are laid out does not matter.

A line break ends a statement as a semicolon does, unless brackets are open around it; then it is a
blank. Several separators are as good as one, and at either end there may be any number of them.
`tidied` takes all these liberties out of the tokens of a source:

    x = f(a,⏎      tokens      x = f ( a , ⏎ b ) ⏎ ⏎ ; y ⏎
          b)
                   tidied      x = f ( a , b ) ; y
    ; y            runs        x = f ( a , b )      y

What is left after that are the runs of tokens between separators. They are those of the source
itself, and each of them has to be a statement.
-/

open List

namespace RowAwk.Syntax

open Grammar (isSeparator)

/-! ### The tokens that count -/

def semicolon : Token := .symbol .semicolon

/-- A semicolon for a line break, and any other token as it is. -/
def asSemicolon (t : Token) : Token := if t = .newline then semicolon else t

/-- The tokens with one semicolon for several that follow each other. -/
def collapsed : List Token → List Token
  | [] => []
  | t :: ts =>
    if t = semicolon ∧ ts.head? = some semicolon then collapsed ts else t :: collapsed ts

/-- The tokens without semicolons at either end. -/
def trimmed (ts : List Token) : List Token :=
  (ts.dropWhile (· = semicolon)).rdropWhile (· = semicolon)

/-- The tokens of a source without the liberties of its layout. -/
def tidied (ts : List Token) : List Token := trimmed (collapsed ((unbroken 0 ts).map asSemicolon))

/-! ### Runs of tokens between separators -/

/-- Whether the first token is no separator. -/
def startsRun (ts : List Token) : Bool := ts.head?.any (!isSeparator ·)

/-- The longest stretches of tokens without separators. -/
def runs : List Token → List (List Token)
  | [] => []
  | t :: ts =>
    if isSeparator t then runs ts
    else if startsRun ts then (runs ts).modifyHead (t :: ·)
    else [t] :: runs ts

section

variable {t u : Token} {ts us run : List Token}

theorem runs_separator (ht : isSeparator t = true) (ts : List Token) :
    runs (t :: ts) = runs ts := by
  rw [runs, if_pos ht]

/-- What comes behind a token matters only by its runs and by how it starts. -/
theorem runs_cons_congr (hr : runs ts = runs us) (hs : startsRun ts = startsRun us) (t : Token) :
    runs (t :: ts) = runs (t :: us) := by
  rw [runs, runs, hr, hs]

/-- A stretch without separators is a run, if it is not empty and does not go on. -/
theorem runs_append (hne : run ≠ []) (hrun : ∀ t ∈ run, isSeparator t = false)
    (hts : startsRun ts = false) : runs (run ++ ts) = run :: runs ts := by
  induction run with
  | nil => exact absurd rfl hne
  | cons t run ih =>
    rw [forall_mem_cons] at hrun
    rw [cons_append, runs, if_neg (by rw [hrun.1]; exact Bool.false_ne_true)]
    cases run with
    | nil => rw [nil_append, hts]; rfl
    | cons u run =>
      have hu : startsRun (u :: run ++ ts) = true := by
        rw [cons_append, startsRun, List.head?_cons, Option.any_some, (hrun.2 u (by simp))]
        rfl
      rw [hu, if_pos rfl, ih (cons_ne_nil u run) hrun.2]
      rfl

theorem runs_append_separators (hus : Separators us) (ts : List Token) :
    runs (ts ++ us) = runs ts ∧ startsRun (ts ++ us) = startsRun ts := by
  induction ts with
  | nil =>
    induction us with
    | nil => exact ⟨rfl, rfl⟩
    | cons u us ih =>
      rw [Separators, forall_mem_cons] at hus
      refine ⟨?_, by simp [startsRun, hus.1]⟩
      rw [nil_append, runs_separator hus.1]
      exact (ih hus.2).1
  | cons t ts ih => exact ⟨runs_cons_congr ih.1 ih.2 t, rfl⟩

theorem runs_separators_append (hus : Separators us) (ts : List Token) :
    runs (us ++ ts) = runs ts := by
  induction us with
  | nil => rfl
  | cons u us ih =>
    rw [Separators, forall_mem_cons] at hus
    rw [cons_append, runs_separator hus.1, ih hus.2]

theorem isSeparator_asSemicolon (t : Token) : isSeparator (asSemicolon t) = isSeparator t := by
  rw [asSemicolon]
  split
  · rename_i ht
    rw [ht]
    rfl
  · rfl

/-- Which separators there are is of no account. -/
theorem runs_asSemicolon (ts : List Token) :
    runs (ts.map asSemicolon) = runs ts ∧ startsRun (ts.map asSemicolon) = startsRun ts := by
  induction ts with
  | nil => exact ⟨rfl, rfl⟩
  | cons t ts ih =>
    have hstarts : startsRun ((t :: ts).map asSemicolon) = startsRun (t :: ts) := by
      simp [startsRun, isSeparator_asSemicolon]
    refine ⟨?_, hstarts⟩
    rw [map_cons, runs_cons_congr ih.1 ih.2]
    cases ht : isSeparator t with
    | true => rw [runs_separator ((isSeparator_asSemicolon t).trans ht), runs_separator ht]
    | false =>
      have hsame : asSemicolon t = t := by
        rw [asSemicolon, if_neg]
        rintro rfl
        cases ht
      rw [hsame]

/-- How many separators there are is of no account. -/
theorem runs_collapsed (ts : List Token) :
    runs (collapsed ts) = runs ts ∧ (collapsed ts).head? = ts.head? := by
  induction ts with
  | nil => exact ⟨rfl, rfl⟩
  | cons t ts ih =>
    rw [collapsed]
    split
    · rename_i h
      rw [h.1, runs_separator rfl, ih.1, ih.2, h.2]
      exact ⟨rfl, rfl⟩
    · refine ⟨runs_cons_congr ih.1 ?_ t, rfl⟩
      rw [startsRun, startsRun, ih.2]

theorem separators_of_semicolons (h : ∀ t ∈ ts, t = semicolon) : Separators ts := by
  intro t ht
  rw [h t ht]
  rfl

theorem runs_trimmed (ts : List Token) : runs (trimmed ts) = runs ts := by
  have hlead : Separators (ts.takeWhile (· = semicolon)) :=
    separators_of_semicolons fun t ht => by simpa using mem_takeWhile_imp ht
  generalize hrest : ts.dropWhile (· = semicolon) = rest
  have htrail : Separators (rest.rtakeWhile (· = semicolon)) :=
    separators_of_semicolons fun t ht => by simpa using mem_rtakeWhile_imp ht
  calc runs (trimmed ts) = runs (rest.rdropWhile (· = semicolon)) := by rw [trimmed, hrest]
    _ = runs (rest.rdropWhile (· = semicolon) ++ rest.rtakeWhile (· = semicolon)) :=
      (runs_append_separators htrail _).1.symm
    _ = runs rest := by rw [rdropWhile_append_rtakeWhile]
    _ = runs (ts.takeWhile (· = semicolon) ++ ts.dropWhile (· = semicolon)) := by
      rw [runs_separators_append hlead, hrest]
    _ = runs ts := by rw [takeWhile_append_dropWhile]

theorem runs_tidied (ts : List Token) : runs (tidied ts) = runs (unbroken 0 ts) := by
  rw [tidied, runs_trimmed, (runs_collapsed _).1, (runs_asSemicolon _).1]

end

/-! ### Statements are runs -/

variable {ts : List Token} {stmts : List Stmt}

theorem mem_listed {items : List (List Token)} (h : Listed items ts) {t : Token} (ht : t ∈ ts) :
    t = comma ∨ ∃ item ∈ items, t ∈ item := by
  induction h with
  | none => cases ht
  | last => exact .inr ⟨_, mem_singleton_self _, ht⟩
  | more _ ih =>
    rcases mem_append.1 ht with ht | ht
    · exact .inr ⟨_, mem_cons_self, ht⟩
    · rcases mem_cons.1 ht with ht | ht
      · exact .inl ht
      · obtain h | ⟨item, hi, hti⟩ := ih ht
        · exact .inl h
        · exact .inr ⟨item, mem_cons_of_mem _ hi, hti⟩

/-- Tokens none of which ends a statement. -/
def Unseparated (ts : List Token) : Prop := ∀ t ∈ ts, isSeparator t = false

section

variable {t : Token} {ts us : List Token}

theorem unseparated_append : Unseparated (ts ++ us) ↔ Unseparated ts ∧ Unseparated us :=
  forall_mem_append

theorem unseparated_cons : Unseparated (t :: ts) ↔ isSeparator t = false ∧ Unseparated ts :=
  forall_mem_cons

theorem Unseparated.wrapped (h : Unseparated ts) {left right : Token}
    (hl : isSeparator left = false) (hr : isSeparator right = false) :
    Unseparated (left :: (ts ++ [right])) :=
  unseparated_cons.2 ⟨hl, unseparated_append.2 ⟨h, forall_mem_singleton.2 hr⟩⟩

theorem Listed.unseparated {items : List (List Token)} (h : Listed items ts)
    (hi : ∀ item ∈ items, Unseparated item) : Unseparated ts := by
  intro t ht
  obtain rfl | ⟨item, hm, ht⟩ := mem_listed h ht
  · rfl
  · exact hi item hm t ht

variable {parts : List Part} {stmt : Stmt}

theorem Listed.unseparated_parts (h : Listed (parts.map Prod.fst) ts)
    (hp : ∀ p ∈ parts, Unseparated p.1) : Unseparated ts :=
  h.unseparated (forall_mem_map.2 hp)

theorem unseparated_linked {word : Keyword} (hp : ∀ p ∈ parts, Unseparated p.1) :
    Unseparated (linked word parts) := by
  intro t ht
  obtain ⟨p, hm, ht⟩ := mem_flatMap.1 ht
  exact unseparated_cons.2 ⟨rfl, hp p hm⟩ t ht

theorem unseparated_arguments {args : List Part} {named : List NamedPart}
    (ha : ∀ p ∈ args, Unseparated p.1) (hn : ∀ k ∈ named, Unseparated k.2.1) :
    ∀ item ∈ argumentTokens args named, Unseparated item := by
  rw [argumentTokens, forall_mem_append, forall_mem_map, forall_mem_map]
  exact ⟨ha, fun k hk => unseparated_cons.2 ⟨rfl, unseparated_cons.2 ⟨rfl, hn k hk⟩⟩⟩

theorem unseparated_compare (op : CompareOp) : Unseparated op.tokens := by
  cases op <;> simp [Unseparated, CompareOp.tokens, isSeparator]

theorem eq_of_isSeparator (h : isSeparator t = true) : t = semicolon ∨ t = .newline := by
  unfold isSeparator at h
  split at h
  · exact .inl rfl
  · exact .inr rfl
  · cases h

theorem isSeparator_of_op? {l : Grammar.Level} {op : BinaryOp} (h : l.op? t = some op) :
    isSeparator t = false := by
  by_contra hs
  rcases eq_of_isSeparator (Bool.not_eq_false _ ▸ hs) with rfl | rfl <;> cases l <;> cases h

theorem isSeparator_of_sign? {op : UnaryOp} (h : sign? t = some op) : isSeparator t = false := by
  by_contra hs
  rcases eq_of_isSeparator (Bool.not_eq_false _ ▸ hs) with rfl | rfl <;> cases h

/-- No expression holds a separator, however deep. -/
theorem Derives.unseparated {rule : Rule} {e : Expr} (h : Derives rule ts e) : Unseparated ts := by
  induction h with
  | item _ ih | unconditional _ ih | link _ ih | positive _ ih | uncompared _ ih | operand _ ih
  | unsigned _ ih | base _ ih | bare _ ih => exact ih
  | tuple _ _ hl ih ihp =>
    exact unseparated_append.2 ⟨ih, unseparated_cons.2 ⟨rfl, hl.unseparated_parts ihp⟩⟩
  | conditional _ _ _ ihy iht ihn =>
    refine unseparated_append.2 ⟨ihy, unseparated_cons.2 ⟨rfl, unseparated_append.2 ⟨iht, ?_⟩⟩⟩
    exact unseparated_cons.2 ⟨rfl, ihn⟩
  | chain _ _ _ ih ihp => exact unseparated_append.2 ⟨ih, unseparated_linked ihp⟩
  | not _ ih => exact unseparated_cons.2 ⟨rfl, ih⟩
  | compare _ _ ihl ihr =>
    exact unseparated_append.2 ⟨ihl, unseparated_append.2 ⟨unseparated_compare _, ihr⟩⟩
  | binary ho _ _ ihl ihr =>
    exact unseparated_append.2 ⟨ihl, unseparated_cons.2 ⟨isSeparator_of_op? ho, ihr⟩⟩
  | sign ho _ ih => exact unseparated_cons.2 ⟨isSeparator_of_sign? ho, ih⟩
  | power _ _ ihb ihe => exact unseparated_append.2 ⟨ihb, unseparated_cons.2 ⟨rfl, ihe⟩⟩
  | call _ _ _ hl ihf iha ihn =>
    have hargs := hl.unseparated (unseparated_arguments iha ihn)
    exact unseparated_append.2 ⟨ihf, hargs.wrapped rfl rfl⟩
  | subscript _ _ ihb ihi => exact unseparated_append.2 ⟨ihb, ihi.wrapped rfl rfl⟩
  | name n | literal v => exact forall_mem_singleton.2 rfl
  | empty => exact Unseparated.wrapped (forall_mem_nil _) rfl rfl
  | group _ ih => exact ih.wrapped rfl rfl
  | list _ hl ihp => exact (hl.unseparated_parts ihp).wrapped rfl rfl

theorem DerivesStmt.unseparated (h : DerivesStmt ts stmt) : Unseparated ts := by
  cases h with
  | value h => exact h.unseparated
  | assign h => exact unseparated_cons.2 ⟨rfl, unseparated_cons.2 ⟨rfl, h.unseparated⟩⟩

theorem DerivesStmt.ne_nil (h : DerivesStmt ts stmt) : ts ≠ [] := by
  rintro rfl
  have hnil : ([] : List Lexeme).map Lexeme.token = [] := rfl
  obtain ⟨l, us, hl, -⟩ := Grammar.head_derivesStmt h hnil
  cases hl

/-- The first run of a program and its first statement. -/
theorem runs_statement (h : DerivesStmt ts stmt) (hus : startsRun us = false) :
    runs (ts ++ us) = ts :: runs us :=
  runs_append h.ne_nil h.unseparated hus

theorem startsRun_separators {seps : List Token} (hs : Separators seps) (hne : seps ≠ [])
    (ts : List Token) : startsRun (seps ++ ts) = false := by
  cases seps with
  | nil => exact absurd rfl hne
  | cons t seps => simp [startsRun, hs t mem_cons_self]

end

/-- The runs of a derived program are derived, each to its statement. -/
theorem DerivesProgram.runs (h : DerivesProgram ts stmts) :
    List.Forall₂ DerivesStmt (runs ts) stmts := by
  cases h with
  | blank hs =>
    have hnone := runs_separators_append hs []
    rw [append_nil] at hnone
    rw [hnone]
    exact .nil
  | @statements lead head stmt trail more hl hh hm ht =>
    rw [runs_separators_append hl]
    induction more generalizing head stmt with
    | nil =>
      rw [flatMap_nil, nil_append, (runs_append_separators ht head).1,
        ← append_nil head, runs_statement hh rfl]
      exact .cons hh .nil
    | cons m more ih =>
      obtain ⟨⟨hseps, hne, hstmt⟩, hmore⟩ := forall_mem_cons.1 hm
      rw [flatMap_cons, append_assoc, append_assoc,
        runs_statement hh (startsRun_separators hseps hne _), runs_separators_append hseps]
      exact .cons hh (ih hstmt hmore)

/-- A token that is no separator starts a run, up to a separator or to the end. -/
theorem exists_run {t : Token} (ht : isSeparator t = false) (ts : List Token) :
    ∃ run after, t :: ts = run ++ after ∧ run ≠ [] ∧ Unseparated run ∧
      startsRun after = false := by
  refine ⟨(t :: ts).takeWhile (!isSeparator ·), (t :: ts).dropWhile (!isSeparator ·),
    takeWhile_append_dropWhile.symm, ?_, fun u hu => ?_, ?_⟩
  · simp [ht]
  · simpa using mem_takeWhile_imp hu
  · have hhead := List.head?_dropWhile_not (!isSeparator ·) (t :: ts)
    rw [startsRun]
    cases hd : ((t :: ts).dropWhile (!isSeparator ·)).head? with
    | none => rfl
    | some u => simpa [hd] using hhead

/-- Tokens whose runs are derived are a derived program. -/
theorem derivesProgram_of_runs (h : List.Forall₂ DerivesStmt (runs ts) stmts) :
    DerivesProgram ts stmts := by
  -- by the number of tokens, one separator or one run at a time
  induction hn : ts.length using Nat.strong_induction_on generalizing ts stmts with
  | h n ih =>
    cases ts with
    | nil =>
      cases h
      exact .blank (forall_mem_nil _)
    | cons t ts =>
      cases ht : isSeparator t with
      | true =>
        rw [runs_separator ht] at h
        exact (ih ts.length (by simp [← hn]) h rfl).separator ht
      | false =>
        obtain ⟨run, after, heq, hne, hrun, hafter⟩ := exists_run ht ts
        rw [heq] at hn h ⊢
        rw [runs_append hne hrun hafter] at h
        obtain - | ⟨hstmt, hmore⟩ := h
        cases after with
        | nil =>
          cases hmore
          rw [append_nil]
          exact .single hstmt
        | cons u after =>
          have hu : isSeparator u = true := by simpa [startsRun] using hafter
          rw [runs_separator hu] at hmore
          refine .cons hstmt hu (ih after.length ?_ hmore rfl)
          rw [← hn, length_append, length_cons]
          omega

theorem derivesProgram_iff_runs :
    DerivesProgram ts stmts ↔ List.Forall₂ DerivesStmt (runs ts) stmts :=
  ⟨DerivesProgram.runs, derivesProgram_of_runs⟩

/-! ### Two layouts of one source -/

/-- A source is read as statements exactly if the runs of its tidied tokens are. -/
theorem parseAll_iff_runs {source : String} {ls : List Lexeme}
    (hs : Lexeme.scanFrom 0 source.toList = .ok ls) (stmts : List Stmt) :
    (∃ found, Stmt.parseAll source = .ok found ∧ found.map Stmt.unplaced = stmts) ↔
      List.Forall₂ DerivesStmt (runs (tidied (ls.map Lexeme.token))) stmts := by
  have hscan : Lexeme.scan source = .ok (Lexeme.significant 0 ls) :=
    except_map_eq_ok.2 ⟨ls, hs, rfl⟩
  rw [parseAll_iff_derives hscan, derivesProgram_iff_runs, map_token_significant, runs_tidied]

/-- Sources with the same tokens, but for blanks, comments, line breaks inside brackets and the
    choice and number of separators, are both refused, or read as the same statements but for their
    places. -/
theorem statements_ignore_layout {source other : String} {ls ms : List Lexeme}
    (hs : Lexeme.scanFrom 0 source.toList = .ok ls) (ho : Lexeme.scanFrom 0 other.toList = .ok ms)
    (h : tidied (ls.map Lexeme.token) = tidied (ms.map Lexeme.token)) :
    (∃ e e', Stmt.parseAll source = .error e ∧ Stmt.parseAll other = .error e') ∨
      ∃ stmts stmts', Stmt.parseAll source = .ok stmts ∧ Stmt.parseAll other = .ok stmts' ∧
        stmts.map Stmt.unplaced = stmts'.map Stmt.unplaced := by
  have hsame : ∀ stmts,
      (∃ found, Stmt.parseAll source = .ok found ∧ found.map Stmt.unplaced = stmts) ↔
        ∃ found, Stmt.parseAll other = .ok found ∧ found.map Stmt.unplaced = stmts := by
    intro stmts
    rw [parseAll_iff_runs hs, parseAll_iff_runs ho, h]
  cases hp : Stmt.parseAll source with
  | ok stmts =>
    obtain ⟨stmts', hp', heq⟩ := (hsame _).1 ⟨stmts, hp, rfl⟩
    exact .inr ⟨stmts, stmts', rfl, hp', heq.symm⟩
  | error e =>
    cases hp' : Stmt.parseAll other with
    | error e' => exact .inl ⟨e, e', rfl, rfl⟩
    | ok stmts' =>
      obtain ⟨stmts, hok, -⟩ := (hsame _).2 ⟨stmts', hp', rfl⟩
      rw [hp] at hok
      cases hok

/-- Statements on lines of their own with a call broken over two lines and a comment, and the same
    statements on one line. -/
theorem statements_ignore_layout_brokenCall :
    ∃ ls ms stmts stmts',
      Lexeme.scanFrom 0 "\n x = f(a, # first\n [b,\n-c])\n\n;y = x\n".toList = .ok ls ∧
      Lexeme.scanFrom 0 "x=f(a,[b,-c]);y=x".toList = .ok ms ∧
      tidied (ls.map Lexeme.token) = tidied (ms.map Lexeme.token) ∧
      Stmt.parseAll "\n x = f(a, # first\n [b,\n-c])\n\n;y = x\n" = .ok stmts ∧
      Stmt.parseAll "x=f(a,[b,-c]);y=x" = .ok stmts' ∧ stmts.length = 2 ∧
      stmts.map Stmt.unplaced = stmts'.map Stmt.unplaced := by
  obtain ⟨ls, hls, ms, hms, htidied⟩ :
      ∃ ls, Lexeme.scanFrom 0 "\n x = f(a, # first\n [b,\n-c])\n\n;y = x\n".toList = .ok ls ∧
        ∃ ms, Lexeme.scanFrom 0 "x=f(a,[b,-c]);y=x".toList = .ok ms ∧
          tidied (ls.map Lexeme.token) = tidied (ms.map Lexeme.token) := by decide +kernel
  obtain ⟨found, hfound, hlength⟩ :
      ∃ stmts, Stmt.parseAll "x=f(a,[b,-c]);y=x" = .ok stmts ∧ stmts.length = 2 := by
    decide +kernel
  obtain ⟨e, e', -, he⟩ | ⟨stmts, stmts', hp, hp', heq⟩ := statements_ignore_layout hls hms htidied
  · rw [hfound] at he
    cases he
  · refine ⟨ls, ms, stmts, stmts', hls, hms, htidied, hp, hp', ?_, heq⟩
    have hcount := congrArg List.length heq
    rw [hfound] at hp'
    cases hp'
    simpa [hlength] using hcount

end RowAwk.Syntax
