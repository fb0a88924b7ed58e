import RowAwk.Proofs.Breaks
import RowAwk.Proofs.Displacement
import RowAwk.Proofs.Spelling

/-!
Sources put together, each on lines of its own.

A line break between two sources ends whatever the first one was in the middle of: no token holds a
line break, and a comment ends there. So the lexemes are those of the first source, the break, and
those of the second one further on. All brackets of a source that is read are closed again, so the
break is outside brackets and separates statements.

    a = f(x) # last      first source
    b = a                second source, 16 bytes further on
-/

open List

namespace RowAwk.Syntax

namespace Lexeme

/-! ### A line break ends a token -/

section

variable (cs r : List Char)

theorem takeWhile_break {p : Char → Bool} (hp : p '\n' = false) :
    (cs ++ '\n' :: r).takeWhile p = cs.takeWhile p := by
  induction cs with
  | nil => simp [hp]
  | cons c cs ih => rw [cons_append, takeWhile_cons, takeWhile_cons, ih]

theorem digits_break : digits (cs ++ '\n' :: r) = digits cs := by
  rw [digits, digits, takeWhile_break cs r (by decide)]

theorem digits_le_length : digits cs ≤ cs.length := (List.takeWhile_prefix _).length_le

theorem fraction_break : fraction (cs ++ '\n' :: r) = fraction cs := by
  fun_cases fraction cs with
  | case1 cs h => rw [cons_append, fraction, digits_break, if_pos h]
  | case2 cs h => rw [cons_append, fraction, digits_break, if_neg h]
  | case3 cs h =>
    cases cs with
    | nil => rfl
    | cons c cs =>
      rw [cons_append, fraction]
      rintro ds ⟨⟩
      exact h _ rfl

theorem fraction_le_length : fraction cs ≤ cs.length := by
  fun_cases fraction cs with
  | case1 cs h | case3 cs h => exact Nat.zero_le _
  | case2 cs h => exact Nat.succ_le_succ (digits_le_length cs)

theorem sign_break : sign (cs ++ '\n' :: r) = sign cs := by
  fun_cases sign cs with
  | case1 cs | case2 cs => rfl
  | case3 cs hplus hminus =>
    cases cs with
    | nil => rfl
    | cons c cs =>
      rw [cons_append, sign]
      · rintro _ ⟨⟩
        exact hplus _ rfl
      · rintro _ ⟨⟩
        exact hminus _ rfl

theorem sign_le_length : sign cs ≤ cs.length := by
  fun_cases sign cs <;> simp

theorem exponent_break : exponent (cs ++ '\n' :: r) = exponent cs := by
  cases cs with
  | nil => rfl
  | cons c cs =>
    have hdigits : digits ((cs ++ '\n' :: r).drop (sign cs)) = digits (cs.drop (sign cs)) := by
      rw [drop_append_of_le_length (sign_le_length cs), digits_break]
    rw [cons_append, exponent, exponent, sign_break, hdigits]

theorem exponent_le_length : exponent cs ≤ cs.length := by
  fun_cases exponent cs with
  | case2 c cs he n hn =>
    have hdigits := digits_le_length (cs.drop (sign cs))
    have hsign := sign_le_length cs
    rw [length_drop] at hdigits
    simp only [n, length_cons]
    omega
  | _ => exact Nat.zero_le _

theorem numberTail_le_length : numberTail cs ≤ cs.length ∧
    digits cs + fraction (cs.drop (digits cs)) ≤ cs.length := by
  have hwhole := digits_le_length cs
  have hpart := fraction_le_length (cs.drop (digits cs))
  have hexp := exponent_le_length (cs.drop (digits cs + fraction (cs.drop (digits cs))))
  rw [length_drop] at hpart hexp
  simp only [numberTail]
  omega

theorem numberTail_break : numberTail (cs ++ '\n' :: r) = numberTail cs := by
  simp only [numberTail]
  rw [digits_break, drop_append_of_le_length (digits_le_length cs), fraction_break,
    drop_append_of_le_length (numberTail_le_length cs).2, exponent_break]

/-- A string that ends does so before the line break. -/
theorem stringTail_break {quote : Char} (hq : quote ≠ '\\') {value : List Char} {n : Nat}
    (h : stringTail quote cs = (n, some value)) :
    stringTail quote (cs ++ '\n' :: r) = (n, some value) ∧ n ≤ cs.length := by
  fun_induction stringTail quote cs generalizing n value with
  | case1 | case2 cs | case5 c cs _ hc hstop => cases h
  | case3 c cs hc m v hv ih =>
    simp only [Prod.mk.injEq, Option.bind_eq_some_iff, Option.map_eq_some_iff] at h
    obtain ⟨rfl, d, hd, v, rfl, rfl⟩ := h
    obtain ⟨hbreak, hle⟩ := ih hv
    rw [cons_append, cons_append, stringTail, if_neg hc, hbreak]
    simp only [hd, Option.bind_some, Option.map_some, length_cons, true_and]
    omega
  | case4 cs _ =>
    cases h
    rw [cons_append, stringTail, if_pos rfl]
    · exact ⟨rfl, by simp⟩
    · exact fun _ _ hslash => absurd hslash hq
  | case6 c cs _ hc hstop m v hv ih =>
    simp only [Prod.mk.injEq, Option.map_eq_some_iff] at h
    obtain ⟨rfl, v, rfl, rfl⟩ := h
    obtain ⟨hbreak, hle⟩ := ih hv
    rw [cons_append, stringTail, if_neg hc, if_neg hstop, hbreak]
    · simp only [Option.map_some, length_cons, true_and]
      omega
    · exact fun _ _ hslash => absurd (.inl hslash) hstop

/-- A line break does not continue a symbol. -/
theorem longest?_break : Symbol.longest? (cs ++ '\n' :: r) = Symbol.longest? cs := by
  have hsame (s : Symbol) : s.chars.isPrefixOf (cs ++ '\n' :: r) = s.chars.isPrefixOf cs := by
    have hs : '\n' ∉ s.chars := by cases s <;> decide
    generalize s.chars = ts at hs
    induction cs generalizing ts with
    | nil =>
      cases ts with
      | nil => rfl
      | cons t ts => simp [List.isPrefixOf, (ne_of_not_mem_cons hs).symm]
    | cons c cs ih =>
      cases ts with
      | nil => rfl
      | cons t ts =>
        rw [cons_append, List.isPrefixOf, List.isPrefixOf, ih ts (not_mem_of_not_mem_cons hs)]
  simp only [Symbol.longest?, hsame]

end

variable {cs : List Char} {start : Nat} {ls : List Lexeme}

/-- What a text starts with does not depend on the lines after it. -/
theorem first_break {c : Char} (h : (first c cs).1 ≠ .unknown) (r : List Char) :
    first c (cs ++ '\n' :: r) = first c cs ∧ (first c cs).2 ≤ cs.length := by
  rw [first] at h ⊢
  rw [first]
  split
  · rw [takeWhile_break cs r (by decide)]
    exact ⟨rfl, (List.takeWhile_prefix _).length_le⟩
  split
  · rw [takeWhile_break cs r (by decide)]
    exact ⟨rfl, (List.takeWhile_prefix _).length_le⟩
  split
  · exact ⟨rfl, Nat.zero_le _⟩
  split
  · have hle := (numberTail_le_length cs).1
    simp only [numberTail_break, take_append_of_le_length hle, hle, and_self]
  split
  · rename_i hgap hcomment hline hdigit hquote
    rw [if_neg hgap, if_neg hcomment, if_neg hline, if_neg hdigit, if_pos hquote] at h
    cases hs : stringTail c cs with
    | mk n value =>
      cases value with
      | none =>
        rw [hs] at h
        exact absurd rfl h
      | some value =>
        have hslash : c ≠ '\\' := by rcases hquote with rfl | rfl <;> decide
        obtain ⟨hbreak, hle⟩ := stringTail_break cs r hslash hs
        rw [hbreak]
        exact ⟨rfl, hle⟩
  split
  · rw [takeWhile_break cs r (by decide)]
    exact ⟨rfl, (List.takeWhile_prefix _).length_le⟩
  · rw [← cons_append, longest?_break]
    split
    · rename_i symbol hsymbol
      rw [Symbol.longest?] at hsymbol
      have hfound := List.find?_some hsymbol
      have hle := (List.isPrefixOf_iff_prefix.1 hfound).length_le
      rw [length_cons] at hle
      exact ⟨rfl, by omega⟩
    · exact ⟨rfl, Nat.zero_le _⟩

/-! ### The lexemes of two sources -/

/-- A text further on has its lexemes further on. -/
theorem scanFrom_shift (k : Nat) (h : scanFrom start cs = .ok ls) :
    scanFrom (start + k) cs = .ok (ls.map (shift k)) := by
  induction start, cs using scanFrom.induct generalizing ls with
  | case1 start =>
    rw [scanFrom] at h ⊢
    cases h
    rfl
  | case2 start c cs piece text span hp =>
    rename_i ih
    rw [scanFrom, show (first c cs).1 = .skipped from hp] at h ⊢
    rw [Nat.add_right_comm]
    exact ih h
  | case3 start c cs piece text span token hp =>
    rename_i ih
    rw [scanFrom, show (first c cs).1 = .token token from hp] at h ⊢
    obtain ⟨rest, hr, rfl⟩ := except_map_eq_ok.1 h
    rw [Nat.add_right_comm]
    exact except_map_eq_ok.2 ⟨rest.map (shift k), ih hr, rfl⟩
  | case4 start c cs piece text span hp =>
    rw [scanFrom, show (first c cs).1 = .unknown from hp] at h
    cases h

theorem byteLength_take_drop (c : Char) (cs : List Char) (n : Nat) :
    Text.byteLength (c :: cs.take n) + Text.byteLength (cs.drop n) = Text.byteLength (c :: cs) := by
  rw [← byteLength_append, cons_append, take_append_drop]

/-- The lexemes of a text that a line break and more text follow. -/
theorem scanFrom_break (h : scanFrom start cs = .ok ls) (r : List Char) :
    scanFrom start (cs ++ '\n' :: r) =
      (scanFrom (start + Text.byteLength cs) ('\n' :: r)).map (ls ++ ·) := by
  induction start, cs using scanFrom.induct generalizing ls with
  | case1 start =>
    rw [scanFrom] at h
    cases h
    rw [nil_append, Text.byteLength, Nat.add_zero]
    cases scanFrom start ('\n' :: r) <;> rfl
  | case2 start c cs piece text span hp =>
    rename_i ih
    have hknown : (first c cs).1 ≠ .unknown := fun hu => by cases hp.symm.trans hu
    obtain ⟨hbreak, hle⟩ := first_break hknown r
    rw [scanFrom, show (first c cs).1 = .skipped from hp] at h
    rw [cons_append, scanFrom, hbreak, take_append_of_le_length hle,
      drop_append_of_le_length hle, show (first c cs).1 = .skipped from hp,
      ← byteLength_take_drop c cs (first c cs).2, ← Nat.add_assoc]
    exact ih h
  | case3 start c cs piece text span token hp =>
    rename_i ih
    have hknown : (first c cs).1 ≠ .unknown := fun hu => by cases hp.symm.trans hu
    obtain ⟨hbreak, hle⟩ := first_break hknown r
    rw [scanFrom, show (first c cs).1 = .token token from hp] at h
    obtain ⟨rest, hr, rfl⟩ := except_map_eq_ok.1 h
    rw [cons_append, scanFrom, hbreak, take_append_of_le_length hle,
      drop_append_of_le_length hle, show (first c cs).1 = .token token from hp,
      ← byteLength_take_drop c cs (first c cs).2, ← Nat.add_assoc]
    refine (congrArg (Except.map _) (ih hr)).trans ?_
    cases scanFrom (span.stop + Text.byteLength (cs.drop piece.2)) ('\n' :: r) <;> rfl
  | case4 start c cs piece text span hp =>
    rw [scanFrom, show (first c cs).1 = .unknown from hp] at h
    cases h

theorem scanFrom_newline (start : Nat) (r : List Char) :
    scanFrom start ('\n' :: r) =
      (scanFrom (start + 1) r).map (⟨.newline, ⟨start, start + 1⟩⟩ :: ·) := by
  have hfirst : first '\n' r = (.token .newline, 0) := rfl
  rw [scanFrom, hfirst]
  rfl

theorem scanFrom_lines {source other : String} {ms : List Lexeme}
    (hs : scanFrom 0 source.toList = .ok ls) (ho : scanFrom 0 other.toList = .ok ms) :
    scanFrom 0 (source ++ "\n" ++ other).toList = .ok (ls ++
      ⟨.newline, ⟨source.utf8ByteSize, source.utf8ByteSize + 1⟩⟩ ::
        ms.map (shift (source.utf8ByteSize + 1))) := by
  have hother := scanFrom_shift (source.utf8ByteSize + 1) ho
  rw [Nat.zero_add] at hother
  have htext : (source ++ "\n" ++ other).toList = source.toList ++ '\n' :: other.toList := by
    simp
  rw [htext, scanFrom_break hs, byteLength_toList, Nat.zero_add, scanFrom_newline, hother]
  rfl

/-! ### Brackets -/

/-- The depth of brackets after some tokens. -/
def depthThrough (depth : Nat) (ts : List Token) : Nat := ts.foldl depthAfter depth

theorem significant_append (depth : Nat) (ls ms : List Lexeme) :
    significant depth (ls ++ ms) =
      significant depth ls ++ significant (depthThrough depth (ls.map Lexeme.token)) ms := by
  induction ls generalizing depth with
  | nil => rfl
  | cons l ls ih =>
    rw [cons_append, significant, significant, ih]
    split <;> rfl

theorem significant_shift (k depth : Nat) (ls : List Lexeme) :
    significant depth (ls.map (shift k)) = (significant depth ls).map (shift k) := by
  induction ls generalizing depth with
  | nil => rfl
  | cons l ls ih =>
    rw [map_cons, significant, significant, ih]
    show (if l.token = .newline ∧ 0 < depth then _ else _) = _
    split <;> rfl

/-- The line breaks that do not count do not change the depth. -/
theorem depthThrough_significant (depth : Nat) (ls : List Lexeme) :
    depthThrough depth ((significant depth ls).map Lexeme.token) =
      depthThrough depth (ls.map Lexeme.token) := by
  induction ls generalizing depth with
  | nil => rfl
  | cons l ls ih =>
    have hrest := ih (depthAfter depth l.token)
    rw [significant]
    split
    · rename_i hl
      rw [hl.1] at hrest ⊢
      rw [map_cons, hl.1]
      exact hrest
    · exact hrest

end Lexeme

open Lexeme (depthAfter depthThrough)

/-- Tokens whose brackets are all closed again, and that close no others. -/
def Paired (ts : List Token) : Prop := ∀ depth, depthThrough depth ts = depth

section

variable {t : Token} {ts us : List Token}

theorem Paired.append (h : Paired ts) (h' : Paired us) : Paired (ts ++ us) := by
  intro depth
  rw [depthThrough, foldl_append]
  exact (congrArg (depthThrough · us) (h depth)).trans (h' depth)

/-- A token that is no bracket changes nothing. -/
theorem Paired.cons (ht : ∀ depth, depthAfter depth t = depth) (h : Paired ts) :
    Paired (t :: ts) := by
  intro depth
  exact (congrArg (depthThrough · ts) (ht depth)).trans (h depth)

theorem Paired.wrapped (h : Paired ts) {left right : Token}
    (hl : ∀ depth, depthAfter depth left = depth + 1)
    (hr : ∀ depth, depthAfter (depth + 1) right = depth) : Paired (left :: (ts ++ [right])) := by
  intro depth
  rw [depthThrough, foldl_cons, hl, foldl_append]
  exact (congrArg (depthAfter · right) (h (depth + 1))).trans (hr depth)

theorem paired_nil : Paired [] := fun _ => rfl

theorem Listed.paired {items : List (List Token)} (h : Listed items ts)
    (hi : ∀ item ∈ items, Paired item) : Paired ts := by
  induction h with
  | none => exact paired_nil
  | last => exact hi _ (mem_singleton_self _)
  | more _ ih =>
    rw [forall_mem_cons] at hi
    exact hi.1.append (.cons (fun _ => rfl) (ih hi.2))

variable {parts : List Part}

theorem Listed.paired_parts (h : Listed (parts.map Prod.fst) ts) (hp : ∀ p ∈ parts, Paired p.1) :
    Paired ts :=
  h.paired (forall_mem_map.2 hp)

theorem paired_flatMap {α : Type} {f : α → List Token} {as : List α} (h : ∀ a ∈ as, Paired (f a)) :
    Paired (as.flatMap f) := by
  induction as with
  | nil => exact paired_nil
  | cons a as ih =>
    rw [forall_mem_cons] at h
    rw [flatMap_cons]
    exact h.1.append (ih h.2)

theorem paired_linked {word : Keyword} (hp : ∀ p ∈ parts, Paired p.1) :
    Paired (linked word parts) :=
  paired_flatMap fun p hm => .cons (fun _ => rfl) (hp p hm)

theorem paired_arguments {args : List Part} {named : List NamedPart}
    (ha : ∀ p ∈ args, Paired p.1) (hn : ∀ k ∈ named, Paired k.2.1) :
    ∀ item ∈ argumentTokens args named, Paired item := by
  rw [argumentTokens, forall_mem_append, forall_mem_map, forall_mem_map]
  exact ⟨ha, fun k hk => .cons (fun _ => rfl) (.cons (fun _ => rfl) (hn k hk))⟩

theorem paired_compare (op : CompareOp) : Paired op.tokens := by
  cases op <;> exact fun _ => rfl

theorem depthAfter_of_op? {l : Grammar.Level} {op : BinaryOp} (h : l.op? t = some op)
    (depth : Nat) : depthAfter depth t = depth := by
  unfold depthAfter
  split <;> first | rfl | (cases l <;> cases h)

theorem depthAfter_of_sign? {op : UnaryOp} (h : sign? t = some op) (depth : Nat) :
    depthAfter depth t = depth := by
  unfold depthAfter
  split <;> first | rfl | cases h

/-- Every bracket of an expression is closed in it. -/
theorem Derives.paired {rule : Rule} {e : Expr} (h : Derives rule ts e) : Paired ts := by
  induction h with
  | item _ ih | unconditional _ ih | link _ ih | positive _ ih | uncompared _ ih | operand _ ih
  | unsigned _ ih | base _ ih | bare _ ih => exact ih
  | tuple _ _ hl ih ihp => exact ih.append (.cons (fun _ => rfl) (hl.paired_parts ihp))
  | conditional _ _ _ ihy iht ihn =>
    exact ihy.append (.cons (fun _ => rfl) (iht.append (.cons (fun _ => rfl) ihn)))
  | chain _ _ _ ih ihp => exact ih.append (paired_linked ihp)
  | not _ ih => exact .cons (fun _ => rfl) ih
  | compare _ _ ihl ihr => exact ihl.append ((paired_compare _).append ihr)
  | binary ho _ _ ihl ihr => exact ihl.append (.cons (depthAfter_of_op? ho) ihr)
  | sign ho _ ih => exact .cons (depthAfter_of_sign? ho) ih
  | power _ _ ihb ihe => exact ihb.append (.cons (fun _ => rfl) ihe)
  | call _ _ _ hl ihf iha ihn =>
    have hargs := hl.paired (paired_arguments iha ihn)
    exact ihf.append (hargs.wrapped (fun _ => rfl) fun _ => rfl)
  | subscript _ _ ihb ihi => exact ihb.append (ihi.wrapped (fun _ => rfl) fun _ => rfl)
  | name n | literal v | empty => exact fun _ => rfl
  | group _ ih => exact ih.wrapped (fun _ => rfl) fun _ => rfl
  | list _ hl ihp => exact (hl.paired_parts ihp).wrapped (fun _ => rfl) fun _ => rfl

theorem DerivesStmt.paired {stmt : Stmt} (h : DerivesStmt ts stmt) : Paired ts := by
  cases h with
  | value h => exact h.paired
  | assign h => exact .cons (fun _ => rfl) (.cons (fun _ => rfl) h.paired)

theorem Separators.paired (h : Separators ts) : Paired ts := by
  induction ts with
  | nil => exact paired_nil
  | cons t ts ih =>
    obtain ⟨ht, hs⟩ := forall_mem_cons.1 h
    refine .cons (fun depth => ?_) (ih hs)
    rcases eq_of_isSeparator ht with rfl | rfl <;> rfl

theorem DerivesProgram.paired {stmts : List Stmt} (h : DerivesProgram ts stmts) : Paired ts := by
  cases h with
  | blank hs => exact hs.paired
  | statements hl hh hm ht =>
    refine hl.paired.append (hh.paired.append (Paired.append ?_ ht.paired))
    exact paired_flatMap fun m hmem => (hm m hmem).1.paired.append (hm m hmem).2.2.paired

end

/-! ### The statements of two sources -/

variable {source other : String}

/-- The lexemes that count in two sources on lines of their own, if all brackets of the first one are
    closed: those of either source, and the line break between them. -/
theorem scan_lines {ls ms : List Lexeme} (hs : Lexeme.scanFrom 0 source.toList = .ok ls)
    (ho : Lexeme.scanFrom 0 other.toList = .ok ms)
    (hp : Paired ((Lexeme.significant 0 ls).map Lexeme.token)) :
    Lexeme.scan (source ++ "\n" ++ other) = .ok (Lexeme.significant 0 ls ++
      ⟨.newline, ⟨source.utf8ByteSize, source.utf8ByteSize + 1⟩⟩ ::
        (Lexeme.significant 0 ms).map (Lexeme.shift (source.utf8ByteSize + 1))) := by
  have hdepth : depthThrough 0 (ls.map Lexeme.token) = 0 := by
    rw [← Lexeme.depthThrough_significant]
    exact hp 0
  refine except_map_eq_ok.2 ⟨_, Lexeme.scanFrom_lines hs ho, ?_⟩
  rw [Lexeme.significant_append, hdepth, ← Lexeme.significant_shift]
  rfl

/-- Two sources on lines of their own are read one after the other. -/
theorem parseAll_lines {stmts more : List Stmt} (hs : Stmt.parseAll source = .ok stmts)
    (ho : Stmt.parseAll other = .ok more) :
    Stmt.parseAll (source ++ "\n" ++ other) =
      .ok (stmts ++ more.map (Stmt.shift (source.utf8ByteSize + 1))) := by
  obtain ⟨found, hfound, hstmts⟩ := places_parseAll hs
  obtain ⟨found', hfound', hmore⟩ := places_parseAll ho
  obtain ⟨ls, hls, rfl⟩ := except_map_eq_ok.1 hfound
  obtain ⟨ms, hms, rfl⟩ := except_map_eq_ok.1 hfound'
  obtain ⟨c, hc, hv⟩ := Cursor.scan_eq_ok.1 (scan_lines hls hms hstmts.derives.paired)
  exact except_bind_eq_ok.2
    ⟨c, hc, Grammar.statements_of_places (hstmts.join rfl (hmore.shift _)) hv⟩

/-! ### The statements of any number of sources -/

namespace Expr

mutual

theorem unplaced_shift (k : Nat) : ∀ e : Expr, (e.shift k).unplaced = e.unplaced
  | .literal _ _ | .name _ _ => rfl
  | .tuple _ items | .list _ items | .boolean _ _ items => by
    rw [shift, unplaced, unplaced, unplacedAll_shift k items]
  | .call _ function args keywords => by
    rw [shift, unplaced, unplaced, unplacedAll_shift k args, unplacedKeywords_shift k keywords]
    rfl
  | .unary _ _ operand => by rw [shift, unplaced, unplaced, unplaced_shift k operand]
  | .subscript _ lhs rhs | .binary _ _ lhs rhs | .compare _ _ lhs rhs => by
    rw [shift, unplaced, unplaced, unplaced_shift k lhs, unplaced_shift k rhs]
  | .conditional _ test yes no => by
    rw [shift, unplaced, unplaced, unplaced_shift k test, unplaced_shift k yes, unplaced_shift k no]

theorem unplacedAll_shift (k : Nat) :
    ∀ es : List Expr, unplacedAll (shiftAll k es) = unplacedAll es
  | [] => rfl
  | e :: es => by
    rw [shiftAll, unplacedAll, unplacedAll, unplaced_shift k e, unplacedAll_shift k es]

theorem unplacedKeywords_shift (k : Nat) :
    ∀ ks : List (KeywordArg Expr), unplacedKeywords (shiftKeywords k ks) = unplacedKeywords ks
  | [] => rfl
  | ⟨n, e⟩ :: ks => by
    rw [shiftKeywords, unplacedKeywords, unplacedKeywords, unplaced_shift k e,
      unplacedKeywords_shift k ks]
    rfl

end

end Expr

theorem Stmt.unplaced_shift (k : Nat) (s : Stmt) : (s.shift k).unplaced = s.unplaced := by
  cases s with
  | assign target e => exact congrArg (Stmt.assign ⟨target.text, .nowhere⟩) (e.unplaced_shift k)
  | value e => exact congrArg Stmt.value (e.unplaced_shift k)

theorem parseAll_empty : Stmt.parseAll "" = .ok [] := by
  have hscan : Lexeme.scan "" = .ok [] := by
    rw [Lexeme.scan, String.toList_empty, Lexeme.scanFrom]
    rfl
  obtain ⟨c, hc, hv⟩ := Cursor.scan_eq_ok.1 hscan
  exact except_bind_eq_ok.2 ⟨c, hc, Grammar.statements_of_places .nil hv⟩

/-- Each source is read as the statements beside it. -/
def ReadAs : List String → List (List Stmt) → Prop :=
  List.Forall₂ fun source stmts => Stmt.parseAll source = .ok stmts

/-- Sources on lines of their own are read one after the other, but for the places. -/
theorem parseAll_intercalate {sources : List String} {parts : List (List Stmt)}
    (h : ReadAs sources parts) :
    ∃ stmts, Stmt.parseAll ("\n".intercalate sources) = .ok stmts ∧
      stmts.map Stmt.unplaced = parts.flatten.map Stmt.unplaced := by
  induction h with
  | nil => exact ⟨[], parseAll_empty, rfl⟩
  | @cons source part sources parts hs hmore ih =>
    obtain ⟨stmts, hstmts, heq⟩ := ih
    cases hmore with
    | nil => exact ⟨part, hs, by rw [flatten_singleton]⟩
    | cons ho hmore =>
      rw [String.intercalate_cons_cons]
      refine ⟨_, parseAll_lines hs hstmts, ?_⟩
      rw [flatten_cons, map_append, map_append, ← heq, map_map]
      exact congrArg (_ ++ ·) (map_congr_left fun s _ => s.unplaced_shift _)

end RowAwk.Syntax
