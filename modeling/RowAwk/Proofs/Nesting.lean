import RowAwk.Proofs.Spelling

/-!
The places of nodes in a source.

Every node of a tree has a stretch of the source, from one character to another. The stretches
nest: the parts of a node lie within its own stretch, in the order of the source, and no two of
them overlap.

    keep = count(v, by=k) if ok else 0
    0..4   7..12 13..14 16..18 19..20 25..27 33..34      names and numbers
           7..21                                         the call
           7..34                                         the conditional

Lexemes follow one another in the source, and a node starts with one of its lexemes and ends with
another. So the order of the parts is that of the lexemes below them.
-/

open List

namespace RowAwk.Syntax

/-! ### Stretches of a source -/

/-- An offset in bytes between two characters of a source, or at one of its ends. -/
def IsBoundary (source : String) (offset : Nat) : Prop :=
  ∃ before after, source.toList = before ++ after ∧ Text.byteLength before = offset

variable {source : String} {ls : List Lexeme}

theorem IsBoundary.le {offset : Nat} (h : IsBoundary source offset) :
    offset ≤ source.utf8ByteSize := by
  obtain ⟨before, after, hs, rfl⟩ := h
  rw [← Lexeme.byteLength_toList, hs, Lexeme.byteLength_append]
  exact Nat.le_add_right _ _

namespace Span

/-- The text of a source between the ends of a stretch. -/
def Covers (s : Span) (source : String) (text : List Char) : Prop :=
  ∃ before after, source.toList = before ++ (text ++ after) ∧
    Text.byteLength before = s.start ∧ Text.byteLength (before ++ text) = s.stop

/-- A stretch of a source with at least one character. -/
structure Lies (s : Span) (source : String) : Prop where
  nonempty : s.start < s.stop
  stop_le : s.stop ≤ source.utf8ByteSize
  start : IsBoundary source s.start
  stop : IsBoundary source s.stop

def Within (a b : Span) : Prop := b.start ≤ a.start ∧ a.stop ≤ b.stop

def Before (a b : Span) : Prop := a.stop ≤ b.start

variable {s : Span} {ss : List Span}

theorem Covers.lies {source : String} {text : List Char} (h : s.Covers source text)
    (ht : text ≠ []) : s.Lies source := by
  obtain ⟨before, after, hs, hstart, hstop⟩ := h
  have hboundary : IsBoundary source s.stop :=
    ⟨before ++ text, after, by rw [hs, append_assoc], hstop⟩
  refine ⟨?_, hboundary.le, ⟨before, _, hs, hstart⟩, hboundary⟩
  obtain ⟨c, cs, rfl⟩ := exists_cons_of_ne_nil ht
  have hpos : 0 < c.utf8Size := c.utf8Size_pos
  rw [← hstart, ← hstop, Lexeme.byteLength_append, Text.byteLength]
  omega

/-- A stretch reaches from the start of one of some stretches to the end of one of them and leaves
    none of them out. -/
structure Spans (s : Span) (ss : List Span) : Prop where
  start : ∃ a ∈ ss, a.start = s.start
  stop : ∃ b ∈ ss, b.stop = s.stop
  all : ∀ c ∈ ss, c.Within s

theorem Spans.cover (h : s.Spans ss) (t : Span) : (s.cover t).Spans (ss ++ [t]) := by
  obtain ⟨⟨a, ha, hstart⟩, ⟨b, hb, hstop⟩, hall⟩ := h
  have ht : t ∈ ss ++ [t] := mem_append_right ss mem_cons_self
  refine ⟨?_, ?_, ?_⟩
  · rcases Nat.le_total s.start t.start with hle | hle
    · exact ⟨a, mem_append_left _ ha, by rw [hstart, Span.cover, Nat.min_eq_left hle]⟩
    · exact ⟨t, ht, by rw [Span.cover, Nat.min_eq_right hle]⟩
  · rcases Nat.le_total s.stop t.stop with hle | hle
    · exact ⟨t, ht, by rw [Span.cover, Nat.max_eq_right hle]⟩
    · exact ⟨b, mem_append_left _ hb, by rw [hstop, Span.cover, Nat.max_eq_left hle]⟩
  · refine forall_mem_append.2 ⟨fun c hc => ?_, forall_mem_singleton.2 ?_⟩
    · obtain ⟨h₁, h₂⟩ := hall c hc
      exact ⟨Nat.le_trans (Nat.min_le_left _ _) h₁, Nat.le_trans h₂ (Nat.le_max_left _ _)⟩
    · exact ⟨Nat.min_le_right _ _, Nat.le_max_right _ _⟩

theorem spans_singleton (s : Span) : s.Spans [s] :=
  ⟨⟨s, mem_cons_self, rfl⟩, ⟨s, mem_cons_self, rfl⟩,
    forall_mem_singleton.2 ⟨Nat.le_refl _, Nat.le_refl _⟩⟩

theorem Spans.foldl (h : s.Spans ss) (more : List Span) :
    (more.foldl Span.cover s).Spans (ss ++ more) := by
  induction more generalizing s ss with
  | nil => rwa [append_nil]
  | cons t more ih =>
    rw [append_cons]
    exact ih (h.cover t)

/-- Of stretches in order, the first and the last say where all of them together are. -/
theorem spans_ends {first last : Span} {mid : List Span}
    (hpos : ∀ s ∈ first :: (mid ++ [last]), s.start < s.stop)
    (hord : (first :: (mid ++ [last])).Pairwise Before) :
    (first.cover last).Spans (first :: (mid ++ [last])) := by
  obtain ⟨hfirst, hrest⟩ := pairwise_cons.1 hord
  have hlast := (pairwise_append.1 hrest).2.2
  obtain ⟨hpos₀, hpos⟩ := forall_mem_cons.1 hpos
  have hl : last ∈ mid ++ [last] := mem_append_right mid mem_cons_self
  have hle : first.stop ≤ last.start := hfirst last hl
  have hlt : last.start < last.stop := hpos last hl
  have hcover : first.cover last = ⟨first.start, last.stop⟩ := by
    rw [Span.cover, Nat.min_eq_left (by omega), Nat.max_eq_right (by omega)]
  rw [hcover]
  refine ⟨⟨first, mem_cons_self, rfl⟩, ⟨last, mem_cons_of_mem _ hl, rfl⟩, ?_⟩
  have hstop : ∀ c ∈ mid ++ [last], c.stop ≤ last.stop := by
    refine forall_mem_append.2 ⟨fun c hc => ?_, forall_mem_singleton.2 (Nat.le_refl _)⟩
    exact Nat.le_trans (hlast c hc last mem_cons_self) (Nat.le_of_lt hlt)
  refine forall_mem_cons.2 ⟨⟨Nat.le_refl _, ?_⟩, fun c hc => ⟨?_, hstop c hc⟩⟩
  · exact Nat.le_trans hle (Nat.le_of_lt hlt)
  · exact Nat.le_trans (Nat.le_of_lt hpos₀) (hfirst c hc)

end Span

/-! ### Parts of a node -/

/-- What a node is made of. Of signs, which are operators and brackets, a tree keeps no more than
    its nodes' places show. -/
inductive Constituent where
  | sign (span : Span)
  | word (name : Name)
  | node (e : Expr)

def Constituent.span : Constituent → Span
  | .sign span => span
  | .word name => name.span
  | .node e => e.span

/-- What a tree keeps of the parts of a node, in the order of the source. -/
def Expr.constituents : Expr → List Constituent
  | .literal span (.number spelling) => [.word ⟨spelling, span⟩]
  | .literal _ _ => []
  | .name span n => [.word ⟨n, span⟩]
  | .tuple _ items | .list _ items => items.map .node
  | .call _ function args keywords =>
    .word function ::
      (args.map .node ++ keywords.flatMap fun k => [.word k.name, .node k.value])
  | .subscript _ base index => [.node base, .node index]
  | .unary _ _ operand => [.node operand]
  | .binary _ _ lhs rhs | .compare _ _ lhs rhs => [.node lhs, .node rhs]
  | .boolean _ _ operands => operands.map .node
  | .conditional _ test yes no => [.node yes, .node test, .node no]

def Stmt.constituents : Stmt → List Constituent
  | .assign target e => [.word target, .node e]
  | .value e => [.node e]

/-- The nodes of a tree: the tree, and those of its parts. -/
inductive IsNode (x : Expr) : Expr → Prop
  | root : IsNode x x
  | inside {c e} : .node c ∈ e.constituents → IsNode x c → IsNode x e

/-- Parts that stand one after the other in a source; words stand there as they are spelt. -/
structure InOrder (source : String) (parts : List Constituent) : Prop where
  lies : ∀ p ∈ parts, p.span.Lies source
  ordered : parts.Pairwise fun p q => p.span.Before q.span
  words : ∀ w, .word w ∈ parts → w.span.Covers source w.text.toList

/-- A node whose parts stand in order within its place. -/
structure Nested (source : String) (x : Expr) : Prop where
  lies : x.span.Lies source
  inOrder : InOrder source x.constituents
  within : ∀ p ∈ x.constituents, p.span.Within x.span

/-! ### Lexemes -/

/-- A name or a number, which has its spelling for a text. -/
def Token.word? : Token → Option String
  | .name n => some n
  | .literal (.number spelling) => some spelling
  | _ => none

namespace Lexeme

/-- Lexemes that stand one after the other in a source. -/
structure Cut (source : String) (ls : List Lexeme) : Prop where
  lies : ∀ l ∈ ls, l.span.Lies source
  words : ∀ l ∈ ls, ∀ w ∈ l.token.word?, l.span.Covers source w.toList
  ordered : ls.Pairwise fun a b => a.span.Before b.span

variable {source : String} {ls : List Lexeme} {cs : List Char}

theorem Cut.sublist {ms : List Lexeme} (h : Cut source ls) (hs : ms.Sublist ls) : Cut source ms :=
  ⟨fun l hl => h.lies l (hs.subset hl), fun l hl => h.words l (hs.subset hl), h.ordered.sublist hs⟩

theorem word_ofWord {word w : String} (h : (Token.ofWord word).word? = some w) : w = word := by
  rw [Token.ofWord] at h
  split at h
  · cases h
  split at h
  · cases h
  split at h
  · cases h
  · cases h
    rfl

/-- A name or a number is what the scan has taken for it. -/
theorem word_first {c : Char} {t : Token} {n : Nat} {w : String} (h : first c cs = (.token t, n))
    (hw : t.word? = some w) : w.toList = c :: cs.take n := by
  rcases first_cases h with ⟨-, -, rfl⟩ | ⟨-, htake, rfl⟩ | ⟨_, rfl⟩ | ⟨_, rfl⟩ | rfl
  · cases hw
    exact String.toList_ofList
  · rw [word_ofWord hw, htake, String.toList_ofList]
  · cases hw
  · cases hw
  · cases hw

/-- Each lexeme of a scan covers its text, and the next one starts no earlier than it ends. -/
theorem cut_scanFrom {start : Nat} {before : List Char} (hs : source.toList = before ++ cs)
    (hb : Text.byteLength before = start) (h : scanFrom start cs = .ok ls) :
    Cut source ls ∧ ∀ l ∈ ls, start ≤ l.span.start := by
  -- what the first piece takes of the text, and what is left for the others
  have hpiece (c : Char) (cs before : List Char) (n : Nat) :
      before ++ c :: cs = before ++ (c :: cs.take n) ++ cs.drop n := by
    rw [append_assoc, cons_append, take_append_drop]
  induction start, cs using scanFrom.induct generalizing before ls with
  | case1 start =>
    rw [scanFrom] at h
    cases h
    exact ⟨⟨forall_mem_nil _, forall_mem_nil _, .nil⟩, forall_mem_nil _⟩
  | case2 start c cs piece text span =>
    rename_i hp ih
    rw [scanFrom, show (first c cs).1 = .skipped from hp] at h
    rw [hpiece c cs before piece.2] at hs
    obtain ⟨hcut, hle⟩ := ih hs (by rw [byteLength_append, hb]) h
    exact ⟨hcut, fun l hl => Nat.le_trans (Nat.le_add_right _ _) (hle l hl)⟩
  | case3 start c cs piece text span token =>
    rename_i hp ih
    rw [scanFrom, show (first c cs).1 = .token token from hp] at h
    obtain ⟨rest, hr, rfl⟩ := except_map_eq_ok.1 h
    rw [hpiece c cs before piece.2] at hs
    have hstop : Text.byteLength (before ++ text) = span.stop := by rw [byteLength_append, hb]
    obtain ⟨hcut, hle⟩ := ih hs hstop hr
    have hcovers : span.Covers source text := ⟨before, _, by rw [hs, append_assoc], hb, hstop⟩
    refine ⟨⟨?_, ?_, pairwise_cons.2 ⟨hle, hcut.ordered⟩⟩, ?_⟩
    · exact forall_mem_cons.2 ⟨hcovers.lies (cons_ne_nil _ _), hcut.lies⟩
    · refine forall_mem_cons.2 ⟨fun w hw => ?_, hcut.words⟩
      rw [word_first (Prod.ext hp rfl) hw]
      exact hcovers
    · refine forall_mem_cons.2 ⟨Nat.le_refl _, fun l hl => ?_⟩
      exact Nat.le_trans (Nat.le_add_right _ _) (hle l hl)
  | case4 start c cs piece text span =>
    rename_i hp _
    rw [scanFrom, show (first c cs).1 = .unknown from hp] at h
    cases h

theorem cut_scan (h : scan source = .ok ls) : Cut source ls := by
  obtain ⟨all, hs, rfl⟩ := except_map_eq_ok.1 h
  exact (cut_scanFrom (nil_append _).symm rfl hs).1.sublist (significant_sublist 0 all)

end Lexeme

/-! ### Trees on their lexemes -/

open Lexeme (Cut)

/-- A stretch that starts with a lexeme and ends with one. -/
structure Span.On (s : Span) (ls : List Lexeme) : Prop where
  nonempty : s.start < s.stop
  start : ∃ a ∈ ls, a.span.start = s.start
  stop : ∃ b ∈ ls, b.span.stop = s.stop

/-- What is right about a constituent wherever it stands. -/
def Constituent.Sound (source : String) : Constituent → Prop
  | .sign _ => True
  | .word name => name.span.Covers source name.text.toList
  | .node e => ∀ x, IsNode x e → Nested source x

/-- Constituents on lexemes, in their order. -/
structure Laid (source : String) (ls : List Lexeme) (cs : List Constituent) : Prop where
  on : ∀ c ∈ cs, c.span.On ls
  sound : ∀ c ∈ cs, c.Sound source
  ordered : cs.Pairwise fun c d => c.span.Before d.span

/-- Lexemes that follow one another have constituents that do. -/
def Lays (source : String) (ls : List Lexeme) (cs : List Constituent) : Prop :=
  Cut source ls → Laid source ls cs

section

variable {source : String} {ls ms : List Lexeme} {cs ds : List Constituent}

theorem Span.On.mono {s : Span} (h : s.On ls) (hs : ls ⊆ ms) : s.On ms := by
  obtain ⟨hpos, ⟨a, ha, hstart⟩, ⟨b, hb, hstop⟩⟩ := h
  exact ⟨hpos, ⟨a, hs ha, hstart⟩, ⟨b, hs hb, hstop⟩⟩

theorem Span.On.lies {s : Span} (h : s.On ls) (hls : Cut source ls) : s.Lies source := by
  obtain ⟨hpos, ⟨a, ha, hstart⟩, ⟨b, hb, hstop⟩⟩ := h
  have hboundary : IsBoundary source s.stop := hstop ▸ (hls.lies b hb).stop
  exact ⟨hpos, hboundary.le, hstart ▸ (hls.lies a ha).start, hboundary⟩

theorem Laid.inOrder (h : Laid source ls cs) (hls : Cut source ls) : InOrder source cs :=
  ⟨fun c hc => (h.on c hc).lies hls, h.ordered, fun w hw => h.sound (.word w) hw⟩

namespace Lays

theorem nil (ls : List Lexeme) : Lays source ls [] :=
  fun _ => ⟨forall_mem_nil _, forall_mem_nil _, .nil⟩

theorem singleton {c : Constituent} (hon : Cut source ls → c.span.On ls)
    (hsound : Cut source ls → c.Sound source) : Lays source ls [c] :=
  fun h => ⟨forall_mem_singleton.2 (hon h), forall_mem_singleton.2 (hsound h),
    pairwise_singleton _ _⟩

theorem lexeme (l : Lexeme) : Cut source [l] → l.span.On [l] :=
  fun h => ⟨(h.lies l mem_cons_self).nonempty, ⟨l, mem_cons_self, rfl⟩,
    ⟨l, mem_cons_self, rfl⟩⟩

theorem sign (l : Lexeme) : Lays source [l] [.sign l.span] :=
  singleton (lexeme l) fun _ => trivial

theorem word (l : Lexeme) {w : String} (hw : l.token.word? = some w) :
    Lays source [l] [.word ⟨w, l.span⟩] :=
  singleton (lexeme l) fun h => h.words l mem_cons_self w hw

theorem append (h : Lays source ls cs) (h' : Lays source ms ds) :
    Lays source (ls ++ ms) (cs ++ ds) := by
  intro hcut
  have hl := h (hcut.sublist (sublist_append_left ls ms))
  have hm := h' (hcut.sublist (sublist_append_right ls ms))
  refine ⟨forall_mem_append.2 ⟨?_, ?_⟩, forall_mem_append.2 ⟨hl.sound, hm.sound⟩,
    pairwise_append.2 ⟨hl.ordered, hm.ordered, fun c hc d hd => ?_⟩⟩
  · exact fun c hc => (hl.on c hc).mono (subset_append_left ls ms)
  · exact fun d hd => (hm.on d hd).mono (subset_append_right ls ms)
  · obtain ⟨b, hb, hstop⟩ := (hl.on c hc).stop
    obtain ⟨a, ha, hstart⟩ := (hm.on d hd).start
    rw [Span.Before, ← hstop, ← hstart]
    exact (pairwise_append.1 hcut.ordered).2.2 b hb a ha

/-- A node is laid where its constituents and its outermost signs are. -/
theorem node {e : Expr} (h : Lays source ls cs)
    (hspan : Laid source ls cs → e.span.Spans (cs.map Constituent.span))
    (hsub : e.constituents.Sublist cs) : Lays source ls [.node e] := by
  intro hcut
  have hlaid := h hcut
  obtain ⟨⟨_, hs, hstart⟩, ⟨_, ht, hstop⟩, hall⟩ := hspan hlaid
  obtain ⟨c, hc, rfl⟩ := mem_map.1 hs
  obtain ⟨d, hd, rfl⟩ := mem_map.1 ht
  have hwithin := forall_mem_map.1 hall
  obtain ⟨a, ha, hastart⟩ := (hlaid.on c hc).start
  obtain ⟨b, hb, hbstop⟩ := (hlaid.on d hd).stop
  have hpos : e.span.start < e.span.stop :=
    Nat.lt_of_le_of_lt (hwithin c hc).1
      (Nat.lt_of_lt_of_le (hlaid.on c hc).nonempty (hwithin c hc).2)
  have hon : e.span.On ls := ⟨hpos, ⟨a, ha, hastart.trans hstart⟩, ⟨b, hb, hbstop.trans hstop⟩⟩
  refine singleton (fun _ => hon) (fun _ x hx => ?_) hcut
  cases hx with
  | root =>
    have hown : Laid source ls e.constituents :=
      ⟨fun c hc => hlaid.on c (hsub.subset hc), fun c hc => hlaid.sound c (hsub.subset hc),
        hlaid.ordered.sublist hsub⟩
    exact ⟨hon.lies hcut, hown.inOrder hcut, fun c hc => hwithin c (hsub.subset hc)⟩
  | inside hc hx => exact hlaid.sound (.node _) (hsub.subset hc) x hx

/-- A node from its first constituent to its last one. -/
theorem between {e : Expr} {first last : Constituent} {mid : List Constituent}
    (h : Lays source ls (first :: (mid ++ [last]))) (hspan : e.span = first.span.cover last.span)
    (hsub : e.constituents.Sublist (first :: (mid ++ [last]))) : Lays source ls [.node e] := by
  refine h.node (fun hlaid => ?_) hsub
  rw [hspan, map_cons, map_append]
  refine Span.spans_ends ?_ ?_
  · rw [← map_singleton, ← map_append, ← map_cons]
    exact forall_mem_map.2 fun c hc => (hlaid.on c hc).nonempty
  · rw [← map_singleton, ← map_append, ← map_cons]
    exact pairwise_map.2 hlaid.ordered

/-- The word of a name that is a node. -/
theorem of_name {n : String} {span : Span} (h : Lays source ls [.node (.name span n)]) :
    Lays source ls [.word ⟨n, span⟩] := by
  refine singleton (fun hcut => (h hcut).on (.node _) mem_cons_self) fun hcut => ?_
  have hnode : Nested source (.name span n) := (h hcut).sound (.node _) mem_cons_self _ .root
  exact hnode.inOrder.words _ mem_cons_self

end Lays

theorem Strung.lays {items : List (List Lexeme × List Constituent)}
    (h : Strung (items.map Prod.fst) ls) (hi : ∀ i ∈ items, Lays source i.1 i.2) :
    Lays source ls (items.flatMap Prod.snd) := by
  generalize hitems : items.map Prod.fst = stretches at h
  induction h generalizing items with
  | none =>
    cases map_eq_nil_iff.1 hitems
    exact .nil []
  | last =>
    obtain ⟨i, items, rfl, rfl, hnil⟩ := map_eq_cons_iff.1 hitems
    cases map_eq_nil_iff.1 hnil
    rw [flatMap_cons, flatMap_nil, append_nil]
    exact hi i mem_cons_self
  | more _ ih =>
    obtain ⟨i, items, rfl, rfl, hrest⟩ := map_eq_cons_iff.1 hitems
    obtain ⟨hi, hmore⟩ := forall_mem_cons.1 hi
    exact hi.append ((Lays.nil [_]).append (ih hmore hrest))

/-- The trees of pieces, one after the other. -/
theorem flatMap_pieces (pieces : List Piece) :
    (pieces.map fun p => (p.1, [Constituent.node p.2])).flatMap Prod.snd
      = (pieces.map Prod.snd).map .node := by
  rw [flatMap_map, map_map, map_eq_flatMap]
  rfl

variable {pieces : List Piece}

theorem Strung.lays_pieces (h : Strung (pieces.map Prod.fst) ls)
    (hp : ∀ p ∈ pieces, Lays source p.1 [.node p.2]) :
    Lays source ls ((pieces.map Prod.snd).map .node) := by
  rw [← flatMap_pieces]
  refine Strung.lays ?_ (forall_mem_map.2 hp)
  rwa [map_map]

theorem Chained.lays_pieces {word : Keyword} (h : Chained word (pieces.map Prod.fst) ls)
    (hp : ∀ p ∈ pieces, Lays source p.1 [.node p.2]) :
    Lays source ls ((pieces.map Prod.snd).map .node) := by
  generalize hitems : pieces.map Prod.fst = items at h
  induction h generalizing pieces with
  | none =>
    cases map_eq_nil_iff.1 hitems
    exact .nil []
  | more _ ih =>
    obtain ⟨p, pieces, rfl, rfl, hrest⟩ := map_eq_cons_iff.1 hitems
    obtain ⟨hp, hmore⟩ := forall_mem_cons.1 hp
    exact (Lays.nil [_]).append (hp.append (ih hmore hrest))

theorem Strung.lays_arguments {args : List Piece} {named : List NamedPiece}
    (h : Strung (args.map Prod.fst ++ named.map NamedPiece.lexemes) ls)
    (ha : ∀ p ∈ args, Lays source p.1 [.node p.2])
    (hn : ∀ k ∈ named, Lays source k.value.1 [.node k.value.2]) :
    Lays source ls ((args.map Prod.snd).map .node ++
      (named.map NamedPiece.keyword).flatMap fun k => [.word k.name, .node k.value]) := by
  have hitems : Lays source ls
      ((args.map (fun p : Piece => (p.1, [Constituent.node p.2])) ++ named.map fun k : NamedPiece =>
        (k.lexemes, [Constituent.word k.name, .node k.value.2])).flatMap Prod.snd) := by
    refine Strung.lays ?_ (forall_mem_append.2
      ⟨forall_mem_map.2 ha, forall_mem_map.2 fun k hk => ?_⟩)
    · rwa [map_append, map_map, map_map]
    · exact (Lays.word ⟨.name k.name.text, k.name.span⟩ rfl).append
        ((Lays.nil [_]).append (hn k hk))
  rw [flatMap_append, flatMap_pieces, flatMap_map] at hitems
  rwa [flatMap_map]

end

theorem spans_coverAll (e : Expr) (more : List Expr) :
    (Grammar.coverAll e more).Spans
      ((Constituent.node e :: more.map .node).map Constituent.span) := by
  have h := (Span.spans_singleton e.span).foldl (more.map Expr.span)
  rw [foldl_map] at h
  rwa [map_cons, map_map]

/-- Whatever the rules place lies where its lexemes are. -/
theorem Places.lays {rule : Rule} {e : Expr} (h : Places rule ls e) : Lays source ls [.node e] := by
  induction h with
  | item _ ih | unconditional _ ih | link _ ih | positive _ ih | uncompared _ ih | operand _ ih
  | unsigned _ ih | base _ ih | bare _ ih => exact ih
  | tuple _ _ hs ih ihs =>
    exact (ih.append ((Lays.nil [_]).append (hs.lays_pieces ihs))).node
      (fun _ => spans_coverAll _ _) (.refl _)
  | conditional _ _ _ ihy iht ihn =>
    exact (ihy.append ((Lays.nil [_]).append (iht.append ((Lays.nil [_]).append ihn)))).between
      rfl (.refl _)
  | chain _ _ _ hc ih ihs =>
    exact (ih.append (hc.lays_pieces ihs)).node (fun _ => spans_coverAll _ _) (.refl _)
  | not _ ih => exact ((Lays.sign _).append ih).between rfl (.cons _ (.refl _))
  | compare _ _ _ ihl ihr =>
    exact (ihl.append ((Lays.nil _).append ihr)).between rfl (.refl _)
  | binary _ _ _ ihl ihr =>
    exact (ihl.append ((Lays.nil [_]).append ihr)).between rfl (.refl _)
  | sign l _ _ ih => exact ((Lays.sign l).append ih).between rfl (.cons _ (.refl _))
  | power _ _ ihb ihe =>
    exact (ihb.append ((Lays.nil [_]).append ihe)).between rfl (.refl _)
  | call _ _ _ hs ihf iha ihk =>
    refine (ihf.of_name.append ((Lays.nil [_]).append
      ((hs.lays_arguments iha ihk).append (Lays.sign _)))).between rfl ?_
    exact .cons_cons _ (sublist_append_left _ _)
  | subscript _ _ ihb ihi =>
    refine (ihb.append ((Lays.nil [_]).append (ihi.append (Lays.sign _)))).between rfl ?_
    exact sublist_append_left [_, _] [_]
  | name n span =>
    exact (Lays.word ⟨.name n, span⟩ rfl).node (fun _ => Span.spans_singleton span) (.refl _)
  | literal v span =>
    cases v with
    | number spelling =>
      exact (Lays.word ⟨.literal (.number spelling), span⟩ rfl).node
        (fun _ => Span.spans_singleton span) (.refl _)
    | bool _ | string _ =>
      exact (Lays.sign _).node (fun _ => Span.spans_singleton span) (nil_sublist _)
  | empty left right =>
    exact ((Lays.sign _).append (Lays.sign _)).between rfl (nil_sublist _)
  | group _ ih =>
    exact (Lays.nil [_]).append (ih.append (.nil [_]))
  | list _ hs ih =>
    refine ((Lays.sign _).append ((hs.lays_pieces ih).append (Lays.sign _))).between rfl ?_
    exact .cons _ (sublist_append_left _ _)

theorem PlacesStmt.lays {stmt : Stmt} (h : PlacesStmt ls stmt) :
    Lays source ls stmt.constituents := by
  cases h with
  | value he => exact he.lays
  | assign he => exact (Lays.word ⟨.name _, _⟩ rfl).append ((Lays.nil [_]).append he.lays)

theorem PlacesProgram.lays {stmts : List Stmt} (h : PlacesProgram ls stmts) :
    Lays source ls (stmts.flatMap Stmt.constituents) := by
  induction h with
  | nil => exact .nil []
  | separator _ _ ih => exact (Lays.nil [_]).append ih
  | last hs =>
    rw [flatMap_cons, flatMap_nil, append_nil]
    exact hs.lays
  | cons hs _ _ ih => exact hs.lays.append ((Lays.nil [_]).append ih)

/-- In every source that can be read, each node has a stretch of whole characters, and the parts
    of a node stand in order within it. So do statements, and in an assignment the name and then
    the value. Names and numbers stand there as they are spelt. -/
theorem places_nest (source : String) :
    (∀ e, Expr.parse source = .ok e → ∀ x, IsNode x e → Nested source x) ∧
      ∀ stmts, Stmt.parseAll source = .ok stmts →
        InOrder source (stmts.flatMap Stmt.constituents) ∧
        ∀ stmt ∈ stmts, ∀ e, .node e ∈ stmt.constituents → ∀ x, IsNode x e → Nested source x := by
  refine ⟨fun e he => ?_, fun stmts hs => ?_⟩
  · obtain ⟨ls, hscan, hplaces⟩ := places_parse he
    exact (hplaces.lays (Lexeme.cut_scan hscan)).sound (.node e) List.mem_cons_self
  · obtain ⟨ls, hscan, hplaces⟩ := places_parseAll hs
    have hcut := Lexeme.cut_scan hscan
    have hlaid := hplaces.lays hcut
    refine ⟨hlaid.inOrder hcut, fun stmt hstmt e he => ?_⟩
    exact hlaid.sound (.node e) (List.mem_flatMap.2 ⟨stmt, hstmt, he⟩)

/-- An assignment in which a letter of two bytes moves on what follows it, and a sum that starts
    with a parenthesis. -/
def tallied : String := "keep = count(\"é\", by=k) if ok else 0\n(-x) + y"

theorem places_nest_tallied :
    (∃ e, Expr.parse "(f(\"é\"), -x[1])" = .ok e ∧ e.span = ⟨1, 15⟩ ∧
      ∀ x, IsNode x e → Nested "(f(\"é\"), -x[1])" x) ∧
    ∃ stmts, Stmt.parseAll tallied = .ok stmts ∧
      (stmts.flatMap Stmt.constituents).map Constituent.span = [⟨0, 4⟩, ⟨7, 37⟩, ⟨39, 46⟩] ∧
      InOrder tallied (stmts.flatMap Stmt.constituents) ∧
      ∀ stmt ∈ stmts, ∀ e, .node e ∈ stmt.constituents → ∀ x, IsNode x e → Nested tallied x := by
  constructor
  · exact exists_ok_of (by decide +kernel) fun e he =>
      ⟨of_ok he (by decide +kernel), (places_nest _).1 e he⟩
  · exact exists_ok_of (by decide +kernel) fun stmts hs =>
      ⟨of_ok hs (by decide +kernel), (places_nest tallied).2 stmts hs⟩

end RowAwk.Syntax
