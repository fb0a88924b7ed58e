import RowAwk.Proofs.Placements

/-!
Lexemes at another place.

A source that stands behind another one has all its lexemes, but each so many bytes further on. The
rules look at tokens only, and a place is never more than handed on or covered with another. So
moved lexemes carry the moved tree.

    a + b            ⟨a 0..1⟩ ⟨+ 2..3⟩ ⟨b 4..5⟩          sum at 0..5
    x⏎a + b          ⟨a 2..3⟩ ⟨+ 4..5⟩ ⟨b 6..7⟩          sum at 2..7

A separator puts two programs together, whatever places their lexemes have.
-/

open List

namespace RowAwk.Syntax

/-! ### Moved places -/

/-- The stretch so many bytes further on. -/
def Span.shift (k : Nat) (s : Span) : Span := ⟨s.start + k, s.stop + k⟩

def Name.shift (k : Nat) (n : Name) : Name := ⟨n.text, n.span.shift k⟩

def Lexeme.shift (k : Nat) (l : Lexeme) : Lexeme := ⟨l.token, l.span.shift k⟩

theorem Span.shift_cover (k : Nat) (a b : Span) :
    (a.cover b).shift k = (a.shift k).cover (b.shift k) := by
  simp only [shift, cover, Span.mk.injEq]
  omega

namespace Expr

mutual

/-- The tree with every place so many bytes further on. -/
def shift (k : Nat) : Expr → Expr
  | .literal span value => .literal (span.shift k) value
  | .name span n => .name (span.shift k) n
  | .tuple span items => .tuple (span.shift k) (shiftAll k items)
  | .list span items => .list (span.shift k) (shiftAll k items)
  | .call span function args keywords =>
    .call (span.shift k) (function.shift k) (shiftAll k args) (shiftKeywords k keywords)
  | .subscript span base index => .subscript (span.shift k) (shift k base) (shift k index)
  | .unary span op operand => .unary (span.shift k) op (shift k operand)
  | .binary span op lhs rhs => .binary (span.shift k) op (shift k lhs) (shift k rhs)
  | .boolean span op operands => .boolean (span.shift k) op (shiftAll k operands)
  | .compare span op lhs rhs => .compare (span.shift k) op (shift k lhs) (shift k rhs)
  | .conditional span test yes no =>
    .conditional (span.shift k) (shift k test) (shift k yes) (shift k no)

def shiftAll (k : Nat) : List Expr → List Expr
  | [] => []
  | e :: es => shift k e :: shiftAll k es

def shiftKeywords (k : Nat) : List (KeywordArg Expr) → List (KeywordArg Expr)
  | [] => []
  | ⟨n, e⟩ :: rest => ⟨n.shift k, shift k e⟩ :: shiftKeywords k rest

end

theorem span_shift (k : Nat) (e : Expr) : (e.shift k).span = e.span.shift k := by
  cases e <;> simp only [shift, span]

end Expr

/-- The statement with every place so many bytes further on. -/
def Stmt.shift (k : Nat) : Stmt → Stmt
  | .assign target e => .assign (target.shift k) (e.shift k)
  | .value e => .value (e.shift k)

namespace Grammar

theorem coverAll_shift (k : Nat) (first : Expr) (more : List Expr) :
    coverAll (first.shift k) (Expr.shiftAll k more) = (coverAll first more).shift k := by
  rw [coverAll, coverAll, Expr.span_shift]
  generalize first.span = span
  induction more generalizing span with
  | nil => rfl
  | cons e more ih => rw [Expr.shiftAll, foldl_cons, foldl_cons, Expr.span_shift,
      ← Span.shift_cover, ih]

theorem unary_shift (k : Nat) (span : Span) (op : UnaryOp) (operand : Expr) :
    unary (span.shift k) op (operand.shift k) = (unary span op operand).shift k := by
  rw [unary, unary, Expr.shift, Expr.span_shift, Span.shift_cover]

theorem binary_shift (k : Nat) (op : BinaryOp) (lhs rhs : Expr) :
    binary op (lhs.shift k) (rhs.shift k) = (binary op lhs rhs).shift k := by
  rw [binary, binary, Expr.shift, Expr.span_shift, Expr.span_shift, Span.shift_cover]

end Grammar

/-! ### Trees on moved lexemes -/

def Piece.shift (k : Nat) (p : Piece) : Piece := (p.1.map (Lexeme.shift k), p.2.shift k)

def NamedPiece.shift (k : Nat) (p : NamedPiece) : NamedPiece :=
  ⟨p.name.shift k, p.sign.shift k, Piece.shift k p.value⟩

section

variable {k : Nat} {ls : List Lexeme}

theorem shiftAll_pieces (k : Nat) (pieces : List Piece) :
    Expr.shiftAll k (pieces.map Prod.snd) = (pieces.map (Piece.shift k)).map Prod.snd := by
  induction pieces with
  | nil => rfl
  | cons p pieces ih =>
    rw [map_cons, Expr.shiftAll, ih]
    rfl

theorem shiftKeywords_pieces (k : Nat) (named : List NamedPiece) :
    Expr.shiftKeywords k (named.map NamedPiece.keyword)
      = (named.map (NamedPiece.shift k)).map NamedPiece.keyword := by
  induction named with
  | nil => rfl
  | cons p named ih =>
    rw [map_cons, NamedPiece.keyword, Expr.shiftKeywords, ih]
    rfl

variable {items : List (List Lexeme)}

theorem Strung.shift (h : Strung items ls) (k : Nat) :
    Strung (items.map (List.map (Lexeme.shift k))) (ls.map (Lexeme.shift k)) := by
  induction h with
  | none => exact .none
  | last => exact .last
  | more _ ih =>
    rw [map_append]
    exact .more ih

theorem Strung.shift_pieces {pieces : List Piece} (h : Strung (pieces.map Prod.fst) ls) (k : Nat) :
    Strung ((pieces.map (Piece.shift k)).map Prod.fst) (ls.map (Lexeme.shift k)) := by
  have hs := h.shift k
  rwa [map_map] at hs ⊢

theorem Strung.shift_arguments {args : List Piece} {named : List NamedPiece}
    (h : Strung (args.map Prod.fst ++ named.map NamedPiece.lexemes) ls) (k : Nat) :
    Strung ((args.map (Piece.shift k)).map Prod.fst
      ++ (named.map (NamedPiece.shift k)).map NamedPiece.lexemes) (ls.map (Lexeme.shift k)) := by
  have hs := h.shift k
  rw [map_append, map_map, map_map] at hs
  rwa [map_map, map_map]

theorem Chained.shift {word : Keyword} (h : Chained word items ls) (k : Nat) :
    Chained word (items.map (List.map (Lexeme.shift k))) (ls.map (Lexeme.shift k)) := by
  induction h with
  | none => exact .none
  | more _ ih =>
    rw [map_cons, map_cons, map_append]
    exact .more ih

theorem tokens_shift (k : Nat) (ls : List Lexeme) :
    (ls.map (Lexeme.shift k)).map Lexeme.token = ls.map Lexeme.token := by
  rw [map_map]
  rfl

/-- On moved lexemes stands the moved tree. -/
theorem Places.shift {rule : Rule} {e : Expr} (h : Places rule ls e) (k : Nat) :
    Places rule (ls.map (Lexeme.shift k)) (e.shift k) := by
  induction h with
  | item _ ih => exact .item ih
  | tuple _ _ hs ih ihp =>
    rw [map_append, Expr.shift, Expr.shiftAll, ← Grammar.coverAll_shift, shiftAll_pieces]
    exact .tuple ih (forall_mem_map.2 ihp) (hs.shift_pieces k)
  | unconditional _ ih => exact .unconditional ih
  | conditional _ _ _ ihy iht ihn =>
    rw [map_append, map_cons, map_append, Expr.shift, Span.shift_cover,
      ← Expr.span_shift, ← Expr.span_shift]
    exact .conditional ihy iht ihn
  | link _ ih => exact .link ih
  | chain _ _ hne hc ih ihp =>
    have hc := hc.shift k
    rw [map_map] at hc
    rw [map_append, Expr.shift, Expr.shiftAll, ← Grammar.coverAll_shift, shiftAll_pieces]
    refine .chain ih (forall_mem_map.2 ihp) (by simpa using hne) ?_
    rwa [map_map]
  | positive _ ih => exact .positive ih
  | not _ ih =>
    rw [← Grammar.unary_shift]
    exact .not ih
  | uncompared _ ih => exact .uncompared ih
  | compare hop _ _ ihl ihr =>
    rw [map_append, map_append, Expr.shift, Span.shift_cover, ← Expr.span_shift, ← Expr.span_shift]
    exact .compare (by rw [tokens_shift, hop]) ihl ihr
  | operand _ ih => exact .operand ih
  | binary hop _ _ ihl ihr =>
    rw [map_append, ← Grammar.binary_shift]
    exact .binary hop ihl ihr
  | unsigned _ ih => exact .unsigned ih
  | sign l hop _ ih =>
    rw [← Grammar.unary_shift]
    exact .sign (l.shift k) hop ih
  | base _ ih => exact .base ih
  | power _ _ ihb ihe =>
    rw [map_append, ← Grammar.binary_shift]
    exact .power ihb ihe
  | bare _ ih => exact .bare ih
  | call _ _ _ hs ihf iha ihk =>
    rw [map_append, map_cons, map_append, Expr.shift, Span.shift_cover,
      shiftAll_pieces, shiftKeywords_pieces]
    exact .call ihf (forall_mem_map.2 iha) (forall_mem_map.2 ihk) (hs.shift_arguments k)
  | subscript _ _ ihb ihi =>
    rw [map_append, map_cons, map_append, Expr.shift, Span.shift_cover, ← Expr.span_shift]
    exact .subscript ihb ihi
  | name n span => exact .name n (span.shift k)
  | literal v span => exact .literal v (span.shift k)
  | empty left right =>
    rw [Expr.shift, Span.shift_cover]
    exact .empty (left.shift k) (right.shift k)
  | group _ ih =>
    rw [map_cons, map_append]
    exact .group ih
  | list _ hs ihp =>
    rw [map_cons, map_append, Expr.shift, Span.shift_cover, shiftAll_pieces]
    exact .list (forall_mem_map.2 ihp) (hs.shift_pieces k)

theorem PlacesStmt.shift {stmt : Stmt} (h : PlacesStmt ls stmt) (k : Nat) :
    PlacesStmt (ls.map (Lexeme.shift k)) (stmt.shift k) := by
  cases h with
  | value h => exact .value (h.shift k)
  | assign h => exact .assign (h.shift k)

theorem PlacesProgram.shift {stmts : List Stmt} (h : PlacesProgram ls stmts) (k : Nat) :
    PlacesProgram (ls.map (Lexeme.shift k)) (stmts.map (Stmt.shift k)) := by
  induction h with
  | nil => exact .nil
  | separator hl _ ih => exact .separator hl ih
  | last h => exact .last (h.shift k)
  | cons h hl _ ih =>
    rw [map_append]
    exact .cons (h.shift k) hl ih

end

/-! ### Programs one after the other -/

/-- A separator between two programs makes them one. -/
theorem PlacesProgram.join {ls ms : List Lexeme} {l : Lexeme} {stmts more : List Stmt}
    (h : PlacesProgram ls stmts) (hl : Grammar.isSeparator l.token = true)
    (hm : PlacesProgram ms more) : PlacesProgram (ls ++ l :: ms) (stmts ++ more) := by
  induction h with
  | nil => exact .separator hl hm
  | separator hs _ ih => exact .separator hs ih
  | last h => exact .cons h hl hm
  | cons h hs _ ih =>
    rw [append_assoc]
    exact .cons h hs ih

end RowAwk.Syntax
