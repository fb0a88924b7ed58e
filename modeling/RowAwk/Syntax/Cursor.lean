import RowAwk.Syntax.Lexeme

/-!
A cursor over the lexemes of a source.

The lexemes stay as they are, and a position moves over them. A line break separates statements, but
inside brackets it separates nothing and is passed over. Which of the two it is follows from the
brackets that the cursor has met on its way.

    lexemes:  x  =  f  (  a  ,  ⏎  b  )  ⏎  y
    depth:    0  0  0  0  1  1  1  1  1  0  0

Each step forward comes with the fact that fewer lexemes are left, so that a loop over steps ends.
-/

namespace RowAwk.Syntax

structure Cursor where
  lexemes : List Lexeme
  position : Nat
  /-- The number of brackets that are open before the position. -/
  depth : Nat
  /-- Where the source ends, in bytes. -/
  stop : Nat

/-- The number of lexemes from the position on, with every line break. -/
def Cursor.left (c : Cursor) : Nat := c.lexemes.length - c.position

/-- What has been read of a source: a value, and the cursor after it with fewer than `bound` lexemes
    left. What may read nothing is bounded by one more than it was given. -/
structure Read (α : Type) (bound : Nat) where
  value : α
  rest : Cursor
  fewer : rest.left < bound

namespace Read

/-- The same with another value. -/
def map {α β : Type} {bound : Nat} (f : α → β) (r : Read α bound) : Read β bound :=
  ⟨f r.value, r.rest, r.fewer⟩

/-- The same under a higher bound. -/
def weaken {α : Type} {bound bound' : Nat} (r : Read α bound) (h : bound ≤ bound') :
    Read α bound' :=
  ⟨r.value, r.rest, Nat.lt_of_lt_of_le r.fewer h⟩

end Read

namespace Cursor

/-- A cursor before the first lexeme of a source text. -/
def start (source : String) : Except SyntaxError Cursor :=
  (Lexeme.scanFrom 0 source.toList).map fun ls => ⟨ls, 0, 0, source.utf8ByteSize⟩

/-- The place that is reached from another one by passing over line breaks, inside brackets. -/
def settle (c : Cursor) (index : Nat) : Nat :=
  if 0 < c.depth then
    index + ((c.lexemes.drop index).takeWhile fun l => l.token == .newline).length
  else index

theorem le_settle (c : Cursor) (index : Nat) : index ≤ c.settle index := by
  rw [settle]
  split <;> omega

/-- The place of the lexeme that is `n` after the next one. -/
def indexOf (c : Cursor) : Nat → Nat
  | 0 => c.settle c.position
  | n + 1 => c.settle (c.indexOf n + 1)

/-- The token that is `n` after the next one. -/
def peekNth (c : Cursor) (n : Nat) : Option Token := c.lexemes[c.indexOf n]?.map Lexeme.token

/-- The next token. -/
def peek (c : Cursor) : Option Token := c.peekNth 0

/-- Where the next lexeme stands, or the end of the source. -/
def location (c : Cursor) : Span :=
  match c.lexemes[c.indexOf 0]? with
  | some l => l.span
  | none => ⟨c.stop, c.stop⟩

/-- Takes the next lexeme. -/
def next (c : Cursor) : Option (Read Lexeme c.left) :=
  if h : c.indexOf 0 < c.lexemes.length then
    let l := c.lexemes[c.indexOf 0]
    some ⟨l, ⟨c.lexemes, c.indexOf 0 + 1, Lexeme.depthAfter c.depth l.token, c.stop⟩, by
      have hp : c.position ≤ c.indexOf 0 := c.le_settle c.position
      simp only [left]
      omega⟩
  else none

/-- Takes the next lexeme if it is a given token. -/
def eat (c : Cursor) (token : Token) : Option (Read Span c.left) :=
  if c.peek = some token then c.next.map (Read.map Lexeme.span) else none

/-- The failure at the next lexeme, where something else was due. -/
def unexpected (c : Cursor) (expected : Expected) : SyntaxError :=
  match c.peek with
  | some token => .unexpected token c.location expected
  | none => .unexpectedEnd expected

/-- Takes one given token. -/
def expect (c : Cursor) (token : Token) (expected : Expected) :
    Except SyntaxError (Read Span c.left) :=
  match c.eat token with
  | none => .error (c.unexpected expected)
  | some sign => .ok sign

end Cursor

end RowAwk.Syntax
