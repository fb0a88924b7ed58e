/-!
The characters of a YAML document, each with its place.

Layout carries meaning in YAML, so a character is kept with its line, its column and its distance
from the start. The usual line breaks become one character; the line separator and the paragraph
separator also end a line and stay what they are.
-/

namespace RowAwk.Yaml

/-- Whether a character may occur in a document: no controls but tabs and line breaks. -/
def isAllowed (c : Char) : Bool :=
  let n := c.toNat
  n == 9 || n == 10 || n == 13 || (0x20 ≤ n && n ≤ 0x7E) || n == 0x85
    || (0xA0 ≤ n && n ≤ 0xFFFD) || 0x10000 ≤ n

/-- A place in a document. The index counts characters, the line and the column start at zero. -/
structure Place where
  line : Nat
  column : Nat
  index : Nat
deriving DecidableEq, Repr

/-- A character at its place. -/
structure Cell where
  char : Char
  place : Place
deriving DecidableEq, Repr

namespace Place

def start : Place := ⟨0, 0, 0⟩

/-- The place after a character of the line. -/
def right (p : Place) : Place := ⟨p.line, p.column + 1, p.index + 1⟩

/-- The place after a line break of so many characters. -/
def down (p : Place) (length : Nat) : Place := ⟨p.line + 1, 0, p.index + length⟩

end Place

/-! ### Character classes -/

/-- Whether a character ends a line. -/
def isBreak (c : Char) : Bool := c == '\n' || c == '\u2028' || c == '\u2029'

def isSpace (c : Char) : Bool := c == ' ' || c == '\t'

/-- Whether a character separates words. -/
def isGap (c : Char) : Bool := isSpace c || isBreak c

/-- Whether a character may occur in the name of an anchor. -/
def isWordChar (c : Char) : Bool := c.isAlphanum || c == '_' || c == '-'

/-- Whether a character delimits lists and maps in brackets. -/
def isDelimiter (c : Char) : Bool :=
  c == ',' || c == '[' || c == ']' || c == '\x7b' || c == '\x7d'

/-! ### Cells -/

/-- The cells of a text that starts at a place. -/
def cellsFrom (p : Place) : List Char → List Cell
  | [] => []
  | '\r' :: '\n' :: cs => ⟨'\n', p⟩ :: cellsFrom (p.down 2) cs
  | c :: cs =>
    if c == '\r' || c == '\n' || c == '\x85' then ⟨'\n', p⟩ :: cellsFrom (p.down 1) cs
    else if isBreak c then ⟨c, p⟩ :: cellsFrom (p.down 1) cs
    else ⟨c, p⟩ :: cellsFrom p.right cs

/-- The cells of a text, or none if it holds a character that no document may hold. -/
def cells? (cs : List Char) : Option (List Cell) :=
  if cs.all isAllowed then some (cellsFrom .start cs) else none

/-- Whether a word ends here: at the end of the text, or before a gap. -/
def endsWord : List Cell → Bool
  | [] => true
  | c :: _ => isGap c.char

/-- Whether a document mark of this character stands here: three of them at the start of a line,
    and then a gap. -/
def isMark (char : Char) : List Cell → Bool
  | a :: b :: c :: rest =>
    a.place.column == 0 && a.char == char && b.char == char && c.char == char && endsWord rest
  | _ => false

/-- Whether a document starts or ends here. -/
def isDocumentMark (cs : List Cell) : Bool := isMark '-' cs || isMark '.' cs

end RowAwk.Yaml
