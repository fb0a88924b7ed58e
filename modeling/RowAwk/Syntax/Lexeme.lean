import RowAwk.Syntax.Error
import RowAwk.Text.Blank

/-!
Cutting a source text into lexemes: tokens with the bytes they cover.

The head of a text belongs to a stretch to skip, to the longest token that starts there, or to
something that is no token. `first` says which, and how many characters after the first one belong
to it; so what is left is a proper suffix by construction and `scanFrom` ends.

    text:    total  =  sum ( v )  # all
    pieces:  name _ = _ name ( name ) __ comment
-/

namespace RowAwk.Syntax

structure Lexeme where
  token : Token
  span : Span
deriving DecidableEq, Repr

namespace Lexeme

/-- What the head of a text is. -/
inductive Piece where
  | skipped
  | token (token : Token)
  | unknown
deriving DecidableEq, Repr

/-- Characters that may stand between tokens. -/
def isGap (c : Char) : Bool := c == ' ' || c == '\t' || c == '\r' || c == '\x0c'

/-! ### Numbers -/

/-- The number of digits at the head of a text. -/
def digits (cs : List Char) : Nat := (cs.takeWhile Char.isDigit).length

/-- The length of a fraction at the head of a text. A point without digits after it is none. -/
def fraction : List Char → Nat
  | '.' :: cs => if digits cs = 0 then 0 else digits cs + 1
  | _ => 0

/-- The length of the sign at the head of a text. -/
def sign : List Char → Nat
  | '+' :: _ => 1
  | '-' :: _ => 1
  | _ => 0

/-- The length of an exponent at the head of a text. A mark without digits after it is none. -/
def exponent : List Char → Nat
  | c :: cs =>
    if c = 'e' ∨ c = 'E' then
      let n := digits (cs.drop (sign cs))
      if n = 0 then 0 else 1 + sign cs + n
    else 0
  | [] => 0

/-- How many characters of a text continue a number that one digit has started. -/
def numberTail (cs : List Char) : Nat :=
  let whole := digits cs
  let part := fraction (cs.drop whole)
  whole + part + exponent (cs.drop (whole + part))

/-! ### Strings -/

/-- The character that a backslash and a letter stand for. -/
def unescape? : Char → Option Char
  | '\'' => some '\''
  | '"' => some '"'
  | '\\' => some '\\'
  | 'n' => some '\n'
  | 'r' => some '\r'
  | 't' => some '\t'
  | _ => none

/-- Reads a string after its opening quote: how many characters belong to it, and its value. There
    is no value if an escape is unknown, or if the line ends first; then the characters are those
    up to the last complete one. -/
def stringTail (quote : Char) : List Char → Nat × Option (List Char)
  | [] => (0, none)
  | '\\' :: c :: cs =>
    if c = '\n' then (0, none)
    else
      let (n, value) := stringTail quote cs
      (n + 2, (unescape? c).bind fun d => value.map (d :: ·))
  | c :: cs =>
    if c = quote then (1, some [])
    else if c = '\\' ∨ c = '\n' then (0, none)
    else
      let (n, value) := stringTail quote cs
      (n + 1, value.map (c :: ·))

/-! ### The scan -/

/-- What a text `c :: cs` starts with, and how many characters of `cs` belong to it. -/
def first (c : Char) (cs : List Char) : Piece × Nat :=
  if isGap c then (.skipped, (cs.takeWhile isGap).length)
  else if c = '#' then (.skipped, (cs.takeWhile (· != '\n')).length)
  else if c = '\n' then (.token .newline, 0)
  else if c.isDigit then
    let n := numberTail cs
    (.token (.literal (.number (String.ofList (c :: cs.take n)))), n)
  else if c = '"' ∨ c = '\'' then
    match stringTail c cs with
    | (n, some value) => (.token (.literal (.string (String.ofList value))), n)
    | (n, none) => (.unknown, n)
  else if isNameStart c then
    let word := cs.takeWhile isNamePart
    (.token (.ofWord (String.ofList (c :: word))), word.length)
  else
    match Symbol.longest? (c :: cs) with
    | some symbol => (.token (.symbol symbol), symbol.chars.length - 1)
    | none => (.unknown, 0)

/-- The lexemes of a text that starts at byte `start` of its source. -/
def scanFrom (start : Nat) : List Char → Except SyntaxError (List Lexeme)
  | [] => .ok []
  | c :: cs =>
    let piece := first c cs
    let text := c :: cs.take piece.2
    let span : Span := ⟨start, start + Text.byteLength text⟩
    let rest := scanFrom span.stop (cs.drop piece.2)
    match piece.1 with
    | .skipped => rest
    | .token token => rest.map (⟨token, span⟩ :: ·)
    | .unknown => .error (.unrecognized (String.ofList text) span)
termination_by cs => cs.length
decreasing_by simp only [List.length_drop, List.length_cons]; omega

/-- The depth of brackets after a token; a closing bracket too many leaves it at zero. -/
def depthAfter (depth : Nat) : Token → Nat
  | .symbol .openParen | .symbol .openBracket => depth + 1
  | .symbol .closeParen | .symbol .closeBracket => depth - 1
  | _ => depth

end Lexeme

end RowAwk.Syntax
