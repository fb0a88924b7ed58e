import RowAwk.Syntax.Name
import RowAwk.Text.Quoted

/-!
The tokens of row expressions, and the stretch of source each one covers.

A number keeps its spelling: whether it is an integer is decided only when it gets a value. A line
break is a token of its own, because outside brackets it ends a statement.
-/

namespace RowAwk.Syntax

/-- A stretch of a source text, in bytes: from `start` up to `stop`. -/
structure Span where
  start : Nat
  stop : Nat
deriving DecidableEq, Repr, Inhabited

namespace Span

/-- The smallest stretch that covers both. -/
def cover (a b : Span) : Span := ⟨min a.start b.start, max a.stop b.stop⟩

def text (s : Span) : String := toString s.start ++ ".." ++ toString s.stop

end Span

/-- A constant written in a source text. -/
inductive Literal where
  | bool (value : Bool)
  | number (spelling : String)
  | string (value : String)
deriving DecidableEq, Repr

namespace Literal

/-- Whether the literal is a number with a fraction or an exponent. -/
def isFractional : Literal → Bool
  | .number spelling => spelling.toList.any fun c => c == '.' || c == 'e' || c == 'E'
  | _ => false

def text : Literal → String
  | .bool true => "True"
  | .bool false => "False"
  | .number spelling => spelling
  | .string value => Text.quoted value

end Literal

inductive Keyword where
  | and | or | not | in | if | else
deriving DecidableEq, Repr

namespace Keyword

def text : Keyword → String
  | .and => "and"
  | .or => "or"
  | .not => "not"
  | .in => "in"
  | .if => "if"
  | .else => "else"

def all : List Keyword := [.and, .or, .not, .in, .if, .else]

end Keyword

inductive Symbol where
  | plus | minus | star | doubleStar | slash | doubleSlash | percent
  | ampersand | pipe | tilde | shiftLeft | shiftRight
  | assign | equal | notEqual | less | greater | lessEqual | greaterEqual
  | comma | semicolon | openParen | closeParen | openBracket | closeBracket
deriving DecidableEq, Repr

namespace Symbol

def chars : Symbol → List Char
  | .plus => ['+']
  | .minus => ['-']
  | .star => ['*']
  | .doubleStar => ['*', '*']
  | .slash => ['/']
  | .doubleSlash => ['/', '/']
  | .percent => ['%']
  | .ampersand => ['&']
  | .pipe => ['|']
  | .tilde => ['~']
  | .shiftLeft => ['<', '<']
  | .shiftRight => ['>', '>']
  | .assign => ['=']
  | .equal => ['=', '=']
  | .notEqual => ['!', '=']
  | .less => ['<']
  | .greater => ['>']
  | .lessEqual => ['<', '=']
  | .greaterEqual => ['>', '=']
  | .comma => [',']
  | .semicolon => [';']
  | .openParen => ['(']
  | .closeParen => [')']
  | .openBracket => ['[']
  | .closeBracket => [']']

/-- Every symbol, longer ones before those that start them. -/
def all : List Symbol :=
  [.doubleStar, .doubleSlash, .shiftLeft, .shiftRight, .equal, .notEqual, .lessEqual,
    .greaterEqual, .plus, .minus, .star, .slash, .percent, .ampersand, .pipe, .tilde, .assign,
    .less, .greater, .comma, .semicolon, .openParen, .closeParen, .openBracket, .closeBracket]

/-- The longest symbol at the head of a text. -/
def longest? (cs : List Char) : Option Symbol := all.find? fun s => s.chars.isPrefixOf cs

end Symbol

inductive Token where
  | keyword (word : Keyword)
  | literal (value : Literal)
  | name (name : String)
  | symbol (symbol : Symbol)
  | newline
deriving DecidableEq, Repr

namespace Token

def text : Token → String
  | .keyword word => word.text
  | .literal value => value.text
  | .name n => n
  | .symbol s => String.ofList s.chars
  | .newline => "newline"

/-- The token that a word is: a keyword, one of the two truth values, or a name. -/
def ofWord (word : String) : Token :=
  match Keyword.all.find? (·.text == word) with
  | some k => .keyword k
  | none =>
    if word = "True" then .literal (.bool true)
    else if word = "False" then .literal (.bool false)
    else .name word

end Token

end RowAwk.Syntax
