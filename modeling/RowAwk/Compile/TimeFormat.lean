import RowAwk.Compile.Error

/-!
Formats of dates, as a pattern that matches them and the parts that make a time of them.

    %d.%m.%Y      is      ^(..).(..).(....).*$      and      \3 \2 \1 00 00 00

Each code of a format becomes a group of the pattern, and the time refers to the groups by number.
A part without a code has a fixed value. If a code occurs twice, the last one counts.
-/

namespace RowAwk.Compile.TimeFormat

/-- The parts of a time, in the order in which it is written. -/
inductive Part where
  | year | month | day | hour | minute | second
deriving DecidableEq, Repr

namespace Part

def all : List Part := [.year, .month, .day, .hour, .minute, .second]

def code : Part → Char
  | .year => 'Y'
  | .month => 'm'
  | .day => 'd'
  | .hour => 'H'
  | .minute => 'M'
  | .second => 'S'

/-- How many characters a part takes. -/
def width : Part → Nat
  | .year => 4
  | _ => 2

/-- The value of a part that a format leaves out. -/
def fallback : Part → String
  | .year => "1970"
  | .month => "01"
  | .day => "01"
  | _ => "00"

/-- The part with a given code. -/
def ofCode? (c : Char) : Option Part := all.find? (·.code == c)

end Part

inductive Piece where
  | literal (c : Char)
  | part (part : Part)
deriving DecidableEq, Repr

/-- The pieces of a format, which is given whole for messages. -/
def pieces (format : String) : List Char → Except ArgumentFault (List Piece)
  | [] => .ok []
  | ['%'] => .error (.formatIncomplete format)
  | '%' :: c :: cs =>
    match Part.ofCode? c with
    | none => .error (.formatUnknown c)
    | some p => (pieces format cs).map (.part p :: ·)
  | c :: cs => (pieces format cs).map (.literal c :: ·)

/-- The pattern of a piece. -/
def Piece.pattern : Piece → List Char
  | .literal c => [c]
  | .part p => '(' :: List.replicate p.width '.' ++ [')']

/-- The pattern that matches a date with anything behind it. -/
def pattern (ps : List Piece) : String :=
  String.ofList ('^' :: ps.flatMap Piece.pattern ++ ['.', '*', '$'])

/-- The number of the last group for a part, where `count` groups come before. -/
def group? (p : Part) (count : Nat) : List Piece → Option Nat
  | [] => none
  | .literal _ :: ps => group? p count ps
  | .part q :: ps =>
    match group? p (count + 1) ps with
    | some n => some n
    | none => if p = q then some (count + 1) else none

/-- The time, in terms of the groups of the pattern. -/
def replacement (ps : List Piece) : String :=
  " ".intercalate (Part.all.map fun p =>
    match group? p 0 ps with
    | some n => "\\" ++ toString n
    | none => p.fallback)

end RowAwk.Compile.TimeFormat
