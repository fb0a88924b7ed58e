import RowAwk.Yaml.Cell

/-!
Scalars that take lines of their own.

    |     keeps the line breaks of the text
    >     folds them, except around lines that start with a blank

After the indicator stand how the end of the text is treated and how far it is indented; without
the latter, its first line says so. The text goes on while lines are indented that far.
-/

namespace RowAwk.Yaml.BlockScalar

/-- What becomes of the line breaks at the end of a text: none is kept, one or all of them. -/
inductive Chomping where | strip | clip | keep
deriving DecidableEq, Repr

def chomping? : Char → Option Chomping
  | '+' => some .keep
  | '-' => some .strip
  | _ => none

def digit? (c : Char) : Option Nat := if c.isDigit then some (c.toNat - '0'.toNat) else none

/-! ### The line of the indicator -/

/-- The indicators of a block scalar, in either order: the treatment of its end and its indentation,
    zero if not given, and how many cells they take. A zero is not written. -/
def indicators (cs : List Cell) : Option (Chomping × Nat × Nat) :=
  let first := cs.head?.map Cell.char
  let second := cs.tail.head?.map Cell.char
  match first.bind chomping?, first.bind digit? with
  | some chomping, _ =>
    match second.bind digit? with
    | some 0 => none
    | some digit => some (chomping, digit, 2)
    | none => some (chomping, 0, 1)
  | none, some 0 => none
  | none, some digit =>
    match second.bind chomping? with
    | some chomping => some (chomping, digit, 2)
    | none => some (.clip, digit, 1)
  | none, none => some (.clip, 0, 0)

/-- The cells up to the next line, if there are only blanks and a comment. -/
def lineEnd? (cs : List Cell) : Option Nat :=
  let blanks := (cs.takeWhile (isSpace ·.char)).length
  let comment := match cs.drop blanks with
    | [] => 0
    | c :: rest =>
      if c.char == '#' then ((c :: rest).takeWhile (!isBreak ·.char)).length else 0
  match cs.drop (blanks + comment) with
  | [] => some (blanks + comment)
  | c :: _ => if isBreak c.char then some (blanks + comment + 1) else none

/-! ### Lines -/

/-- What stands between two lines of a text: the breaks of empty lines, the widest indentation seen
    and the number of cells. -/
structure Margin where
  breaks : List Char
  widest : Nat
  length : Nat

/-- The empty lines and the indentation before a line. No tab may stand in the indentation, of
    which the `indent` is the width once it is known. -/
def margin (indent : Option Nat) (widest : Nat) : List Cell → Option Margin
  | [] => some ⟨[], widest, 0⟩
  | c :: cs =>
    let inside := indent.all (c.place.column < ·)
    if c.char == ' ' && inside then do
      let m ← margin indent widest cs
      return { m with length := m.length + 1 }
    else if c.char == '\t' && inside then none
    else if isBreak c.char then do
      let m ← margin indent (max widest c.place.column) cs
      return { m with breaks := c.char :: m.breaks, length := m.length + 1 }
    else some ⟨[], max widest c.place.column, 0⟩

/-- What has been read before a line: the break after the line before it, the breaks of the empty
    lines since then, and whether the line before started with a blank. -/
structure Seam where
  ending : List Char := []
  breaks : List Char
  afterBlank : Bool := false

/-- How a line that may start with a blank is joined to the text before it. -/
def Seam.join (literal startsBlank : Bool) (s : Seam) : List Char :=
  if !literal && s.ending == ['\n'] && !s.afterBlank && !startsBlank then
    if s.breaks.isEmpty then [' '] else s.breaks
  else s.ending ++ s.breaks

/-- What stays of the breaks at the end of a text. -/
def Seam.chomp (s : Seam) : Chomping → List Char
  | .strip => []
  | .clip => s.ending
  | .keep => s.ending ++ s.breaks

/-- The lines of a text with its end, and how many cells they take. -/
def lines (literal : Bool) (chomping : Chomping) (indent : Nat) (seam : Seam) (cs : List Cell) :
    Option (List Char × Nat) :=
  match cs with
  | [] => some (seam.chomp chomping, 0)
  | c :: cs =>
    if c.place.column != indent then some (seam.chomp chomping, 0)
    else
      let startsBlank := isSpace c.char
      let line := cs.takeWhile (!isBreak ·.char)
      let text := seam.join literal startsBlank ++ c.char :: line.map Cell.char
      match h : cs.drop line.length with
      | [] => some (text, line.length + 1)
      | b :: rest => do
        have hr : rest.length < cs.length := by
          have := congrArg List.length h
          simp only [List.length_drop, List.length_cons] at this
          omega
        let m ← margin (some indent) 0 rest
        let (more, n) ←
          lines literal chomping indent ⟨[b.char], m.breaks, startsBlank⟩ (rest.drop m.length)
        return (text ++ more, line.length + m.length + n + 2)
termination_by cs.length
decreasing_by simp only [List.length_cons, List.length_drop]; omega

/-- The text of a block scalar after its indicator, in a block whose lines start at the column
    `least`, and how many cells it takes. -/
def read? (literal : Bool) (least : Nat) (cs : List Cell) : Option (List Char × Nat) := do
  let (chomping, digit, n) ← indicators cs
  let headLength := n + (← lineEnd? (cs.drop n))
  let body := cs.drop headLength
  let given := if digit = 0 then none else some (least - 1 + digit)
  let m ← margin given 0 body
  let indent := given.getD (max m.widest (max least 1))
  let seam : Seam := { breaks := m.breaks }
  let (text, length) ← lines literal chomping indent seam (body.drop m.length)
  return (text, headLength + m.length + length)

end RowAwk.Yaml.BlockScalar
