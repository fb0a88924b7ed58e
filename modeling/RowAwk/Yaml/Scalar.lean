import RowAwk.Number.Decimal
import RowAwk.Yaml.Cell

/-!
Scalars inside a line of text: plain ones, and those between quotes.

A scalar may go on over several lines. The gap between two words then folds: the blanks of a gap
that breaks a line count for nothing, one line break stands for a space, and of more breaks all but
the first one stay.

Each reader gives the text of a scalar and how many cells belong to it.
-/

namespace RowAwk.Yaml

/-! ### Folding -/

/-- What a gap between two words stands for. -/
def fold (gap : List Char) : List Char :=
  match gap.filter isBreak with
  | [] => gap
  | ['\n'] => [' ']
  | '\n' :: more => more
  | breaks => breaks

/-- What a gap stands for, if it may follow a line break that was `escaped`: all its breaks stay
    then. -/
def foldAfter (escaped : Bool) (gap : List Char) : List Char :=
  if escaped then gap.filter isBreak else fold gap

/-! ### Plain scalars -/

/-- Where a plain scalar is read: inside brackets or not, and the least column of its lines. -/
structure PlainContext where
  bracketed : Bool
  indent : Nat

/-- What has been read of a plain scalar: its text, the number of its cells with the gap after it,
    and whether that gap breaks the line. -/
structure PlainReading where
  text : List Char
  length : Nat
  breaksLine : Bool

namespace PlainContext

/-- Whether a plain scalar is over before this cell and those that follow it. -/
def endsBefore (context : PlainContext) (gap : List Char) (c : Cell) (cs : List Cell) : Bool :=
  (c.char == ':' && endsWord cs) || (context.bracketed && isDelimiter c.char)
    || (!gap.isEmpty && (c.char == '#' || isDocumentMark (c :: cs)
      || (!context.bracketed && c.place.column < context.indent)))

/-- Whether a colon stands right before a delimiter in brackets, where it is neither a part of the
    scalar nor its end. -/
def isStrayColon (context : PlainContext) (c : Cell) : List Cell → Bool
  | [] => false
  | d :: _ => context.bracketed && c.char == ':' && (isDelimiter d.char || d.char == '?')

/-- The rest of a plain scalar, after a gap. No tab may stand left of its lines. -/
def rest (context : PlainContext) (gap : List Char) : List Cell → Option PlainReading
  | [] => some ⟨[], 0, gap.any isBreak⟩
  | c :: cs =>
    if isGap c.char then
      if c.char == '\t' && gap.any isBreak && c.place.column < context.indent then none
      else do
        let r ← context.rest (gap ++ [c.char]) cs
        return { r with length := r.length + 1 }
    else if context.endsBefore gap c cs then some ⟨[], 0, gap.any isBreak⟩
    else if context.isStrayColon c cs then none
    else do
      let r ← context.rest [] cs
      return ⟨fold gap ++ c.char :: r.text, r.length + 1, r.breaksLine⟩

end PlainContext

/-! ### Scalars between quotes -/

/-- The character that a backslash and a letter stand for. -/
def escape? : Char → Option Char
  | '0' => some '\x00'
  | 'a' => some '\x07'
  | 'b' => some '\x08'
  | 't' => some '\t'
  | '\t' => some '\t'
  | 'n' => some '\n'
  | 'v' => some '\x0b'
  | 'f' => some '\x0c'
  | 'r' => some '\r'
  | 'e' => some '\x1b'
  | ' ' => some ' '
  | '"' => some '"'
  | '/' => some '/'
  | '\\' => some '\\'
  | 'N' => some '\x85'
  | '_' => some '\xa0'
  | 'L' => some '\u2028'
  | 'P' => some '\u2029'
  | _ => none

/-- How many digits an escape of a code point has. -/
def codeLength? : Char → Option Nat
  | 'x' => some 2
  | 'u' => some 4
  | 'U' => some 8
  | _ => none

/-- The character with a code point written in so many hexadecimal digits. -/
def codePoint? (length : Nat) (cs : List Cell) : Option Char := do
  let digits := (cs.take length).map Cell.char
  let n ← if digits.length = length then Number.natOfDigits? 16 digits else none
  if n.isValidChar then some (Char.ofNat n) else none

/-- A text with the part before it put in front, and the cells of that part counted. -/
def prepend (before : List Char) (length : Nat) (r : List Char × Nat) : List Char × Nat :=
  (before ++ r.1, r.2 + length)

/-- The rest of a scalar between single quotes with the closing one, after a gap. A quote inside is
    written twice. -/
def singleQuoted (gap : List Char) : List Cell → Option (List Char × Nat)
  | [] => none
  | c :: cs =>
    if isGap c.char then (singleQuoted (gap ++ [c.char]) cs).map (prepend [] 1)
    else if isDocumentMark (c :: cs) then none
    else if c.char == '\'' then
      match cs with
      | d :: ds =>
        if d.char == '\'' then (singleQuoted [] ds).map (prepend (fold gap ++ ['\'']) 2)
        else some (fold gap, 1)
      | [] => some (fold gap, 1)
    else (singleQuoted [] cs).map (prepend (fold gap ++ [c.char]) 1)

/-- The rest of a scalar between double quotes with the closing one, after a gap that may follow an
    escaped line break. -/
def doubleQuoted (escaped : Bool) (gap : List Char) (cs : List Cell) :
    Option (List Char × Nat) :=
  match cs with
  | [] => none
  | c :: cs =>
    if isGap c.char then (doubleQuoted escaped (gap ++ [c.char]) cs).map (prepend [] 1)
    else if isDocumentMark (c :: cs) then none
    else if c.char == '"' then some (foldAfter escaped gap, 1)
    else if c.char == '\\' then
      match cs with
      | [] => none
      | d :: ds =>
        if isBreak d.char then
          (doubleQuoted true [] ds).map (prepend (foldAfter escaped gap) 2)
        else match codeLength? d.char with
          | some length => do
            let e ← codePoint? length ds
            let r ← doubleQuoted false [] (ds.drop length)
            return prepend (foldAfter escaped gap ++ [e]) (length + 2) r
          | none => do
            let e ← escape? d.char
            let r ← doubleQuoted false [] ds
            return prepend (foldAfter escaped gap ++ [e]) 2 r
    else (doubleQuoted false [] cs).map (prepend (foldAfter escaped gap ++ [c.char]) 1)
termination_by cs.length
decreasing_by all_goals simp only [List.length_cons, List.length_drop]; omega

end RowAwk.Yaml
