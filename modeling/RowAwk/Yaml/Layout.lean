import RowAwk.Yaml.BlockScalar
import RowAwk.Yaml.Property
import RowAwk.Yaml.Scalar
import RowAwk.Yaml.Token

/-!
From the cells of a document to its tokens.

A key is only known as one when the colon after it is reached. So the place where a key may have
started is kept, one for each bracket that is open and one outside of them, and the token `key` is
put there later. Such a place expires at the end of its line and after 1024 characters. Outside of
brackets the columns of the open blocks are kept as well: a line that starts left of a block closes
it.
-/

namespace RowAwk.Yaml

/-- A place where a key may have started: how many tokens stood before it, and whether the layout
    allows nothing else there. -/
structure PossibleKey where
  number : Nat
  place : Place
  required : Bool
deriving DecidableEq, Repr

/-- What is known after some cells: the tokens, the latest one first; whether a key may start here;
    the possible key, those outside the open brackets, and the columns of the open blocks. -/
structure Layout where
  tokens : List Token
  keyAllowed : Bool
  key : Option PossibleKey
  outer : List (Option PossibleKey)
  columns : List Nat
deriving DecidableEq, Repr

namespace Layout

def start : Layout := ⟨[], true, none, [], []⟩

/-- Whether a bracket is open. -/
def bracketed (l : Layout) : Bool := !l.outer.isEmpty

/-- The least column of lines that belong to the innermost block. -/
def least (l : Layout) : Nat :=
  match l.columns with
  | [] => 0
  | column :: _ => column + 1

def push (token : Token) (l : Layout) : Layout := { l with tokens := token :: l.tokens }

/-- Puts a token behind the first `number` ones. -/
def insert (number : Nat) (token : Token) (l : Layout) : Layout :=
  { l with tokens := l.tokens.insertIdx (l.tokens.length - number) token }

def allowKey (allowed : Bool) (l : Layout) : Layout := { l with keyAllowed := allowed }

/-! ### Possible keys -/

/-- A possible key seen from a later place: it is gone if it has expired, unless it was required. -/
def expire (here : Place) : Option PossibleKey → Option (Option PossibleKey)
  | none => some none
  | some k =>
    if k.place.line < here.line || k.place.index + 1024 < here.index then
      if k.required then none else some none
    else some (some k)

/-- The layout at a later place. -/
def reach? (here : Place) (l : Layout) : Option Layout := do
  return { l with key := ← expire here l.key, outer := ← l.outer.mapM (expire here) }

/-- Gives up the possible key. -/
def dropKey? (l : Layout) : Option Layout :=
  if l.key.any (·.required) then none else some { l with key := none }

/-- Notes that a key may start here. -/
def noteKey? (here : Place) (l : Layout) : Option Layout :=
  if l.keyAllowed then do
    let l ← l.dropKey?
    let required := !l.bracketed && l.columns.head? == some here.column
    return { l with key := some ⟨l.tokens.length, here, required⟩ }
  else some l

/-! ### Blocks -/

/-- Opens a block at a column, behind the first `number` tokens, unless one is open there. -/
def openBlock (column number : Nat) (token : Token) (l : Layout) : Layout :=
  if !l.bracketed && l.columns.head?.all (· < column) then
    { l with columns := column :: l.columns }.insert number token
  else l

/-- Closes the blocks at the columns of a class, up to the first one that is not. -/
def closeWhile (p : Nat → Bool) (l : Layout) : Layout :=
  if l.bracketed then l
  else
    { l with
      tokens := (l.columns.takeWhile p).map (fun _ => .closeBlock) ++ l.tokens
      columns := l.columns.dropWhile p }

/-- Closes the blocks that a line at this column ends. -/
def closeTo (column : Nat) (l : Layout) : Layout := l.closeWhile (column < ·)

/-- Closes all blocks. -/
def closeAll (l : Layout) : Layout := l.closeWhile fun _ => true

/-! ### Tokens -/

/-- A token with which a key may start. -/
def opening? (here : Place) (token : Token) (l : Layout) : Option Layout := do
  let l ← l.noteKey? here
  return (l.allowKey false).push token

/-- An opening bracket. -/
def openBracket? (here : Place) (token : Token) (l : Layout) : Option Layout := do
  let l ← l.noteKey? here
  return { l with key := none, outer := l.key :: l.outer, keyAllowed := true }.push token

/-- A closing bracket. -/
def closeBracket? (token : Token) (l : Layout) : Option Layout := do
  let l ← l.dropKey?
  let inside := match l.outer with
    | [] => l
    | key :: outer => { l with key, outer }
  return (inside.allowKey false).push token

def comma? (l : Layout) : Option Layout := do
  let l ← l.dropKey?
  return (l.allowKey true).push .comma

/-- The start of an entry, or of a key that is marked, which opens a block if it has to. -/
def item? (here : Place) (block token : Token) (allowed : Bool) (l : Layout) : Option Layout :=
  if !l.bracketed && !l.keyAllowed then none
  else do
    let l ← (l.openBlock here.column l.tokens.length block).dropKey?
    return (l.allowKey allowed).push token

/-- A colon: the possible key before it is one. Without it the key is empty, or was marked. -/
def value? (here : Place) (l : Layout) : Option Layout :=
  match l.key with
  | some k =>
    let l := (l.insert k.number .key).openBlock k.place.column k.number .openMapBlock
    some ({ l with key := none, keyAllowed := false }.push .value)
  | none =>
    if !l.bracketed && !l.keyAllowed then none
    else
      let l := l.openBlock here.column l.tokens.length .openMapBlock
      some ((l.allowKey !l.bracketed).push .value)

/-- The end of a document. -/
def endDocument? (l : Layout) : Option Layout := do
  let l ← l.closeAll.dropKey?
  return (l.allowKey false).push .documentEnd

/-- A plain scalar. A key may follow one that ends with its line. -/
def plain? (c : Cell) (cs : List Cell) (l : Layout) : Option (Layout × Nat) := do
  let r ← PlainContext.rest ⟨l.bracketed, l.least⟩ [] cs
  let l ← l.opening? c.place (.scalar true (String.ofList (c.char :: r.text)))
  return (l.allowKey r.breaksLine, r.length)

/-- A block scalar. -/
def block? (literal : Bool) (cs : List Cell) (l : Layout) : Option (Layout × Nat) := do
  if l.bracketed then none
  let l ← l.dropKey?
  let (text, n) ← BlockScalar.read? literal l.least cs
  return ((l.allowKey true).push (.scalar false (String.ofList text)), n)

/-- A token that has a text, with its length. -/
def named? (here : Place) (token : String → Token) (read : Option (String × Nat)) (l : Layout) :
    Option (Layout × Nat) := do
  let (name, n) ← read
  return (← l.opening? here (token name), n)

/-- A token of one cell. -/
def alone (l : Option Layout) : Option (Layout × Nat) := l.map fun l => (l, 0)

/-- The layout after the token that starts with a cell, and how many further cells belong to it. -/
def next? (c : Cell) (cs : List Cell) (l : Layout) : Option (Layout × Nat) :=
  let here := c.place
  let quoted (r : List Char × Nat) : String × Nat := (String.ofList r.1, r.2)
  if isMark '-' (c :: cs) || (c.char == '%' && here.column == 0) then none
  else if isMark '.' (c :: cs) then l.endDocument?.map fun l => (l, 2)
  else match c.char with
    | '[' => alone (l.openBracket? here .openList)
    | '\x7b' => alone (l.openBracket? here .openMap)
    | ']' => alone (l.closeBracket? .closeList)
    | '\x7d' => alone (l.closeBracket? .closeMap)
    | ',' => alone l.comma?
    | '-' =>
      if endsWord cs then alone (l.item? here .openListBlock .entry true) else l.plain? c cs
    | '?' =>
      if l.bracketed || endsWord cs then alone (l.item? here .openMapBlock .key !l.bracketed)
      else l.plain? c cs
    | ':' => if l.bracketed || endsWord cs then alone (l.value? here) else l.plain? c cs
    | '*' => l.named? here .alias (anchorName? cs)
    | '&' => l.named? here .anchor (anchorName? cs)
    | '!' => l.named? here .tag (tag? l.bracketed cs)
    | '|' => l.block? true cs
    | '>' => l.block? false cs
    | '\'' => l.named? here (.scalar false) ((singleQuoted [] cs).map quoted)
    | '"' => l.named? here (.scalar false) ((doubleQuoted false [] cs).map quoted)
    | '#' | '%' | '@' | '\x60' => none
    | d => if isGap d then none else l.plain? c cs

end Layout

/-! ### Gaps between tokens -/

/-- Skips blanks, line breaks and comments up to the next token. Outside of brackets a key may
    start on a new line, and no tab may stand where a key may start. -/
def skipGap (inComment : Bool) (l : Layout) : List Cell → Layout × List Cell
  | [] => (l, [])
  | c :: cs =>
    if isBreak c.char then skipGap false (l.allowKey (l.keyAllowed || !l.bracketed)) cs
    else if inComment || c.char == ' ' || (c.char == '\t' && (l.bracketed || !l.keyAllowed)) then
      skipGap inComment l cs
    else if c.char == '#' then skipGap true l cs
    else (l, c :: cs)

theorem length_skipGap (inComment : Bool) (l : Layout) (cs : List Cell) :
    (skipGap inComment l cs).2.length ≤ cs.length := by
  induction cs generalizing inComment l with
  | nil => simp [skipGap]
  | cons c cs ih =>
    rw [skipGap]
    split
    · exact Nat.le_succ_of_le (ih ..)
    · split
      · exact Nat.le_succ_of_le (ih ..)
      · split
        · exact Nat.le_succ_of_le (ih ..)
        · exact Nat.le_refl _

/-- The layout after all cells, with every block closed. -/
def Layout.read? (l : Layout) (cs : List Cell) : Option Layout :=
  match h : skipGap false l cs with
  | (m, []) => m.closeAll.dropKey?
  | (m, c :: rest) => do
    have hr : rest.length < cs.length := by
      have := length_skipGap false l cs
      simp only [h, List.length_cons] at this
      omega
    let m ← m.reach? c.place
    let (m, n) ← (m.closeTo c.place.column).next? c rest
    m.read? (rest.drop n)
termination_by cs.length
decreasing_by simp only [List.length_drop]; omega

/-- The tokens of a document. -/
def tokens? (cs : List Cell) : Option (List Token) :=
  (Layout.start.read? cs).map (·.tokens.reverse)

end RowAwk.Yaml
