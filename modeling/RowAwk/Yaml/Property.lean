import RowAwk.Number.Decimal
import RowAwk.Yaml.Cell

/-!
Names on nodes: anchors, which aliases refer to, and tags, which say what kind of value is meant.

    anchor  :=  '&' word          alias  :=  '*' word
    tag     :=  '!<' uri '>'  |  '!!' uri  |  '!' uri?

A tag with two marks belongs to the core kinds of the format, one with a single mark is local.
Each reader starts after the mark and gives a name with the number of its cells.
-/

namespace RowAwk.Yaml

/-! ### Anchors -/

/-- The name of an anchor or an alias. A gap follows it, or a character that cannot be confused
    with it. -/
def anchorName? (cs : List Cell) : Option (String × Nat) :=
  let word := cs.takeWhile (isWordChar ·.char)
  let isClosed := match cs.drop word.length with
    | [] => true
    | c :: _ => isGap c.char || ['?', ':', ',', ']', '\x7d', '%', '@', '\x60'].contains c.char
  if word.isEmpty || !isClosed then none
  else some (String.ofList (word.map Cell.char), word.length)

/-! ### Tags -/

/-- The full tag of a core kind. -/
def coreTag (kind : String) : String := "tag:yaml.org,2002:" ++ kind

/-- Whether a character stands for itself in a tag. -/
def isUriChar (verbatim : Bool) (c : Char) : Bool :=
  isWordChar c
    || [';', '/', '?', ':', '@', '&', '=', '+', '$', '.', '!', '~', '*', '\'', '(', ')'].contains c
    || (verbatim && (c == ',' || c == '[' || c == ']'))

/-- The octet that a percent sign and two hexadecimal digits write. -/
def octet? (cs : List Cell) : Option Nat :=
  match (cs.take 3).map Cell.char with
  | ['%', a, b] => Number.natOfDigits? 16 [a, b]
  | _ => none

/-- The least code point of so many octets, and the part of the first octet that belongs to it. -/
def leadOctet? (octet : Nat) : Option (Nat × Nat × Nat) :=
  if octet < 0x80 then some (1, 0, octet)
  else if octet < 0xC0 then none
  else if octet < 0xE0 then some (2, 0x80, octet - 0xC0)
  else if octet < 0xF0 then some (3, 0x800, octet - 0xE0)
  else if octet < 0xF8 then some (4, 0x10000, octet - 0xF0)
  else none

/-- The code point that further octets complete. -/
def restOctets? (code : Nat) : Nat → List Cell → Option Nat
  | 0, _ => some code
  | n + 1, cs => do
    let octet ← octet? cs
    if octet / 0x40 = 2 then restOctets? (code * 0x40 + octet % 0x40) n (cs.drop 3) else none

/-- The character that octets write, and how many cells they take. -/
def octetChar? (cs : List Cell) : Option (Char × Nat) := do
  let (octets, least, head) ← leadOctet? (← octet? cs)
  let code ← restOctets? head (octets - 1) (cs.drop 3)
  if least ≤ code ∧ code.isValidChar then some (Char.ofNat code, 3 * octets) else none

/-- The characters of a tag, and how many cells they take. -/
def uri (verbatim : Bool) (cs : List Cell) : Option (List Char × Nat) :=
  match cs with
  | [] => some ([], 0)
  | c :: cs =>
    if c.char == '%' then do
      let (d, n) ← octetChar? (c :: cs)
      let (text, m) ← uri verbatim (cs.drop (n - 1))
      return (d :: text, n - 1 + m + 1)
    else if isUriChar verbatim c.char then
      (uri verbatim cs).map fun (text, m) => (c.char :: text, m + 1)
    else some ([], 0)
termination_by cs.length
decreasing_by all_goals simp only [List.length_cons, List.length_drop]; omega

/-- A tag written in full, between angle brackets, after the first of them. -/
def verbatimTag? (cs : List Cell) : Option (String × Nat) := do
  let (text, n) ← uri true cs
  match cs.drop n with
  | c :: _ => if c.char == '>' && n != 0 then some (String.ofList text, n + 2) else none
  | [] => none

/-- A tag after its first mark. Between two marks no word may stand. -/
def shortTag? (cs : List Cell) : Option (String × Nat) := do
  let word := cs.takeWhile (isWordChar ·.char)
  match cs.drop word.length with
  | c :: rest =>
    if c.char == '!' then
      let (text, n) ← uri false rest
      if n = 0 ∨ word ≠ [] then none else some (coreTag (String.ofList text), n + 1)
    else
      let (text, n) ← uri false cs
      return (String.ofList ('!' :: text), n)
  | [] => return (String.ofList ('!' :: word.map Cell.char), word.length)

/-- A tag after its first mark, and how many cells it takes. A gap follows it, or in brackets a
    comma. -/
def tag? (bracketed : Bool) (cs : List Cell) : Option (String × Nat) := do
  let (name, n) ← match cs with
    | c :: rest => if c.char == '<' then verbatimTag? rest else shortTag? cs
    | [] => shortTag? cs
  let isClosed := match cs.drop n with
    | [] => true
    | c :: _ => isGap c.char || (bracketed && c.char == ',')
  if isClosed then some (name, n) else none

end RowAwk.Yaml
