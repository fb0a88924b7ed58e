import RowAwk.Number.Decimal
import RowAwk.Text.Alphanumeric

/-!
Which texts are patterns, that is, regular expressions.

    pattern  :=  branch ('|' branch)*
    branch   :=  (atom ('*' | '+' | '?')* | '(?' flags ')')*
    atom     :=  character | escape | class | '(' pattern ')' | '(?' flags ':' pattern ')'

Nothing is matched here, so one walk over the text is enough: it keeps how many groups are open,
whether there is something that could be repeated, and the names of groups. Repetitions with counts
and code points in braces are not patterns here, nor are word boundaries.
-/

namespace RowAwk.Command

namespace Pattern

/-! ### Escapes -/

/-- What an escape stands for: a character, a class of characters, or a place. -/
inductive Escape where
  | char (code : Nat)
  | set
  | place
deriving DecidableEq, Repr

/-- How many digits an escape of a code point has. -/
def codeLength? : Char → Option Nat
  | 'x' => some 2
  | 'u' => some 4
  | 'U' => some 8
  | _ => none

/-- The letters of the general categories. -/
def isCategory (c : Char) : Bool := ['c', 'l', 'm', 'n', 'p', 's', 'z'].contains c.toLower

/-- An escape after its backslash, and how many characters it takes. -/
def escape? : List Char → Option (Escape × Nat)
  | [] => none
  | c :: cs =>
    match codeLength? c with
    | some length =>
      let digits := cs.take length
      match if digits.length = length then Number.natOfDigits? 16 digits else none with
      | some code => if code.isValidChar then some (.char code, length + 1) else none
      | none => none
    | none =>
      if ['d', 'D', 's', 'S', 'w', 'W'].contains c then some (.set, 1)
      else if c == 'p' || c == 'P' then
        if cs.head?.any isCategory then some (.set, 2) else none
      else if c == 'A' || c == 'z' then some (.place, 1)
      else match c with
        | 'a' => some (.char 0x07, 1)
        | 'f' => some (.char 0x0C, 1)
        | 't' => some (.char 0x09, 1)
        | 'n' => some (.char 0x0A, 1)
        | 'r' => some (.char 0x0D, 1)
        | 'v' => some (.char 0x0B, 1)
        | _ =>
          if c.toNat < 0x80 && !c.isAlphanum && c != '<' && c != '>' then some (.char c.toNat, 1)
          else none

/-! ### Classes in brackets -/

/-- What may follow an opening bracket before the first item: a negation, and characters that would
    have a meaning further on. -/
def openLength (cs : List Char) : Nat :=
  let negation := if cs.head? == some '^' then 1 else 0
  let dashes := ((cs.drop negation).takeWhile (· == '-')).length
  let bracket := if dashes = 0 && (cs.drop negation).head? == some ']' then 1 else 0
  negation + dashes + bracket

/-- The names of classes that are written between colons. -/
def classNames : List String :=
  ["alnum", "alpha", "ascii", "blank", "cntrl", "digit", "graph", "lower", "print", "punct",
    "space", "upper", "word", "xdigit"]

/-- The length of a named class after its bracket. -/
def namedLength? : List Char → Option Nat
  | ':' :: cs =>
    let negation := if cs.head? == some '^' then 1 else 0
    let name := (cs.drop negation).takeWhile Char.isAlpha
    if classNames.contains (String.ofList name)
        && (cs.drop (negation + name.length)).take 2 == [':', ']'] then
      some (negation + name.length + 3)
    else none
  | _ => none

/-- A single item of a class, and how many characters it takes. -/
def item? : List Char → Option (Escape × Nat)
  | [] => none
  | '\\' :: cs => (escape? cs).map fun (e, n) => (e, n + 1)
  | c :: _ => some (.char c.toNat, 1)

/-- Whether a dash here makes a range with what follows. -/
def isRange : List Char → Bool
  | '-' :: c :: _ => c != ']' && c != '-'
  | _ => false

/-- The length of an item of a class or of a range of characters. -/
def itemLength? (cs : List Char) : Option Nat := do
  let (low, n) ← item? cs
  if isRange (cs.drop n) then
    let (high, m) ← item? (cs.drop (n + 1))
    match low, high with
    | .char a, .char b => if a ≤ b then some (n + 1 + m) else none
    | _, _ => none
  else if low = .place then none
  else some n

/-- The length of a class after its opening bracket and that of its items, up to the bracket that
    closes it, where `depth` classes are open inside of it. -/
def classLength? (depth : Nat) (cs : List Char) : Option Nat :=
  match cs with
  | [] => none
  | ']' :: rest => if depth = 0 then some 1 else (classLength? (depth - 1) rest).map (· + 1)
  | '[' :: rest =>
    match namedLength? rest with
    | some n => (classLength? depth (rest.drop n)).map (· + n + 1)
    | none =>
      let n := openLength rest
      (classLength? (depth + 1) (rest.drop n)).map (· + n + 1)
  | c :: rest =>
    if rest.head? == some c && (c == '&' || c == '-' || c == '~') then
      (classLength? depth (rest.drop 1)).map (· + 2)
    else do
      let n ← itemLength? (c :: rest)
      (classLength? depth (rest.drop (n - 1))).map (· + (n - 1) + 1)
termination_by cs.length
decreasing_by all_goals simp only [List.length_cons, List.length_drop]; omega

/-! ### Groups -/

/-- What an opening parenthesis starts: a group, with a name or without, or a change of flags. -/
inductive Group where
  | group (name : Option (List Char))
  | flags
deriving DecidableEq, Repr

def isFlag (c : Char) : Bool := ['i', 'm', 's', 'U', 'u', 'R', 'x'].contains c

/-- Whether these are flags: no two the same, and one negation at most, which is not the last. -/
def areFlags (cs : List Char) : Bool :=
  cs.all (fun c => isFlag c || c == '-') && cs.Nodup && cs.getLast? != some '-'

/-- Whether these characters are the name of a group. -/
def isGroupName : List Char → Bool
  | [] => false
  | c :: cs =>
    (c == '_' || (Text.isAlphanumeric c && !c.isDigit))
      && cs.all fun d => ['_', '.', '[', ']'].contains d || Text.isAlphanumeric d

/-- A group with a name, after the angle bracket, and how many characters stand before its
    pattern. -/
def namedGroup? (cs : List Char) : Option (Group × Nat) :=
  let name := cs.takeWhile (· != '>')
  if name.length < cs.length && isGroupName name then some (.group (some name), name.length + 1)
  else none

/-- What an opening parenthesis starts, and how many characters of that stand before a pattern. -/
def group? : List Char → Option (Group × Nat)
  | '?' :: 'P' :: '<' :: cs => (namedGroup? cs).map fun (g, n) => (g, n + 3)
  | '?' :: '<' :: cs => (namedGroup? cs).map fun (g, n) => (g, n + 2)
  | '?' :: cs =>
    let flags := cs.takeWhile fun c => c != ':' && c != ')'
    if !areFlags flags then none
    else match cs.drop flags.length with
      | ':' :: _ => some (.group none, flags.length + 2)
      | ')' :: _ => if flags.isEmpty then none else some (.flags, flags.length + 2)
      | _ => none
  | _ => some (.group none, 0)

/-! ### Patterns -/

/-- What is known in the middle of a pattern: the open groups, whether an atom stands here that
    could be repeated, and the names of groups so far. -/
structure Walk where
  depth : Nat := 0
  atom : Bool := false
  names : List (List Char) := []

/-- Whether a text is the rest of a pattern. -/
def isRest (w : Walk) (cs : List Char) : Bool :=
  match cs with
  | [] => w.depth == 0
  | c :: cs =>
    match c with
    | '(' =>
      match group? cs with
      | none => false
      | some (.flags, n) => isRest { w with atom := false } (cs.drop n)
      | some (.group none, n) => isRest ⟨w.depth + 1, false, w.names⟩ (cs.drop n)
      | some (.group (some name), n) =>
        !w.names.contains name && isRest ⟨w.depth + 1, false, name :: w.names⟩ (cs.drop n)
    | ')' => w.depth != 0 && isRest ⟨w.depth - 1, true, w.names⟩ cs
    | '|' => isRest { w with atom := false } cs
    | '*' | '+' | '?' => w.atom && isRest w cs
    | '\x7b' => false
    | '[' =>
      let n := openLength cs
      match classLength? 0 (cs.drop n) with
      | none => false
      | some m => isRest { w with atom := true } (cs.drop (n + m))
    | '\\' =>
      match escape? cs with
      | none => false
      | some (_, n) => isRest { w with atom := true } (cs.drop n)
    | _ => isRest { w with atom := true } cs
termination_by cs.length
decreasing_by all_goals simp only [List.length_cons, List.length_drop]; omega

end Pattern

/-- Whether a text is a pattern. -/
def isPattern (cs : List Char) : Bool := Pattern.isRest {} cs

end RowAwk.Command
