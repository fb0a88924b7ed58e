import RowAwk.Yaml.Property
import RowAwk.Yaml.Value

/-!
What scalars mean, by their spelling and their tag.

A quoted scalar is a string, and a plain one is whatever its spelling says. A tag of a core kind
decides the kind, and the spelling has to fit it; any other full tag makes a string.
-/

namespace RowAwk.Yaml.Spelling

def isNull (text : String) : Bool := ["~", "null", "Null", "NULL"].contains text

def bool? (text : String) : Option Bool :=
  if ["true", "True", "TRUE"].contains text then some true
  else if ["false", "False", "FALSE"].contains text then some false
  else none

/-- A zero followed by digits, with a sign or without: an identifier and not a number. -/
def isPadded (cs : List Char) : Bool :=
  match (Number.takeSign cs).2 with
  | '0' :: c :: rest => c.isDigit && rest.all Char.isDigit
  | _ => false

/-- The base that a text announces, and its digits. -/
def baseOf : List Char → Nat × List Char
  | '0' :: 'x' :: cs => (16, cs)
  | '0' :: 'o' :: cs => (8, cs)
  | '0' :: 'b' :: cs => (2, cs)
  | cs => (10, cs)

/-- The whole number that a text writes. -/
def int? (cs : List Char) : Option Int :=
  if isPadded cs then none
  else
    let (negative, unsigned) := Number.takeSign cs
    let (base, digits) := baseOf unsigned
    (Number.natOfDigits? base digits).map fun n => if negative then -(n : Int) else n

/-- Whether a whole number fits in 64 bits, with a sign or without. -/
def isShort (n : Int) : Bool := -Int.pow 2 63 ≤ n && n < Int.pow 2 64

/-- Whether a whole number fits in 128 bits, with a sign or without. -/
def isLong (n : Int) : Bool := -Int.pow 2 127 ≤ n && n < Int.pow 2 128

/-- The number that a text writes in decimal, or names. -/
def float? (cs : List Char) : Option Number.Binary64 :=
  let (negative, unsigned) := Number.takeSign cs
  if [".inf", ".Inf", ".INF"].contains (String.ofList unsigned) then some (.infinite negative)
  else if [".nan", ".NaN", ".NAN"].contains (String.ofList cs) then some .nan
  else (Number.Binary64.ofNumeral? negative unsigned).filter (·.isFinite)

/-- The number with a point or an exponent that a plain scalar writes, or else the string. -/
def floatOrString (text : String) : Scalar :=
  match if isPadded text.toList then none else float? text.toList with
  | some x => .float x
  | none => .string text

/-- The value of a plain scalar. A whole number that fits in 128 bits only has no value, and a
    longer one is a number like those with a point. -/
def plain? (text : String) : Option Scalar :=
  if text.isEmpty || isNull text then some .null
  else match bool? text with
    | some b => some (.bool b)
    | none =>
      match int? text.toList with
      | none => some (floatOrString text)
      | some n =>
        if isShort n then some (.int n) else if isLong n then none else some (floatOrString text)

/-- The value of a scalar. A local tag does not change it. -/
def value? (tag : Option String) (plain : Bool) (text : String) : Option Scalar :=
  let untagged := if plain then plain? text else some (.string text)
  match tag with
  | none => untagged
  | some tag =>
    if tag = coreTag "bool" then (bool? text).map .bool
    else if tag = coreTag "int" then ((int? text.toList).filter isShort).map .int
    else if tag = coreTag "float" then (float? text.toList).map .float
    else if tag = coreTag "null" then if isNull text then some .null else none
    else if tag.startsWith "!" then untagged
    else some (.string text)

end RowAwk.Yaml.Spelling
