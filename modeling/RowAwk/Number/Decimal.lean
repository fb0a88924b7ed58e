import RowAwk.Number.Binary64

/-!
Numbers read from decimal texts.

A decimal numeral is digits with at most one point among them and an exponent after them; there
has to be a digit before the exponent, on either side of the point.

    numeral  :=  sign? (digits ('.' digits?)? | '.' digits) (('e' | 'E') sign? digits)?
-/

namespace RowAwk.Number

/-- The value of some digits in a base. -/
def ofDigits (base : Nat) (digits : List Nat) : Nat :=
  digits.foldl (fun n d => base * n + d) 0

/-- The value of a digit in a base of at most sixteen. -/
def digitValue? (base : Nat) (c : Char) : Option Nat :=
  let value :=
    if '0' ≤ c ∧ c ≤ '9' then some (c.toNat - '0'.toNat)
    else if 'a' ≤ c ∧ c ≤ 'f' then some (c.toNat - 'a'.toNat + 10)
    else if 'A' ≤ c ∧ c ≤ 'F' then some (c.toNat - 'A'.toNat + 10)
    else none
  value.filter (· < base)

/-- The number that a text of one or more digits writes. -/
def natOfDigits? (base : Nat) (cs : List Char) : Option Nat :=
  if cs.isEmpty then none else (cs.mapM (digitValue? base)).map (ofDigits base)

/-- A sign at the head of a text, and what follows it. -/
def takeSign : List Char → Bool × List Char
  | '-' :: cs => (true, cs)
  | '+' :: cs => (false, cs)
  | cs => (false, cs)

/-- The whole number that a text writes in a base, with a sign or without. -/
def intOfDigits? (base : Nat) (cs : List Char) : Option Int :=
  let (negative, digits) := takeSign cs
  (natOfDigits? base digits).map fun n => if negative then -(n : Int) else n

/-- The natural number below `2 ^ 64` that a text writes, with a plus sign or without. -/
def word64OfDigits? (cs : List Char) : Option Nat :=
  let digits := match cs with
    | '+' :: rest => rest
    | cs => cs
  (natOfDigits? 10 digits).filter (· < Nat.pow 2 64)

/-- The exponent that ends a numeral; a numeral without one has exponent zero. -/
def exponentOf? : List Char → Option Int
  | [] => some 0
  | c :: cs => if c = 'e' ∨ c = 'E' then intOfDigits? 10 cs else none

/-- The fraction digits at the head of a text, and what follows them. -/
def takeFraction : List Char → List Char × List Char
  | '.' :: cs => (cs.takeWhile Char.isDigit, cs.dropWhile Char.isDigit)
  | cs => ([], cs)

namespace Binary64

/-- The number nearest to a numeral without a sign. -/
def ofNumeral? (negative : Bool) (cs : List Char) : Option Binary64 := do
  let whole := cs.takeWhile Char.isDigit
  let (fraction, rest) := takeFraction (cs.dropWhile Char.isDigit)
  let significand ← natOfDigits? 10 (whole ++ fraction)
  let exponent ← exponentOf? rest
  return ofDecimal negative significand (whole ++ fraction).length
    (exponent - fraction.length)

/-- The number nearest to the one that a text writes: a numeral, or a word for a value that no
    numeral has. -/
def ofText? (text : String) : Option Binary64 :=
  let (negative, cs) := takeSign text.toList
  let word := cs.map Char.toLower
  if word = "inf".toList ∨ word = "infinity".toList then some (.infinite negative)
  else if word = "nan".toList then some .nan
  else ofNumeral? negative cs

end Binary64

end RowAwk.Number
