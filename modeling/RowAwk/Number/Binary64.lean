/-!
Double precision numbers as exact values.

A finite number is `± mantissa · 2 ^ exponent`. In normal form the mantissa has 53 bits, or fewer
at the least exponent, so a value has one form (and zero two, one for each sign). Reading a decimal
is a single rounding of an exact quotient to the nearest such value, ties to the even mantissa, in
arithmetic of natural numbers.

    12.5e-3  ──▶  125 / 10 ^ 4  ──▶  nearest  m · 2 ^ q
-/

namespace RowAwk.Number

inductive Binary64 where
  | nan
  | infinite (negative : Bool)
  | finite (negative : Bool) (mantissa : Nat) (exponent : Int)
deriving DecidableEq, Repr

/-- The quotient of two numbers, rounded to the nearest; a half goes to the even neighbour. -/
def roundDiv (num den : Nat) : Nat :=
  let quotient := num / den
  let twice := 2 * (num % den)
  if twice > den ∨ (twice = den ∧ quotient % 2 = 1) then quotient + 1 else quotient

/-- A power, for an exponent that may be negative: numerator and denominator. -/
def powRatio (base : Nat) (exponent : Int) : Nat × Nat :=
  (Nat.pow base exponent.toNat, Nat.pow base (-exponent).toNat)

namespace Binary64

/-- The exponent of the numbers nearest to zero. -/
def leastExponent : Int := -1074

/-- The exponent of the greatest numbers. -/
def greatestExponent : Int := 971

/-- The exponent at which a quotient has a whole part of 53 bits, or the least one if its part
    would be shorter. -/
def exponentFor (num den : Nat) : Int :=
  let guess : Int := (num.log2 : Int) - den.log2 - 53
  let (up, down) := powRatio 2 guess
  let exact := if Nat.pow 2 53 ≤ (num * down) / (den * up) then guess + 1 else guess
  max exact leastExponent

/-- The number nearest to a quotient. -/
def ofRatio (negative : Bool) (num den : Nat) : Binary64 :=
  if num = 0 then .finite negative 0 leastExponent
  else
    let exponent := exponentFor num den
    let (up, down) := powRatio 2 exponent
    let mantissa := roundDiv (num * down) (den * up)
    let (mantissa, exponent) :=
      if mantissa = Nat.pow 2 53 then (Nat.pow 2 52, exponent + 1) else (mantissa, exponent)
    if greatestExponent < exponent then .infinite negative
    else .finite negative mantissa exponent

/-- The number nearest to `significand · 10 ^ exponent`, where the significand was written with so
    many `digits`. What is far out of range is decided without computing the power. -/
def ofDecimal (negative : Bool) (significand digits : Nat) (exponent : Int) : Binary64 :=
  if significand = 0 then .finite negative 0 leastExponent
  else if 400 < exponent then .infinite negative
  else if exponent + digits < -400 then .finite negative 0 leastExponent
  else
    let (up, down) := powRatio 10 exponent
    ofRatio negative (significand * up) down

/-- Equality of values: the two zeros are equal, and what is no number equals nothing. -/
def same : Binary64 → Binary64 → Bool
  | .nan, _ => false
  | _, .nan => false
  | .infinite s, .infinite t => s == t
  | .finite s m p, .finite t n q => (m == 0 && n == 0) || (s == t && m == n && p == q)
  | _, _ => false

def isFinite : Binary64 → Bool
  | .finite .. => true
  | _ => false

end Binary64

end RowAwk.Number
