import RowAwk.Number.Binary64

/-!
The shortest decimal text that reads back as a given number.

The reals that round to a number `m · 2 ^ q` form an interval around it. Of the grids of multiples
of `10 ^ k`, the coarsest one with a point in that interval gives the fewest digits, and of its
points the nearest one is taken. All of it is exact: with `A` and `B` the powers that clear the
denominators, a grid point `c` stands at `c · B` where the number stands at `4 · m · A`.

      lo         v    c · 10^k      hi
    ──[──────────┼────────┼──────────]──

How the digits are laid out is a matter of the text they stand in; a `Style` says so.
-/

namespace RowAwk.Number

/-- Where a number halfway between two points of a grid goes. -/
inductive Tie where
  | up | toEven
deriving DecidableEq, Repr

/-- The number and the interval that rounds to it, in quarters of its last place. -/
structure Neighbourhood where
  mantissa : Nat
  exponent : Int
deriving DecidableEq, Repr

namespace Neighbourhood

/-- The lower end. Below a power of two the neighbour is half as far. -/
def lower (v : Neighbourhood) : Nat :=
  if v.mantissa = Nat.pow 2 52 ∧ Binary64.leastExponent < v.exponent then 4 * v.mantissa - 1
  else 4 * v.mantissa - 2

/-- The upper end. -/
def upper (v : Neighbourhood) : Nat := 4 * v.mantissa + 2

/-- The factors that bring quarters of the last place and multiples of `10 ^ k` to one unit. -/
def scales (v : Neighbourhood) (k : Int) : Nat × Nat :=
  let (twoUp, twoDown) := powRatio 2 (v.exponent - 2)
  let (tenUp, tenDown) := powRatio 10 k
  (twoUp * tenDown, twoDown * tenUp)

/-- Whether a multiple of `10 ^ k` rounds to the number; the ends do so if the mantissa is even. -/
def holds (v : Neighbourhood) (k : Int) (c : Nat) : Bool :=
  let (a, b) := v.scales k
  if v.mantissa % 2 = 0 then v.lower * a ≤ c * b && c * b ≤ v.upper * a
  else v.lower * a < c * b && c * b < v.upper * a

/-- The greatest multiple of `10 ^ k` up to the number. -/
def floor (v : Neighbourhood) (k : Int) : Nat :=
  let (a, b) := v.scales k
  (4 * v.mantissa * a) / b

/-- The nearer of two neighbouring multiples of `10 ^ k` around the number. -/
def nearer (tie : Tie) (v : Neighbourhood) (k : Int) : Nat :=
  let (a, b) := v.scales k
  let c := v.floor k
  let twice := 8 * v.mantissa * a
  let middle := (2 * c + 1) * b
  if twice < middle then c
  else if middle < twice then c + 1
  else match tie with
    | .up => c + 1
    | .toEven => if c % 2 = 0 then c else c + 1

/-- The point of the grid `10 ^ k` that reads back, if it has one. -/
def pointOn? (tie : Tie) (v : Neighbourhood) (k : Int) : Option Nat :=
  let c := v.floor k
  match 0 < c && v.holds k c, v.holds k (c + 1) with
  | true, true => some (v.nearer tie k)
  | true, false => some c
  | false, true => some (c + 1)
  | false, false => none

/-- The first grid from `10 ^ k` downwards with a point that reads back. After so many steps it is
    the grid reached by then: seventeen digits always read back. -/
def search (tie : Tie) (v : Neighbourhood) : Nat → Int → Nat × Int
  | 0, k => (v.floor k, k)
  | steps + 1, k =>
    match v.pointOn? tie k with
    | some c => (c, k)
    | none => search tie v steps (k - 1)

/-- The fewest digits that read back, and the power of ten of the last one. -/
def shortest (tie : Tie) (v : Neighbourhood) : Nat × Int :=
  let bits : Int := (v.mantissa.log2 : Int) + 1 + v.exponent
  v.search tie 24 (bits * 30103 / 100000 + 2)

end Neighbourhood

/-- How numbers are laid out in a text. -/
structure Style where
  tie : Tie
  /-- Whether a number whose point comes after so many digits is written without an exponent. -/
  positional : Int → Bool
  nan : String
  infinity : String
  minusInfinity : String

/-- Digits with the point after the first `point` of them, filled up with zeros. -/
def positionalText (digits : List Char) (point : Int) : List Char :=
  if point ≤ 0 then ['0', '.'] ++ List.replicate (-point).toNat '0' ++ digits
  else if digits.length ≤ point.toNat then
    digits ++ List.replicate (point.toNat - digits.length) '0' ++ ['.', '0']
  else digits.take point.toNat ++ '.' :: digits.drop point.toNat

/-- Digits with the point after the first one, and the exponent with its sign. -/
def exponentText (digits : List Char) (point : Int) : List Char :=
  let exponent := point - 1
  let mark := if exponent < 0 then ['e', '-'] else ['e', '+']
  (match digits with
    | d :: e :: rest => d :: '.' :: e :: rest
    | ds => ds) ++ mark ++ (toString exponent.natAbs).toList

/-- The shortest text of a number in a style. -/
def Binary64.text (style : Style) : Binary64 → String
  | .nan => style.nan
  | .infinite negative => if negative then style.minusInfinity else style.infinity
  | .finite negative mantissa exponent =>
    let (digits, k) :=
      if mantissa = 0 then (['0'], 0)
      else
        let (c, k) := Neighbourhood.shortest style.tie ⟨mantissa, exponent⟩
        ((toString c).toList, k)
    let point := digits.length + k
    let body :=
      if style.positional point then positionalText digits point else exponentText digits point
    String.ofList (if negative then '-' :: body else body)

end RowAwk.Number
