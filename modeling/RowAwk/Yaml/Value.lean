import RowAwk.Number.Binary64

/-!
The values that a YAML document writes.

Two maps are the same value if they have the same entries, in whatever order. Numbers are compared
as numbers: the two zeros are the same, and so is what is not a number, but a whole number differs
from one with a point.
-/

namespace RowAwk.Yaml

inductive Scalar where
  | null
  | bool (value : Bool)
  | int (value : Int)
  | float (value : Number.Binary64)
  | string (value : String)
deriving DecidableEq, Repr

inductive Value where
  | scalar (value : Scalar)
  | list (items : List Value)
  | map (entries : List (Value × Value))
  | tagged (tag : String) (value : Value)

/-- Whether two scalars are the same value. -/
def Scalar.same : Scalar → Scalar → Bool
  | .float (.finite _ 0 _), .float (.finite _ 0 _) => true
  | a, b => a == b

namespace Value

mutual

/-- Whether two values are the same. -/
def same : Value → Value → Bool
  | .scalar a, .scalar b => a.same b
  | .list as, .list bs => sameItems as bs
  | .map as, .map bs => as.length == bs.length && includes as bs
  | .tagged s a, .tagged t b => s == t && same a b
  | _, _ => false

def sameItems : List Value → List Value → Bool
  | [], [] => true
  | a :: as, b :: bs => same a b && sameItems as bs
  | _, _ => false

/-- Whether all these entries are among others. -/
def includes : List (Value × Value) → List (Value × Value) → Bool
  | [], _ => true
  | (k, v) :: rest, others =>
    others.any (fun (l, w) => same k l && same v w) && includes rest others

end

/-- Whether no two of these values are the same. -/
def distinct : List Value → Bool
  | [] => true
  | v :: vs => !vs.any (same v) && distinct vs

end Value

end RowAwk.Yaml
