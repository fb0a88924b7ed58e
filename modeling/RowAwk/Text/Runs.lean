/-!
Sets of characters, written as the lengths of their gaps and runs.

A table that goes through the code points from zero on and says how many are out, how many are in,
and so on in turn cannot have its ranges out of order or overlapping, however it is written.
-/

namespace RowAwk.Text

/-- Whether a number is in a set, where `inside` says if the first length is that of a run. -/
def inRuns (inside : Bool) : List Nat → Nat → Bool
  | [], _ => false
  | length :: more, n => if n < length then inside else inRuns (!inside) more (n - length)

end RowAwk.Text
