/-!
The names nearest to a misspelt one.

The distance between two texts is the least number of characters to insert, delete or replace to
get from one to the other. It is computed row by row: the row for a prefix of the first text lists
the distances to all prefixes of the second.
-/

namespace RowAwk.Text

/-- The row after one more character `c` of the first text, from the row before. `left` is the
    entry that has just been computed. -/
def nextRow (c : Char) (left : Nat) : List Char → List Nat → List Nat
  | d :: ds, diagonal :: up :: row =>
    let entry := min (min (left + 1) (up + 1)) (diagonal + if c = d then 0 else 1)
    entry :: nextRow c entry ds (up :: row)
  | _, _ => []

/-- The distances to all prefixes of `t` after reading `cs`, from those before. -/
def rowAfter (t : List Char) : List Char → List Nat → List Nat
  | [], row => row
  | c :: cs, row =>
    let start := row.headD 0 + 1
    rowAfter t cs (start :: nextRow c start t row)

/-- The distance between two texts. -/
def distance (s t : String) : Nat :=
  (rowAfter t.toList s.toList (List.range (t.toList.length + 1))).getLastD 0

/-- The five names nearest to a text, nearest first and otherwise in their order. -/
def nearest (query : String) (names : List String) : List String :=
  let ranked := names.map fun n => (distance query n, n)
  ((ranked.mergeSort fun a b => a.1 ≤ b.1).take 5).map Prod.snd

/-- Names in single quotes with commas between them. -/
def listed (names : List String) : String :=
  if names.isEmpty then "none" else ", ".intercalate (names.map fun n => "'" ++ n ++ "'")

end RowAwk.Text
