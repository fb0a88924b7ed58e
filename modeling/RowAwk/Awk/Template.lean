import RowAwk.Number.Decimal
import RowAwk.Text.Blank

/-!
Texts with holes for the name of an accumulator and for the arguments of its aggregate.

    {var} += {arg0};      with  __grp_0  and  $2      is      __grp_0 += $2;

A template is cut from the left into holes and single characters, and then each part is filled in.
What is filled in is never looked at again, whatever braces it holds.
-/

namespace RowAwk.Awk.Template

inductive Part where
  | name
  | argument (index : Nat) (spelling : List Char)
  | char (c : Char)
deriving DecidableEq, Repr

/-- The hole for the name. -/
def nameHole : List Char := ['\x7b', 'v', 'a', 'r', '\x7d']

/-- How the hole for an argument starts. -/
def argumentHole : List Char := ['\x7b', 'a', 'r', 'g']

/-- The hole for an argument at the head of a text, as a part and its length. -/
def argumentAt? (cs : List Char) : Option (Part × Nat) :=
  if argumentHole.isPrefixOf cs then do
    let (digits, _) ← Text.cutAt? (· == '\x7d') (cs.drop argumentHole.length)
    let index ← Number.word64OfDigits? digits
    let length := argumentHole.length + digits.length + 1
    return (.argument index (cs.take length), length)
  else none

/-- The part at the head of a text `c :: cs`, and how many characters of `cs` belong to it. -/
def first (c : Char) (cs : List Char) : Part × Nat :=
  if nameHole.isPrefixOf (c :: cs) then (.name, nameHole.length - 1)
  else match argumentAt? (c :: cs) with
    | some (part, length) => (part, length - 1)
    | none => (.char c, 0)

/-- The parts of a template, from left to right. -/
def parts : List Char → List Part
  | [] => []
  | c :: cs =>
    let head := first c cs
    head.1 :: parts (cs.drop head.2)
termination_by cs => cs.length
decreasing_by simp only [List.length_drop, List.length_cons]; omega

/-- A part filled in. A hole for an argument that is not there stays as it is. -/
def Part.fill (name : List Char) (args : List (List Char)) : Part → List Char
  | .name => name
  | .argument index spelling => args.getD index spelling
  | .char c => [c]

/-- A template filled in with a name and arguments. -/
def expand (template name : String) (args : List String) : String :=
  String.ofList
    ((parts template.toList).flatMap (Part.fill name.toList (args.map String.toList)))

end RowAwk.Awk.Template
