import RowAwk.Number.Shortest
import RowAwk.Schema.Field

/-!
Constants of awk programs and how they are written.

A string is written between double quotes with the quote, the backslash and three controls
escaped; all else stands for itself. A number with a fraction is written in full, never with an
exponent, and always shows its point. Truth values are the numbers one and zero.
-/

namespace RowAwk.Awk

inductive Const where
  | int (value : Int)
  | float (value : Number.Binary64)
  | str (value : String)
  | bool (value : Bool)
deriving DecidableEq, Repr

/-- Numbers are written without an exponent, whatever their size. -/
def numberStyle : Number.Style := ⟨.up, fun _ => true, "NaN", "inf", "-inf"⟩

/-- A character inside a string constant. -/
def escapeChar (c : Char) : List Char :=
  if c = '\\' then ['\\', '\\']
  else if c = '"' then ['\\', '"']
  else if c = '\n' then ['\\', 'n']
  else if c = '\t' then ['\\', 't']
  else if c = '\r' then ['\\', 'r']
  else [c]

/-- A string constant. -/
def stringText (s : String) : String :=
  String.ofList ('"' :: s.toList.flatMap escapeChar ++ ['"'])

namespace Const

def text : Const → String
  | .int n => toString n
  | .float x => x.text numberStyle
  | .str s => stringText s
  | .bool true => "1"
  | .bool false => "0"

def type : Const → Schema.FieldType
  | .int _ => .int
  | .float _ => .float
  | .str _ => .str
  | .bool _ => .bool

/-- Equality of values, which for numbers is that of `Binary64.same`. -/
def same : Const → Const → Bool
  | .float x, .float y => x.same y
  | a, b => a == b

end Const

end RowAwk.Awk
