/-!
The columns of a stream: a name and a type each.

The type says what values a column holds, as far as that is known. Nothing is known of type `any`,
which is what a column has unless its header says otherwise, and which is not written.
-/

namespace RowAwk.Schema

inductive FieldType where
  | int | float | str | bool | any
deriving DecidableEq, Repr

namespace FieldType

def text : FieldType → String
  | .int => "int"
  | .float => "float"
  | .str => "str"
  | .bool => "bool"
  | .any => "any"

def all : List FieldType := [.int, .float, .str, .bool, .any]

/-- The type with a given name. -/
def ofText? (name : String) : Option FieldType := all.find? (·.text == name)

def isNumeric : FieldType → Bool
  | .int | .float => true
  | _ => false

end FieldType

structure Field where
  name : String
  type : FieldType
deriving DecidableEq, Repr

/-- A column as a header writes it. -/
def Field.text (f : Field) : String :=
  match f.type with
  | .any => f.name
  | type => f.name ++ ":" ++ type.text

end RowAwk.Schema
