import RowAwk.Schema.Field
import RowAwk.Schema.Metadata
import RowAwk.Schema.Order

/-!
The description of a stream: its columns, sort order, size and metadata.

Columns are read by position, so their order matters and their names have to differ. Every entry of
the sort order names a column.
-/

namespace RowAwk

structure Schema where
  fields : List Schema.Field
  order : List Schema.Order
  size : Option Nat
  metadata : Schema.Metadata

namespace Schema

/-- The names that occur again after some `seen` ones, each once, in the order in which they come
    up for the second time. -/
def repeatedNames (seen twice : List String) : List String → List String
  | [] => []
  | n :: ns =>
    if n ∈ seen ∧ n ∉ twice then n :: repeatedNames seen (n :: twice) ns
    else repeatedNames (n :: seen) twice ns

/-- The first entry of a sort order that names no column. -/
def strayEntry? (fields : List Field) (order : List Order) : Option Order :=
  order.find? fun o => !fields.any fun f => f.name == o.name

/-- The description with these columns and sort order. -/
def ofFields (fields : List Field) (order : List Order) : Except SchemaError Schema :=
  match repeatedNames [] [] (fields.map Field.name) with
  | [] =>
    match strayEntry? fields order with
    | some o => .error (.unknownOrderField o.name)
    | none => .ok { fields, order, size := none, metadata := [] }
  | names => .error (.conflictingNames names)

/-- The position of a column, from zero. -/
def fieldIndex? (s : Schema) (name : String) : Option Nat :=
  s.fields.findIdx? fun f => f.name == name

def field? (s : Schema) (name : String) : Option Field :=
  s.fields.find? fun f => f.name == name

def hasField (s : Schema) (name : String) : Bool := (s.field? name).isSome

def fieldNames (s : Schema) : List String := s.fields.map Field.name

/-- Whether the stream is sorted by an order, perhaps among further columns. -/
def isOrderedBy (s : Schema) (required : List Order) : Bool := required.isPrefixOf s.order

/-- Whether the columns that the stream is sorted by start with these, whatever their kind and
    direction. -/
def fieldsAreOrdered (s : Schema) (names : List String) : Bool :=
  names.isPrefixOf (s.order.map Order.name)

end Schema

end RowAwk
