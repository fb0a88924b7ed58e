import RowAwk.Schema.Basic
import RowAwk.Text.Blank
import RowAwk.Yaml.Document

/-!
Headers: the description of a stream on one line.

    # shows:int ctr:float url #ORDER: url ctr:desc:num #SIZE: 12 #META: {source: log}

The first zone lists the columns. Each further zone starts with `#` and its name; the metadata go
on to the end of the line, since they may hold a `#` themselves. Of two zones with one name the
later one counts.
-/

namespace RowAwk.Schema

/-- The zones of a header after its marker. A zone that starts as the metadata do is the last. -/
def zones (cs : List Char) : List (List Char) :=
  if "META".toList.isPrefixOf cs then [cs]
  else match h : Text.cutAt? (· == '#') cs with
    | none => [cs]
    | some (zone, rest) =>
      have _hr := Text.length_lt_of_cutAt? h
      zone :: zones rest
termination_by cs.length

/-- Whether a character separates the entries of a zone. -/
def isSeparator (c : Char) : Bool := c == ';' || c == ',' || Text.isBlank c

/-- The entries of a zone. -/
def entries (cs : List Char) : List (List Char) :=
  (Text.pieces isSeparator cs).filter (· ≠ [])

def readField (cs : List Char) : Except SchemaError Field :=
  match Text.pieces (· == ':') cs with
  | [name] => .ok ⟨String.ofList name, .any⟩
  | [name, type] =>
    match FieldType.ofText? (String.ofList type) with
    | some t => .ok ⟨String.ofList name, t⟩
    | none => .error (.unknownType (String.ofList type))
  | _ => .error (.invalidField (String.ofList cs))

def readOrder (cs : List Char) : Except SchemaError Order :=
  match (Text.pieces (· == ':') cs).map String.ofList with
  | [] => Order.ofModifiers "" []
  | name :: modifiers => Order.ofModifiers name modifiers

/-! ### Metadata -/

/-- A text with a space after its first colon. -/
def spaceColon : List Char → List Char
  | [] => []
  | c :: cs => if c = ':' then ':' :: ' ' :: cs else c :: spaceColon cs

/-- Metadata as a map with all its marks: unless quotes are used, a key needs no space after its
    colon, and the braces around the map may be left out. -/
def completeMap (cs : List Char) : List Char :=
  let spaced :=
    if cs.contains '"' then cs
    else [','].intercalate ((Text.pieces (· == ',') cs).map spaceColon)
  if (spaced.dropWhile Text.isBlank).head? = some '\x7b' then spaced
  else '\x7b' :: spaced ++ ['\x7d']

/-- The metadata that a text writes. -/
def readMetadata (cs : List Char) : Except SchemaError Metadata :=
  match Yaml.parse? (completeMap cs) with
  | some entries => .ok (Metadata.ofEntries entries)
  | none => .error (.invalidMetadata (String.ofList cs))

/-! ### Headers -/

/-- What the zones after the first one say. -/
structure Extras where
  order : List Order := []
  size : Option Nat := none
  metadata : Metadata := []

def readZone (extras : Extras) (zone : List Char) : Except SchemaError Extras := do
  let zone := Text.trim zone
  match Text.cutAt? Text.isBlank zone with
  | none => throw (.invalidZone (String.ofList zone))
  | some (name, data) =>
    if name = "ORDER:".toList then
      let order ← (entries data).mapM readOrder
      return { extras with order }
    else if name = "SIZE:".toList then
      let data := Text.trim data
      match Number.word64OfDigits? data with
      | some size => return { extras with size := some size }
      | none => throw (.invalidSize (String.ofList data))
    else if name = "META:".toList then
      let metadata ← readMetadata data
      return { extras with metadata }
    else throw (.invalidZone (String.ofList name))

/-- The description that a header gives. -/
def parse (header : String) : Except SchemaError Schema :=
  match Text.dropEndWhile (fun c => c == '\n' || c == '\r') header.toList with
  | '#' :: cs =>
    match zones cs with
    | [] => ofFields [] []
    | columns :: more => do
      let fields ← (entries columns).mapM readField
      let extras ← more.foldlM readZone {}
      let schema ← ofFields fields extras.order
      return { schema with size := extras.size, metadata := extras.metadata }
  | cs => .error (.missingMarker (String.ofList cs))

/-- The header that describes a stream. -/
def text (s : Schema) : String :=
  "# " ++ "\t".intercalate (s.fields.map Field.text)
    ++ (if s.order.isEmpty then "" else " #ORDER: " ++ "\t".intercalate (s.order.map Order.text))
    ++ (match s.size with
      | some n => " #SIZE: " ++ toString n
      | none => "")
    ++ (if s.metadata.isEmpty then "" else " #META: " ++ s.metadata.text)

end RowAwk.Schema
