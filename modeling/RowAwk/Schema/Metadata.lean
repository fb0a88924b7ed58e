import RowAwk.Number.Shortest
import RowAwk.Yaml.Value

/-!
Free-form metadata of a stream: named values, sorted by name.

Their text is JSON on one line, which is also a way to write them in a header. A map keeps the order
of its entries, each key is shown as a string, and a value with a tag as a map of one entry.
-/

namespace RowAwk.Schema

open Yaml (Scalar Value)

/-- Metadata: values by name, in the order of the names. -/
abbrev Metadata := List (String × Value)

namespace Metadata

/-- The metadata with a value put under a name, in place of the one it had. -/
def insert (name : String) (value : Value) : Metadata → Metadata
  | [] => [(name, value)]
  | (n, v) :: rest =>
    if name < n then (name, value) :: (n, v) :: rest
    else if name = n then (name, value) :: rest
    else (n, v) :: insert name value rest

/-- The metadata with these entries. Of two entries with one name the later one counts. -/
def ofEntries (entries : List (String × Value)) : Metadata :=
  entries.foldl (fun m (name, value) => m.insert name value) []

end Metadata

/-! ### Text -/

/-- Numbers have their shortest text: with an exponent outside `10 ^ -5` to `10 ^ 16`, and `null`
    where there is no number. -/
def numberStyle : Number.Style :=
  ⟨.toEven, fun point => -5 < point && point ≤ 16, "null", "null", "null"⟩

/-- A character inside a quoted text. -/
def jsonChar (c : Char) : List Char :=
  if c = '"' then ['\\', '"']
  else if c = '\\' then ['\\', '\\']
  else if c = '\n' then ['\\', 'n']
  else if c = '\r' then ['\\', 'r']
  else if c = '\t' then ['\\', 't']
  else if c = '\x08' then ['\\', 'b']
  else if c = '\x0c' then ['\\', 'f']
  else if c.toNat < 0x20 then
    ['\\', 'u', '0', '0', Nat.digitChar (c.toNat / 16), Nat.digitChar (c.toNat % 16)]
  else [c]

def jsonString (s : String) : String :=
  String.ofList ('"' :: s.toList.flatMap jsonChar ++ ['"'])

def scalarText : Scalar → String
  | .null => "null"
  | .bool true => "true"
  | .bool false => "false"
  | .int n => toString n
  | .float x => x.text numberStyle
  | .string s => jsonString s

/-- The text of a value as a key: that of a string stays, and any other is put in quotes. -/
def keyText (v : Value) (text : String) : String :=
  match v with
  | .scalar (.string _) => text
  | _ => jsonString text

/-- A text between braces. -/
def braced (body : String) : String := "\x7b" ++ body ++ "\x7d"

/-- A tag as it is shown: a mark alone is doubled. -/
def tagText (tag : String) : String := if tag = "!" then "!!" else tag

mutual

def valueText : Value → String
  | .scalar s => scalarText s
  | .list items => "[" ++ ",".intercalate (itemTexts items) ++ "]"
  | .map entries => braced (",".intercalate (entryTexts entries))
  | .tagged tag v => braced (jsonString (tagText tag) ++ ":" ++ valueText v)

def itemTexts : List Value → List String
  | [] => []
  | v :: vs => valueText v :: itemTexts vs

def entryTexts : List (Value × Value) → List String
  | [] => []
  | (k, v) :: rest => (keyText k (valueText k) ++ ":" ++ valueText v) :: entryTexts rest

end

def Metadata.text (m : Metadata) : String :=
  braced (",".intercalate (m.map fun (name, v) => jsonString name ++ ":" ++ valueText v))

end RowAwk.Schema
