import RowAwk.Schema.Error

/-!
The sort order of a stream, one entry for each column it is sorted by.

An entry names a column, the way its values compare and the direction. In a header the last two
are modifiers after the name, in any order, at most one of each: `ctr:desc:num`.
-/

namespace RowAwk.Schema

/-- How the values of a column compare: as texts, or as one of four kinds of number. -/
inductive SortKind where
  | text | numeric | general | human | month
deriving DecidableEq, Repr

namespace SortKind

def name : SortKind → String
  | .text => "str"
  | .numeric => "num"
  | .general => "general"
  | .human => "human"
  | .month => "month"

def all : List SortKind := [.text, .numeric, .general, .human, .month]

/-- The kind with a given name. -/
def ofName? (name : String) : Option SortKind := all.find? (·.name == name)

end SortKind

structure Order where
  name : String
  kind : SortKind
  descending : Bool
deriving DecidableEq, Repr

namespace Order

/-- What a modifier says: how values compare, or whether they fall. -/
inductive Modifier where
  | kind (kind : SortKind)
  | direction (descending : Bool)
deriving DecidableEq, Repr

def Modifier.ofText? (text : String) : Option Modifier :=
  match SortKind.ofName? text with
  | some k => some (.kind k)
  | none =>
    if text = "asc" then some (.direction false)
    else if text = "desc" then some (.direction true)
    else none

/-- The kind and the direction after some modifiers, given those before; `entry` is how the entry
    was written. -/
def applyModifiers (entry : String) (kind : Option SortKind) (descending : Option Bool) :
    List String → Except SchemaError (Option SortKind × Option Bool)
  | [] => .ok (kind, descending)
  | m :: ms =>
    match Modifier.ofText? m, kind, descending with
    | none, _, _ => .error (.unknownModifier m)
    | some (.kind k), some previous, _ => .error (.conflictingKinds previous.name k.name)
    | some (.kind k), none, d => applyModifiers entry (some k) d ms
    | some (.direction _), _, some _ => .error (.ambiguousDirection entry)
    | some (.direction d), k, none => applyModifiers entry k (some d) ms

/-- The entry for a column with some modifiers; without any, texts that rise. -/
def ofModifiers (name : String) (modifiers : List String) : Except SchemaError Order := do
  let entry := name ++ ":" ++ ":".intercalate modifiers
  let (kind, descending) ← applyModifiers entry none none modifiers
  return ⟨name, kind.getD .text, descending.getD false⟩

/-- An entry as a header writes it, without what goes without saying. -/
def text (o : Order) : String :=
  o.name ++ (if o.descending then ":desc" else "")
    ++ (match o.kind with
      | .text => ""
      | kind => ":" ++ kind.name)

end Order

end RowAwk.Schema
