import RowAwk.Reading
import RowAwk.Yaml.Token

/-!
The tree of a YAML document.

A node is a scalar, a list, a map or an alias of an anchored node; what a scalar means is not
decided yet. Lists and maps are bracketed or laid out in blocks, and both are read here:

    bracketed   [a, b: c]      {a: b, c}
    in blocks   - a            a: b
                - b            ? c

Where a node may be left out it is the empty plain scalar.
-/

namespace RowAwk.Yaml

/-- The names on a node. -/
structure Properties where
  anchor : Option String := none
  tag : Option String := none
deriving DecidableEq, Repr

/-- A node, in which an alias has a reference `α` to another one. -/
inductive Node (α : Type) where
  | alias (target : α)
  | scalar (properties : Properties) (plain : Bool) (text : String)
  | list (properties : Properties) (items : List (Node α))
  | map (properties : Properties) (entries : List (Node α × Node α))

/-- A node as it is written: an alias has the name of an anchor. -/
abbrev Written := Node String

/-- The node that is not written. -/
def Node.empty : Written := .scalar {} true ""

/-! ### Properties -/

/-- The properties at the head of some tokens, in either order, and the tokens after them. -/
def takeProperties : List Token → Properties × List Token
  | .anchor a :: .tag t :: ts => (⟨some a, some t⟩, ts)
  | .tag t :: .anchor a :: ts => (⟨some a, some t⟩, ts)
  | .anchor a :: ts => (⟨some a, none⟩, ts)
  | .tag t :: ts => (⟨none, some t⟩, ts)
  | ts => ({}, ts)

theorem length_takeProperties (ts : List Token) :
    (takeProperties ts).2.length ≤ ts.length := by
  unfold takeProperties
  split <;> simp only [List.length_cons] <;> omega

/-! ### Where nodes may stand -/

/-- What may stand at a place: blocks or only what is bracketed, and list entries that are not
    indented. -/
structure Stand where
  block : Bool
  flush : Bool

/-- Within brackets. -/
def inBrackets : Stand := ⟨false, false⟩

/-- As an entry of a list block. -/
def inListBlock : Stand := ⟨true, false⟩

/-- As a key or a value of a map block. -/
def inMapBlock : Stand := ⟨true, true⟩

/-- Whether a token starts a node, after its properties. -/
def Stand.starts (stand : Stand) : Token → Bool
  | .scalar .. | .openList | .openMap => true
  | .openListBlock | .openMapBlock => stand.block
  | .entry => stand.flush
  | _ => false

/-- Whether a token ends an entry in brackets that close with the given one. -/
def endsBracketed (close : Token) (t : Token) : Bool := t == .comma || t == close

/-- Whether a token ends the key of an entry in brackets. -/
def endsKey (close : Token) (t : Token) : Bool := t == .value || endsBracketed close t

/-- Whether a token ends an entry of a list block. -/
def endsEntry (t : Token) : Bool := t == .entry || t == .closeBlock

/-- Whether a token ends a key or a value of a map block. -/
def endsMapPart (t : Token) : Bool := t == .key || t == .value || t == .closeBlock

/-! ### Nodes -/

abbrev Read (α : Type) (bound : Nat) := Reading Token α bound

mutual

/-- A node with its properties. If it has some, it may be empty otherwise. -/
def node (stand : Stand) (ts : List Token) : Option (Read Written ts.length) :=
  match ts with
  | .alias name :: rest => some ⟨.alias name, rest, by simp⟩
  | ts =>
    match hp : takeProperties ts with
    | (p, rest) =>
      have hr : rest.length ≤ ts.length := by
        have := length_takeProperties ts
        rwa [hp] at this
      if rest.head?.any stand.starts then
        (content p rest).map fun r => r.weaken hr
      else if h : rest.length < ts.length then some ⟨.scalar p true "", rest, h⟩
      else none
termination_by 4 * ts.length + 1
decreasing_by omega

/-- A node after its properties. -/
def content (p : Properties) (ts : List Token) :
    Option (Read Written ts.length) :=
  match ts with
  | .scalar plain text :: rest => some ⟨.scalar p plain text, rest, by simp⟩
  | .openList :: rest => do
    let items ← listItems rest
    return (items.map (.list p)).weaken (by simp)
  | .openMap :: rest => do
    let entries ← mapEntries rest
    return (entries.map (.map p)).weaken (by simp)
  | .openListBlock :: rest => do
    let items ← blockItems rest
    return (items.map (.list p)).weaken (by simp)
  | .openMapBlock :: rest => do
    let entries ← blockEntries rest
    return (entries.map (.map p)).weaken (by simp)
  | .entry :: rest => do
    let item ← nodeUnless inListBlock (fun t => endsEntry t || endsMapPart t) rest
    have hi := item.fewer
    let more ← flushItems item.rest
    have hm := more.fewer
    return ⟨.list p (item.value :: more.value), more.rest, by
      simp only [List.length_cons]; omega⟩
  | _ => none
termination_by 4 * ts.length
decreasing_by all_goals simp only [List.length_cons]; omega

/-- A node, or the empty one if a token of a class follows. -/
def nodeUnless (stand : Stand) (ends : Token → Bool) (ts : List Token) :
    Option (Read Written (ts.length + 1)) :=
  if ts.head?.any ends then some ⟨Node.empty, ts, by omega⟩
  else (node stand ts).map fun r => r.weaken (by omega)
termination_by 4 * ts.length + 2
decreasing_by omega

/-- The value of a key: what follows a colon, or the empty node. -/
def valueUnless (stand : Stand) (ends : Token → Bool) (ts : List Token) :
    Option (Read Written (ts.length + 1)) :=
  match ts with
  | .value :: rest => do
    let r ← nodeUnless stand ends rest
    return r.weaken (by simp)
  | ts => some ⟨Node.empty, ts, by omega⟩
termination_by 4 * ts.length
decreasing_by simp only [List.length_cons]; omega

/-- The items of a list after its bracket or a comma, with the closing bracket. -/
def listItems (ts : List Token) : Option (Read (List Written) ts.length) :=
  match ts with
  | .closeList :: rest => some ⟨[], rest, by simp⟩
  | .key :: rest => do
    let item ← pair rest
    have hi := item.fewer
    let more ← moreItems item.rest
    have hm := more.fewer
    return ⟨item.value :: more.value, more.rest, by simp only [List.length_cons]; omega⟩
  | ts => do
    let item ← node inBrackets ts
    have hi := item.fewer
    let more ← moreItems item.rest
    have hm := more.fewer
    return ⟨item.value :: more.value, more.rest, by omega⟩
termination_by 4 * ts.length + 2
decreasing_by all_goals (try simp only [List.length_cons]); omega

/-- The items of a list after one of them. -/
def moreItems (ts : List Token) : Option (Read (List Written) ts.length) :=
  match ts with
  | .closeList :: rest => some ⟨[], rest, by simp⟩
  | .comma :: rest => do
    let more ← listItems rest
    return more.weaken (by simp)
  | _ => none
termination_by 4 * ts.length
decreasing_by simp only [List.length_cons]; omega

/-- A key and its value as an item of a list: a map of one entry. A token that stands in place of
    the key is passed over. -/
def pair (ts : List Token) : Option (Read Written (ts.length + 1)) := do
  let key : Read Written (ts.length + 1) ←
    if ts.head?.any (endsKey .closeList) then
      some ⟨Node.empty, ts.tail, by simp only [List.length_tail]; omega⟩
    else (node inBrackets ts).map fun r => r.weaken (by omega)
  have hk := key.fewer
  let value ← valueUnless inBrackets (endsBracketed .closeList) key.rest
  have hv := value.fewer
  return ⟨.map {} [(key.value, value.value)], value.rest, by omega⟩
termination_by 4 * ts.length + 2
decreasing_by all_goals omega

/-- The entries of a map after its brace or a comma, with the closing brace. A key may stand
    without a value. -/
def mapEntries (ts : List Token) : Option (Read (List (Written × Written)) ts.length) :=
  match ts with
  | .closeMap :: rest => some ⟨[], rest, by simp⟩
  | .key :: rest => do
    let key ← nodeUnless inBrackets (endsKey .closeMap) rest
    have hk := key.fewer
    let value ← valueUnless inBrackets (endsBracketed .closeMap) key.rest
    have hv := value.fewer
    let more ← moreEntries value.rest
    have hm := more.fewer
    return ⟨(key.value, value.value) :: more.value, more.rest, by
      simp only [List.length_cons]; omega⟩
  | ts => do
    let key ← node inBrackets ts
    have hk := key.fewer
    let more ← moreEntries key.rest
    have hm := more.fewer
    return ⟨(key.value, Node.empty) :: more.value, more.rest, by omega⟩
termination_by 4 * ts.length + 2
decreasing_by all_goals (try simp only [List.length_cons]); omega

/-- The entries of a map after one of them. -/
def moreEntries (ts : List Token) : Option (Read (List (Written × Written)) ts.length) :=
  match ts with
  | .closeMap :: rest => some ⟨[], rest, by simp⟩
  | .comma :: rest => do
    let more ← mapEntries rest
    return more.weaken (by simp)
  | _ => none
termination_by 4 * ts.length
decreasing_by simp only [List.length_cons]; omega

/-- The items of a list block and its end. -/
def blockItems (ts : List Token) : Option (Read (List Written) ts.length) :=
  match ts with
  | .closeBlock :: rest => some ⟨[], rest, by simp⟩
  | .entry :: rest => do
    let item ← nodeUnless inListBlock endsEntry rest
    have hi := item.fewer
    let more ← blockItems item.rest
    have hm := more.fewer
    return ⟨item.value :: more.value, more.rest, by simp only [List.length_cons]; omega⟩
  | _ => none
termination_by 4 * ts.length
decreasing_by all_goals simp only [List.length_cons]; omega

/-- The items of a list whose entries are not indented, which has no mark for its end. -/
def flushItems (ts : List Token) : Option (Read (List Written) (ts.length + 1)) :=
  match ts with
  | .entry :: rest => do
    let item ← nodeUnless inListBlock (fun t => endsEntry t || endsMapPart t) rest
    have hi := item.fewer
    let more ← flushItems item.rest
    have hm := more.fewer
    return ⟨item.value :: more.value, more.rest, by simp only [List.length_cons]; omega⟩
  | ts => some ⟨[], ts, by omega⟩
termination_by 4 * ts.length
decreasing_by all_goals simp only [List.length_cons]; omega

/-- The entries of a map block and its end. -/
def blockEntries (ts : List Token) : Option (Read (List (Written × Written)) ts.length) :=
  match ts with
  | .closeBlock :: rest => some ⟨[], rest, by simp⟩
  | .key :: rest => do
    let key ← nodeUnless inMapBlock endsMapPart rest
    have hk := key.fewer
    let value ← valueUnless inMapBlock endsMapPart key.rest
    have hv := value.fewer
    let more ← blockEntries value.rest
    have hm := more.fewer
    return ⟨(key.value, value.value) :: more.value, more.rest, by
      simp only [List.length_cons]; omega⟩
  | _ => none
termination_by 4 * ts.length
decreasing_by all_goals simp only [List.length_cons]; omega

end

/-- The one document that some tokens hold. Marks of its end may follow it. -/
def document? (ts : List Token) : Option Written := do
  let root ← node inListBlock ts
  if root.rest.all (· == .documentEnd) then some root.value else none

end RowAwk.Yaml
