import RowAwk.Yaml.Layout
import RowAwk.Yaml.Node
import RowAwk.Yaml.Spelling

/-!
The values of a document.

First the aliases are linked to nodes. Anchors are numbered by how many names are known when they
are met, and of the nodes with one number the last one counts. Then the values are read, following
the aliases. So that a short document cannot stand for an endless value, collections are at most
128 deep, and aliases are followed at most a hundred times as often as the document has parts.
-/

namespace RowAwk.Yaml

/-- A node in which aliases have the number of an anchor. -/
abbrev Linked := Node Nat

/-! ### Linking -/

/-- What is known after some nodes: how many they are, the numbers of the anchors by name, and the
    nodes that have a number, the latest one first. -/
structure Links where
  count : Nat := 0
  numbers : List (String × Nat) := []
  places : List (Nat × Nat) := []

/-- The links after a node that may have an anchor. -/
def Links.visit (anchor : Option String) (l : Links) : Links :=
  match anchor with
  | none => { l with count := l.count + 1 }
  | some name =>
    let number := l.numbers.length
    { count := l.count + 1
      numbers := (name, number) :: l.numbers.filter (·.1 != name)
      places := (number, l.count) :: l.places }

mutual

/-- A node with its aliases linked. -/
def link (n : Written) (l : Links) : Option (Linked × Links) :=
  match n with
  | .alias name => (l.numbers.lookup name).map fun number => (.alias number, l.visit none)
  | .scalar p plain text => some (.scalar p plain text, l.visit p.anchor)
  | .list p items => (linkItems items (l.visit p.anchor)).map fun (items, l) => (.list p items, l)
  | .map p entries =>
    (linkEntries entries (l.visit p.anchor)).map fun (entries, l) => (.map p entries, l)

def linkItems (items : List Written) (l : Links) : Option (List Linked × Links) :=
  match items with
  | [] => some ([], l)
  | n :: ns => do
    let (n, l) ← link n l
    let (ns, l) ← linkItems ns l
    return (n :: ns, l)

def linkEntries (entries : List (Written × Written)) (l : Links) :
    Option (List (Linked × Linked) × Links) :=
  match entries with
  | [] => some ([], l)
  | (k, v) :: rest => do
    let (k, l) ← link k l
    let (v, l) ← link v l
    let (rest, l) ← linkEntries rest l
    return ((k, v) :: rest, l)

end

namespace Node

variable {α : Type}

mutual

/-- A node and all nodes below it, in the order of the document. -/
def nodes : Node α → List (Node α)
  | .alias target => [.alias target]
  | .scalar p plain text => [.scalar p plain text]
  | .list p items => .list p items :: itemNodes items
  | .map p entries => .map p entries :: entryNodes entries

def itemNodes : List (Node α) → List (Node α)
  | [] => []
  | n :: ns => n.nodes ++ itemNodes ns

def entryNodes : List (Node α × Node α) → List (Node α)
  | [] => []
  | (k, v) :: rest => k.nodes ++ (v.nodes ++ entryNodes rest)

end

/-- The tag of a node. -/
def tag : Node α → Option String
  | .alias _ => none
  | .scalar p _ _ | .list p _ | .map p _ => p.tag

/-- The parts that a node itself adds to a document: a collection has a start and an end. -/
def parts : Node α → Nat
  | .alias _ | .scalar .. => 1
  | .list .. | .map .. => 2

end Node

/-! ### Values -/

/-- How deep collections may be. -/
def maxDepth : Nat := 128

/-- Reading values, with the number of aliases that may still be followed. -/
abbrev Follow := StateT Nat Option

/-- The node that an alias refers to, if it is one. -/
def resolve (target : Nat → Option Linked) : Linked → Follow Linked
  | .alias number => fun left =>
    if left = 0 then none else (target number).map fun n => (n, left - 1)
  | n => pure n

/-- The value of a node whose own tag is ignored if `tagless`. The values below it are read by
    `inner`, if it is not too deep to have some. -/
def untagged (inner : Option (Bool → Linked → Follow Value)) (tagless : Bool) :
    Linked → Follow Value
  | .alias _ => fun _ => none
  | .scalar p plain text => fun left =>
    (Spelling.value? (if tagless then none else p.tag) plain text).map fun s => (.scalar s, left)
  | .list _ items => do
    let inner ← (inner : Option _)
    return .list (← items.mapM (inner false))
  | .map _ entries => do
    let inner ← (inner : Option _)
    let entries ← entries.mapM fun (k, v) => do
      let key ← inner tagless k
      return (key, ← inner false v)
    if Value.distinct (entries.map Prod.fst) then return .map entries else fun _ => none

/-- The value of a node, with its local tag if it has one. -/
def tagged (inner : Option (Bool → Linked → Follow Value)) (tagless : Bool) (n : Linked) :
    Follow Value :=
  match if tagless then none else n.tag.filter (·.startsWith "!") with
  | some tag => return .tagged tag (← untagged inner true n)
  | none => untagged inner tagless n

/-- The value of a node with at most so many collections in one another. -/
def valueWithin (target : Nat → Option Linked) : Nat → Bool → Linked → Follow Value
  | 0, tagless, n => do
    tagged none (tagless && !n matches .alias _) (← resolve target n)
  | depth + 1, tagless, n => do
    tagged (some (valueWithin target depth)) (tagless && !n matches .alias _) (← resolve target n)

/-! ### Documents -/

/-- The text of a node that is a key of the outermost map. -/
def keyName (target : Nat → Option Linked) (n : Linked) : Follow String := do
  match ← resolve target n with
  | .scalar _ _ text => return text
  | _ => fun _ => none

/-- The entries of a document that is a map, in order, with their keys as they are spelled. -/
def entries? (root : Written) : Option (List (String × Value)) := do
  let (root, links) ← link root {}
  let nodes := root.nodes
  let target (number : Nat) : Option Linked := (links.places.lookup number).bind (nodes[·]?)
  match root with
  | .map _ entries =>
    let read := entries.mapM fun (k, v) => do
      let name ← keyName target k
      return (name, ← valueWithin target (maxDepth - 1) false v)
    (read.run (100 * nodes.foldl (fun n node => n + node.parts) 0)).map Prod.fst
  | _ => none

/-- The entries of the map that a text writes. -/
def parse? (text : List Char) : Option (List (String × Value)) := do
  entries? (← document? (← tokens? (← cells? text)))

end RowAwk.Yaml
