/-!
Names for the compiler's own variables.

A name is a stem and a number. The same stem and key always get the same name, and each new key of
a stem gets the next number, from zero. Keys are the texts of the expressions to be named, so
expressions with one text share a variable.
-/

namespace RowAwk.Compile

/-- The keys named so far, in order, each with its stem and number. -/
structure Namer where
  entries : List (String × String × Nat)
deriving Repr

namespace Namer

def empty : Namer := ⟨[]⟩

/-- The number that a key has under a stem. -/
def number? (n : Namer) (stem key : String) : Option Nat :=
  (n.entries.find? fun (s, k, _) => s == stem && k == key).map fun (_, _, i) => i

/-- How many keys a stem has. -/
def count (n : Namer) (stem : String) : Nat := (n.entries.filter fun (s, _) => s == stem).length

/-- The name of a key under a stem, and the namer that knows it. -/
def nameFor (n : Namer) (stem key : String) : String × Namer :=
  match n.number? stem key with
  | some i => (stem ++ toString i, n)
  | none =>
    let i := n.count stem
    (stem ++ toString i, ⟨n.entries ++ [(stem, key, i)]⟩)

/-- The key made of several parts, with a null character between them. -/
def keyOf (parts : List String) : String := "\x00".intercalate parts

end Namer

end RowAwk.Compile
