/-!
Blocks of statements and how they are laid out.

A block is a list of items: a line, a block in braces, or a block in braces under a head such as
`if(...)`. What lines and heads are is left open; they become texts before a block is laid out.
The two layouts put everything on one line, or each line on its own with nested blocks indented.
-/

namespace RowAwk.Awk

/-- An item of a block, over lines `ι` and heads `η`. -/
inductive Item (ι η : Type) where
  | line (line : ι)
  | block (items : List (Item ι η))
  | head (head : η) (items : List (Item ι η))

abbrev Block (ι η : Type) := List (Item ι η)

namespace Item

variable {ι η : Type}

mutual

/-- An item with its lines and heads as texts. -/
def toText (line : ι → String) (head : η → String) : Item ι η → Item String String
  | .line l => .line (line l)
  | .block items => .block (toTexts line head items)
  | .head h items => .head (head h) (toTexts line head items)

def toTexts (line : ι → String) (head : η → String) : List (Item ι η) → Block String String
  | [] => []
  | i :: is => toText line head i :: toTexts line head is

end

end Item

structure Layout where
  indent : Nat
  newline : String
deriving DecidableEq, Repr

namespace Layout

/-- Everything on one line. -/
def compact : Layout := ⟨0, ""⟩

/-- One line for each statement, with blocks indented by so many spaces. -/
def pretty (indent : Nat) : Layout := ⟨indent, "\n"⟩

/-- The blanks in front of a line at some depth. -/
def margin (layout : Layout) (depth : Nat) : String :=
  String.ofList (List.replicate (layout.indent * depth) ' ')

/-- The items of a block between braces. -/
def braces (layout : Layout) (depth : Nat) (items : List String) : String :=
  let margin := layout.margin depth
  let inner := layout.newline.intercalate items
  margin ++ "\x7b" ++ layout.newline
    ++ (if inner.isEmpty then "" else inner ++ layout.newline) ++ margin ++ "\x7d"

end Layout

/-- A line with the semicolon that ends it. -/
def terminated (line : String) : String :=
  if line.toList.getLast? = some ';' then line else line ++ ";"

namespace Item

mutual

/-- An item laid out at some depth. Empty lines are left out. -/
def layOut? (layout : Layout) (depth : Nat) : Item String String → Option String
  | .line l => if l.isEmpty then none else some (layout.margin depth ++ terminated l)
  | .block items => some (layout.braces depth (layOutAll layout (depth + 1) items))
  | .head h items =>
    some (layout.margin depth ++ h ++ layout.newline
      ++ layout.braces depth (layOutAll layout (depth + 1) items))

def layOutAll (layout : Layout) (depth : Nat) : List (Item String String) → List String
  | [] => []
  | i :: is => (layOut? layout depth i).toList ++ layOutAll layout depth is

end

end Item

namespace Block

/-- The text of a block without braces around it. -/
def text (layout : Layout) (block : Block String String) : String :=
  layout.newline.intercalate (Item.layOutAll layout 0 block)

/-- The text of a block in braces. -/
def bracedText (layout : Layout) (block : Block String String) : String :=
  layout.braces 0 (Item.layOutAll layout 1 block)

end Block

end RowAwk.Awk
