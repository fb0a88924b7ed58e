/-!
Names of fields and variables.

A name is a letter or underscore followed by letters, digits and underscores, all ASCII. Leading
underscores carry meaning: a name with one is bound but not printed, and names with two belong to
the compiler.
-/

namespace RowAwk.Syntax

/-- A character that may start a name. -/
def isNameStart (c : Char) : Bool := c.isAlpha || c == '_'

/-- A character that may continue a name. -/
def isNamePart (c : Char) : Bool := c.isAlphanum || c == '_'

/-- Whether a text has the form of a name. -/
def isName (s : String) : Bool :=
  match s.toList with
  | [] => false
  | c :: cs => isNameStart c && cs.all isNamePart

/-- Whether a name is bound without being printed. -/
def isHidden (name : String) : Bool := ['_'].isPrefixOf name.toList

/-- Whether a name belongs to the compiler. -/
def isInternal (name : String) : Bool := ['_', '_'].isPrefixOf name.toList

end RowAwk.Syntax
