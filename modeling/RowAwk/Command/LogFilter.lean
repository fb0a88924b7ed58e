import RowAwk.Command.Pattern
import RowAwk.Text.Blank

/-!
Log filters: which messages of which parts of the program are logged.

    filter     :=  directive? (',' directive?)*
    directive  :=  target? span? ('=' level?)?
    span       :=  '[' name ('{' field ('=' value)? '}')? ']'

A target starts with a letter, a digit or one of `-`, `:` and `_`, and goes on to an equals sign or
a bracket; a level alone looks like a target and needs no rule of its own. The comma is looked for
first, so a span has one field at most. A directive that ends in a level has no blanks around it.
-/

namespace RowAwk.Command.LogFilter

/-- The filter that is used if none is given. -/
def standard : String := "tabkit_=info,warn"

/-- Whether a text names a level: a number up to five or one of six words. Case does not matter. -/
def isLevel (cs : List Char) : Bool :=
  match Number.word64OfDigits? cs with
  | some n => n ≤ 5
  | none =>
    ["off", "error", "warn", "info", "debug", "trace"].contains
      (String.ofList (cs.map Char.toLower))

/-- Whether a character may start a target. -/
def startsTarget (c : Char) : Bool :=
  c == '-' || c == ':' || c == '_' || Text.isAlphanumeric c

/-- Whether a text is the end of a directive: nothing, or an equals sign and a level, which only an
    `exact` directive may have. -/
def isEnding (exact : Bool) : List Char → Bool
  | [] => true
  | '=' :: level => exact && (level.isEmpty || isLevel level)
  | _ => false

/-- Whether a text can be the value of a field: a number, or a pattern for texts. -/
def isFieldValue (cs : List Char) : Bool :=
  (Number.Binary64.ofText? (String.ofList cs)).isSome || isPattern cs

/-- Whether a text is a field: a name, and after an equals sign maybe a value. What follows a second
    equals sign is not looked at. -/
def isField (cs : List Char) : Bool :=
  match Text.pieces (· == '=') cs with
  | _ :: value :: _ => isFieldValue value
  | _ => !cs.isEmpty

/-- Whether a text is the field of a span after its brace, and what follows. -/
def isFieldTail (exact : Bool) (cs : List Char) : Bool :=
  match Text.cutAt? (· == '\x7d') cs with
  | some (field, ']' :: rest) => isField field && isEnding exact rest
  | _ => false

/-- Whether a text is a span after its bracket, and what follows. -/
def isSpanTail (exact : Bool) (cs : List Char) : Bool :=
  match cs.dropWhile fun c => c != ']' && c != '\x7b' with
  | ']' :: rest => isEnding exact rest
  | _ :: fields => isFieldTail exact fields
  | [] => false

/-- Whether a text is the rest of a target, and what follows. -/
def isTargetTail (exact : Bool) (cs : List Char) : Bool :=
  match cs.dropWhile fun c => c != '=' && c != '[' with
  | '[' :: span => isSpanTail exact span
  | rest => isEnding exact rest

def isDirective (cs : List Char) : Bool :=
  let trimmed := Text.trim cs
  let exact := trimmed == cs
  match trimmed with
  | [] => false
  | '[' :: span => isSpanTail exact span
  | c :: rest => startsTarget c && isTargetTail exact rest

/-- Whether a text is a log filter. -/
def isValid (filter : String) : Bool :=
  ((Text.pieces (· == ',') filter.toList).filter (!·.isEmpty)).all isDirective

end RowAwk.Command.LogFilter
