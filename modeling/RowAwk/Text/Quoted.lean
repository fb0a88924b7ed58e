import RowAwk.Text.Visible

/-!
Texts shown between double quotes, as expressions and messages show them.

The quote, the backslash and the four controls that have a letter are escaped by a backslash; a
character without a visible form is shown by its code point, `\u{...}` in hexadecimal. All else,
the single quote included, stands for itself.
-/

namespace RowAwk.Text

/-- The lower case digits of a number in base sixteen, without padding. -/
def hexDigits (n : Nat) : List Char := Nat.toDigits 16 n

/-- A character as it stands in a quoted text. -/
def quoteChar (c : Char) : List Char :=
  if c = '"' then ['\\', '"']
  else if c = '\\' then ['\\', '\\']
  else if c = '\n' then ['\\', 'n']
  else if c = '\r' then ['\\', 'r']
  else if c = '\t' then ['\\', 't']
  else if c = '\x00' then ['\\', '0']
  else if isVisible c then [c]
  else ['\\', 'u', '\x7b'] ++ hexDigits c.toNat ++ ['\x7d']

/-- A text between double quotes. -/
def quoted (s : String) : String :=
  String.ofList ('"' :: s.toList.flatMap quoteChar ++ ['"'])

end RowAwk.Text
