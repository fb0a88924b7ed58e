import RowAwk.Awk.Program

/-!
The program inside a shell command is one word, and all of it is quoted.

A shell reads a command from left to right. Outside quotes some characters end a word, start a
substitution, or take the meaning from the next character; inside single quotes every character
stands for itself until the next quote, and no escape is known there. Pieces that touch each other
are one word, so a quote is written by leaving the quotes:

    text       it's
    quoted     'it'\''s'
    read       ' i t '   \'   ' s '     one word of four quoted letters

A letter that is read outside quotes and without a backslash could still be a pattern or a tilde.
So the reader keeps for each letter whether it was quoted.
-/

namespace RowAwk.Shell

/-! ### Reading a word -/

/-- A character of a word, and whether it was quoted. -/
structure Letter where
  char : Char
  quoted : Bool
deriving DecidableEq, Repr

/-- What a character means outside quotes. -/
inductive Role where
  | quote | escape | expansion | delimiter | plain
deriving DecidableEq, Repr

/-- The role of a character. Double quotes count as expansions, since they allow them inside. -/
def Role.of (c : Char) : Role :=
  if c = '\'' then .quote
  else if c = '\\' then .escape
  else if c = '"' ∨ c = '$' ∨ c = '\x60' then .expansion
  else if c ∈ [' ', '\t', '\n', '|', '&', ';', '<', '>', '(', ')'] then .delimiter
  else .plain

/-- Whether the reader is inside single quotes. -/
inductive Mode where
  | bare | quoted
deriving DecidableEq, Repr

/-- The letters up to the end of a word, and the text after it. There are none if quotes are left
    open, or if letters depend on an expansion. -/
def letters? : Mode → List Char → Option (List Letter × List Char)
  | .quoted, [] => none
  | .quoted, c :: cs =>
    if c = '\'' then letters? .bare cs
    else (letters? .quoted cs).map fun (ls, rest) => (⟨c, true⟩ :: ls, rest)
  | .bare, [] => some ([], [])
  | .bare, c :: cs =>
    match Role.of c with
    | .quote => letters? .quoted cs
    | .escape =>
      match cs with
      | [] => none
      | d :: ds =>
        -- a line that ends with a backslash goes on
        if d = '\n' then letters? .bare ds
        else (letters? .bare ds).map fun (ls, rest) => (⟨d, true⟩ :: ls, rest)
    | .expansion => none
    | .delimiter => some ([], c :: cs)
    | .plain => (letters? .bare cs).map fun (ls, rest) => (⟨c, false⟩ :: ls, rest)

/-- The word that a text starts with, and the text after it. A delimiter starts none, nor does the
    sign of a comment. -/
def word? : List Char → Option (List Letter × List Char)
  | [] => none
  | c :: cs => if Role.of c = .delimiter ∨ c = '#' then none else letters? .bare (c :: cs)

/-- The letters of a text that is quoted as a whole. -/
def quotedLetters (cs : List Char) : List Letter := cs.map fun c => ⟨c, true⟩

/-! ### Reading what was quoted -/

open Awk.Program (quoteForShell)

theorem quoteForShell_quote (cs : List Char) :
    quoteForShell ('\'' :: cs) = '\'' :: '\\' :: '\'' :: '\'' :: quoteForShell cs := rfl

theorem quoteForShell_other {c : Char} (hc : c ≠ '\'') (cs : List Char) :
    quoteForShell (c :: cs) = c :: quoteForShell cs := by
  simp [quoteForShell, hc]

/-- A text put between quotes is read as it was, and the word goes on behind it. -/
theorem letters?_quoteForShell (cs rest : List Char) :
    letters? .quoted (quoteForShell cs ++ '\'' :: rest)
      = (letters? .bare rest).map fun r => (quotedLetters cs ++ r.1, r.2) := by
  induction cs with
  | nil => simp [quoteForShell, letters?, quotedLetters]
  | cons c cs ih =>
    by_cases hc : c = '\''
    · -- out of the quotes, one escaped letter, and back into them
      subst hc
      have hescape : letters? .bare ('\\' :: '\'' :: '\'' :: (quoteForShell cs ++ '\'' :: rest))
          = (letters? .quoted (quoteForShell cs ++ '\'' :: rest)).map
            fun (ls, rest) => (⟨'\'', true⟩ :: ls, rest) := rfl
      rw [quoteForShell_quote, List.cons_append, letters?, if_pos rfl, List.cons_append,
        List.cons_append, List.cons_append, hescape, ih, Option.map_map]
      rfl
    · rw [quoteForShell_other hc, List.cons_append, letters?, if_neg hc, ih, Option.map_map]
      rfl

/-- A text between quotes with nothing behind it is one word. -/
theorem word?_quoteForShell (cs : List Char) :
    word? ('\'' :: (quoteForShell cs ++ ['\''])) = some (quotedLetters cs, []) := by
  have hopen : word? ('\'' :: (quoteForShell cs ++ ['\'']))
      = letters? .quoted (quoteForShell cs ++ ['\'']) := rfl
  rw [hopen, letters?_quoteForShell]
  simp [letters?]

/-! ### Where the program starts -/

/-- What stands in front of the program: the option that sets the separator of columns. -/
def separatorOption : String := "-F $'\\t' "

/-- A quote behind a dollar sign is never followed by a letter. -/
theorem not_infix_quoteForShell (cs : List Char) :
    ¬['$', '\'', '\\', 't'] <:+: quoteForShell cs ++ ['\''] := by
  induction cs with
  | nil => simp [quoteForShell, List.infix_cons_iff]
  | cons c cs ih =>
    by_cases hc : c = '\''
    · subst hc
      simpa [quoteForShell_quote, List.infix_cons_iff] using ih
    · rw [quoteForShell_other hc, List.cons_append, List.infix_cons_iff, not_or]
      refine ⟨fun h => ?_, ih⟩
      obtain ⟨-, h⟩ := List.cons_prefix_cons.1 h
      cases cs with
      | nil => simp [quoteForShell] at h
      | cons d cs =>
        by_cases hd : d = '\''
        · subst hd
          simp [quoteForShell_quote] at h
        · rw [quoteForShell_other hd] at h
          exact hd (List.cons_prefix_cons.1 h).1.symm

theorem not_infix_separatorOption (cs : List Char) :
    ¬separatorOption.toList <:+: '\'' :: (quoteForShell cs ++ ['\'']) := by
  intro h
  have hinner : ['$', '\'', '\\', 't'] <:+: separatorOption.toList :=
    ⟨['-', 'F', ' '], ['\'', ' '], by decide⟩
  rcases List.infix_cons_iff.1 (hinner.trans h) with hp | hi
  · exact absurd (List.cons_prefix_cons.1 hp).1 (by decide)
  · exact not_infix_quoteForShell cs hi

end RowAwk.Shell

namespace RowAwk.Awk.Program

open Shell (quotedLetters separatorOption word?)

/-- Whatever the program and the words before it are, the text behind the last option that sets the
    separator is one word. Its letters are those of the compact program, all of them quoted. -/
theorem commandLine_quotes_program (p : Program String String) (awk args : String) :
    ∃ tail : String,
      p.commandLine awk args
        = "LC_ALL=C " ++ awk ++ " " ++ args ++ " " ++ separatorOption ++ tail ∧
      ¬separatorOption.toList <:+: tail.toList ∧
      word? tail.toList = some (quotedLetters (p.text .compact).toList, []) := by
  let quoted := String.ofList (quoteForShell (p.text .compact).toList)
  refine ⟨"'" ++ quoted ++ "'", ?_, ?_, ?_⟩
  · have hoption : " -F $'\\t' '" = " " ++ separatorOption ++ "'" := by decide
    calc p.commandLine awk args
        = "LC_ALL=C " ++ awk ++ " " ++ args ++ (" " ++ separatorOption ++ "'") ++ quoted ++ "'" :=
          congrArg (fun o => "LC_ALL=C " ++ awk ++ " " ++ args ++ o ++ quoted ++ "'") hoption
      _ = "LC_ALL=C " ++ awk ++ " " ++ args ++ " " ++ separatorOption ++ ("'" ++ quoted ++ "'") := by
          simp only [String.append_assoc]
  · simpa [quoted] using Shell.not_infix_separatorOption (p.text .compact).toList
  · simpa [quoted] using Shell.word?_quoteForShell (p.text .compact).toList

/-- Quotes next to each other, at an end, and behind a backslash. -/
example : Shell.word? "'a'\\'''\\''\\'\\'''".toList
    = some (quotedLetters "a''\\'".toList, []) := by decide

end RowAwk.Awk.Program
