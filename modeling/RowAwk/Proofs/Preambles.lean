import RowAwk.Proofs.Provisions

/-!
What stands in front of a program.

A text starts with the sources of the functions that the program brings along, in the order of all
functions and each once. Then the program begins:

    x = uniq(";", a); y = crc32(b)

    function crc32(str)
    ...
    function uniq(delim, expr)...
    BEGIN...

What the text calls, in the sources and after them, is defined there. The only exception are
accumulators whose delimiter does not stay a string when its holes are filled in.
-/

open List

namespace RowAwk

namespace Awk

open Token (isWordPart)

/-! ### Sources of functions -/

/-- The function that a line of characters starts to define. -/
def definedIn (line : List Char) : Option String :=
  if "function ".toList.isPrefixOf line then some (String.ofList ((line.drop 9).takeWhile isWordPart))
  else none

/-- The function that a line of awk starts to define. -/
def defined? (line : String) : Option String := definedIn line.toList

namespace Routine

/-- What sources call besides the function that they define. -/
def sourceWords : List String :=
  ["if", "for", "while", "and", "xor", "lshift", "rshift", "compl", "split", "asorti", "length",
    "sprintf", "system", "close", "hash_id_set", "hash_id_map"]

/-- A line of a source: it calls the function and words of awk, and it may define the function. -/
structure Writes (r : Routine) (defines : Option String) (line : String) : Prop where
  calls : passes (r.name :: sourceWords) (some .fresh) (line.toList.map .char) = true
  defined : defined? line = defines

theorem writes_ofList {r : Routine} {d : Option String} {cs : List Char}
    (hc : passes (r.name :: sourceWords) (some .fresh) (cs.map .char) = true)
    (hd : definedIn cs = d) : r.Writes d (String.ofList cs) := by
  constructor
  · rw [String.toList_ofList]
    exact hc
  · rw [defined?, String.toList_ofList]
    exact hd

set_option maxRecDepth 2048 in
/-- The first line of a source defines the function. -/
theorem exists_lines (r : Routine) : ∃ first rest, r.lines = first :: rest ∧
    r.Writes (some r.name) first ∧ ∀ line ∈ rest, r.Writes none line := by
  cases r <;>
    refine ⟨_, _, rfl, writes_ofList (by decide +kernel) (by decide +kernel), ?_⟩ <;>
    repeat' first
      | exact forall_mem_nil _
      | refine forall_mem_cons.2
          ⟨writes_ofList (by decide +kernel) (by decide +kernel), ?_⟩

variable {G : String → Prop}

/-- A source calls what its lines call. -/
theorem sentence_source (r : Routine) (hG : ∀ f ∈ r.name :: sourceWords, G f) :
    Sentence G (r.source ++ "\n") := by
  have line {d : Option String} {line : String} (h : r.Writes d line) : CallsOnly G line :=
    (takes_chars line.toList).callsOnly hG h.calls
  obtain ⟨first, rest, hlines, hfirst, hrest⟩ := r.exists_lines
  rw [source, hlines]
  refine (callsOnly_intercalate (by decide) ?_).marks (by decide)
  exact forall_mem_cons.2 ⟨line hfirst, fun l hl => line (hrest l hl)⟩

/-- The lines that define some functions. -/
def definitions (routines : List Routine) : List String := routines.flatMap lines

/-- The functions that are defined are those that should be, each as often and in the same order. -/
theorem defined_definitions (routines : List Routine) :
    (definitions routines).filterMap defined? = routines.map name := by
  induction routines with
  | nil => rfl
  | cons r routines ih =>
    obtain ⟨first, rest, hlines, hfirst, hrest⟩ := r.exists_lines
    have hnone : rest.filterMap defined? = [] :=
      filterMap_eq_nil_iff.2 fun line hl => (hrest line hl).defined
    rw [definitions, flatMap_cons, filterMap_append, hlines,
      filterMap_cons_some hfirst.defined, hnone, map_cons]
    exact congrArg _ ih

end Routine

/-- Texts with a separator between them, and one at the end, are texts with one after each. -/
theorem intercalate_append_self (sep : String) : ∀ {texts : List String}, texts ≠ [] →
    sep.intercalate texts ++ sep = String.join (texts.map (· ++ sep))
  | [t], _ => by simp
  | t :: u :: texts, _ => by
    rw [String.intercalate_cons_cons, map_cons, String.join_cons, String.append_assoc,
      intercalate_append_self sep (cons_ne_nil u texts)]

/-! ### Programs -/

namespace Program

theorem preamble_eq_join (p : Program String String) :
    p.preamble = String.join ((Routine.definitions p.routines).map (· ++ "\n")) := by
  rw [preamble]
  induction p.routines with
  | nil => rfl
  | cons r routines ih =>
    obtain ⟨first, rest, hlines, -⟩ := r.exists_lines
    have hsource : r.source ++ "\n" = String.join (r.lines.map (· ++ "\n")) :=
      intercalate_append_self "\n" (by rw [hlines]; exact cons_ne_nil _ _)
    rw [map_cons, String.join_cons, ih, hsource, Routine.definitions, Routine.definitions,
      flatMap_cons, map_append, String.join_append]

variable {p : Program Line Head}

/-- A program that does something before the rows says so right after the functions. -/
theorem exists_text_eq (h : p.start ≠ []) (layout : Layout) :
    ∃ rest, p.written.text layout = p.written.preamble ++ "BEGIN" ++ rest := by
  have hstart : p.written.start.isEmpty = false := by
    cases hs : p.start with
    | nil => exact absurd hs h
    | cons i items => rw [written, hs, Item.toTexts, isEmpty_cons]
  rw [text_eq_preamble, parts, sectionText, hstart]
  simp only [Bool.false_eq_true, if_false, String.join_cons, String.append_assoc]
  exact ⟨_, rfl⟩

/-- A program brings along what is required and what that calls, whatever the order and the number of
    the requirements. The functions are listed in the order of all functions, and the lines in front
    of the program define exactly them. -/
structure Brings (required : List Routine) (p : Program Line Head) : Prop where
  members : ∀ s, s ∈ p.routines ↔ ∃ r ∈ required, s = r ∨ s ∈ r.dependencies
  determined : ∀ rs, (∀ r, r ∈ rs ↔ r ∈ required) → p.routines = Routine.requireAll [] rs
  ordered : p.routines.Sublist Routine.all
  closed : ∀ r ∈ p.routines, r.dependencies ⊆ p.routines
  defined : (Routine.definitions p.routines).filterMap defined? = p.routines.map Routine.name
  preamble : p.written.preamble = String.join ((Routine.definitions p.routines).map (· ++ "\n"))
  first : ∀ layout, ∃ rest, p.written.text layout = p.written.preamble ++ "BEGIN" ++ rest

theorem brings_requireAll {required : List Routine}
    (h : p.routines = Routine.requireAll [] required) (hs : p.start ≠ []) :
    p.Brings required where
  members s := by rw [h, Routine.mem_requireAll]
  determined rs hrs := by rw [h, Routine.requireAll_congr hrs]
  ordered := by
    rw [h]
    exact Routine.sublist_requireAll required
  closed r hr := by
    rw [h] at hr ⊢
    exact Routine.dependencies_requireAll hr
  defined := Routine.defined_definitions p.routines
  preamble := p.written.preamble_eq_join
  first := exists_text_eq hs

/-- Whatever function of the library is called in the text of a program, the program brings it
    along, together with what it calls in turn. -/
def Complete (p : Program Line Head) : Prop :=
  ∀ layout : Layout, layout.Plain → ∀ r ∈ [Routine.crc32, .isInFile, .mapFromFile, .uniq],
    r.name ∈ callees (p.written.text layout) → r ∈ p.routines ∧ r.dependencies ⊆ p.routines

end Program

end Awk

namespace Compile

open Awk (Category Head Item Line Program Routine)
open GroupProgram (keyAndNumber)

theorem provided_source {routines : List Routine} {r : Routine} (hr : r ∈ routines)
    (hd : r.dependencies ⊆ routines) : ∀ f ∈ r.name :: Routine.sourceWords, Provided routines f := by
  refine forall_mem_cons.2 ⟨.of_mem hr hd, fun f hf => .of_ofName? ?_⟩
  revert f
  decide

/-- A program is complete if its lines call only what is provided. -/
theorem complete_of_callsOnly {required : List Routine} {p : Program Line Head} (h : p.Brings required)
    (hi : ∀ i ∈ p.start ++ p.row ++ p.finish, i.CallsOnly (Provided p.routines)) : p.Complete := by
  intro layout hl r hr hcalled
  have hcalls := Program.callsOnly_text hl
    (fun s hs => s.sentence_source (provided_source hs (h.closed s hs))) hi
  have hlibrary : ∀ r ∈ [Routine.crc32, .isInFile, .mapFromFile, .uniq],
      (Function.ofName? r.name).isSome = true := by decide
  exact hcalls.callees r.name hcalled r rfl (hlibrary r hr)

variable {schema : Schema} {c : Compiled}

theorem RowProgram.start_ne_nil {filters maps : List String}
    (h : compile schema filters maps = .ok c) : c.program.start ≠ [] := by
  obtain ⟨filter, state, projection, derived, -, -, -, rfl⟩ := compile_eq_ok h
  exact cons_ne_nil _ _

theorem GroupProgram.start_ne_nil {key : Option String} {aggregates : List (Category × String)}
    {options : Options} (h : compile schema key aggregates options = .ok c) :
    c.program.start ≠ [] := by
  obtain ⟨d, projection, derived, -, -, -, rfl⟩ := compile_eq_ok h
  exact cons_ne_nil _ _

/-- Functions of the library are defined where they are called. A compiled program brings along what
    its calls require, and that does not depend on their order or number. The functions stand in front
    of the program, each once and in a fixed order. All functions of the library that the text calls
    are among them; for programs with accumulators, that is so if their delimiters stay strings. -/
theorem called_functions_defined (schema : Schema) :
    (∀ filters maps c, RowProgram.compile schema filters maps = .ok c →
      c.program.Brings (requirements (RowProgram.calls schema filters maps)) ∧
        c.program.Complete) ∧
    ∀ key aggregates options c, GroupProgram.compile schema key aggregates options = .ok c →
      c.program.Brings (requirements (GroupProgram.calls schema key aggregates options)) ∧
        ((∀ f ∈ c.program.start.gather Line.inits, KeepsDelimiter f) → c.program.Complete) := by
  refine ⟨fun filters maps c h => ?_, fun key aggregates options c h => ?_⟩
  · obtain ⟨hroutines, hitems⟩ := RowProgram.callsOnly_items h
    have hbrings := Program.brings_requireAll hroutines (RowProgram.start_ne_nil h)
    exact ⟨hbrings, complete_of_callsOnly hbrings hitems⟩
  · obtain ⟨hroutines, hitems⟩ := GroupProgram.callsOnly_items h
    have hbrings := Program.brings_requireAll hroutines (GroupProgram.start_ne_nil h)
    exact ⟨hbrings, fun hk => complete_of_callsOnly hbrings (hitems hk)⟩

/-- Calls in a filter, in columns, and inside of a text that an accumulator joins. -/
theorem called_functions_defined_keyAndNumber :
    ∃ c c', RowProgram.compile keyAndNumber ["is_in_file('keys', a)"]
        ["x = uniq(';', a); y = crc32(b) + crc32(a)"] = .ok c ∧
      c.program.routines = [.crc32, .keySet, .isInFile, .uniq] ∧
      c.program.Brings (requirements (RowProgram.calls keyAndNumber ["is_in_file('keys', a)"]
        ["x = uniq(';', a); y = crc32(b) + crc32(a)"])) ∧ c.program.Complete ∧
      GroupProgram.compile keyAndNumber (some "a")
        [(.group, "x = concat(map_from_file('names', crc32(b), a), '; ')")] {} = .ok c' ∧
      c'.program.routines = [.crc32, .keyTable, .mapFromFile] ∧
      (c'.program.row.gather Line.updates).map Awk.Fold.updateText
        = ["__grp_0 = (__grp_0==\"\")?(map_from_file(_map_from_file0, _map_from_file1, $1))"
          ++ ":(__grp_0 \"; \" map_from_file(_map_from_file0, _map_from_file1, $1));"] ∧
      (∀ f ∈ c'.program.start.gather Line.inits, KeepsDelimiter f) ∧
      c'.program.Brings (requirements (GroupProgram.calls keyAndNumber (some "a")
        [(.group, "x = concat(map_from_file('names', crc32(b), a), '; ')")] {})) ∧
      c'.program.Complete := by
  obtain ⟨hrow, hgroup⟩ := called_functions_defined keyAndNumber
  simp only [exists_and_left]
  refine exists_ok_of (by decide +kernel) fun c hc => ?_
  obtain ⟨hbrings, hcomplete⟩ := hrow _ _ c hc
  refine ⟨of_ok hc (by decide +kernel), hbrings, hcomplete,
    exists_ok_of (by decide +kernel) fun c' hc' => ?_⟩
  obtain ⟨hbrings', hcomplete'⟩ := hgroup _ _ _ c' hc'
  have hk : ∀ f ∈ c'.program.start.gather Line.inits, KeepsDelimiter f := by
    intro f hf
    have hfolds : ∀ f ∈ c'.program.start.gather Line.inits,
        templatesOf f.accumulator = .concat (Awk.stringText "; ") ∧ f.args.length = 1 :=
      of_ok hc' (by decide +kernel)
    obtain ⟨ht, hlength⟩ := hfolds f hf
    refine keepsDelimiter_concat ht ?_
    rw [hlength]
    decide +kernel
  exact ⟨of_ok hc' (by decide +kernel), of_ok hc' (by decide +kernel), hk, hbrings', hcomplete' hk⟩

/-- A delimiter whose hole is filled in with a string: the string ends it, and what stands inside of
    the string is called. Nothing defines it. -/
theorem delimiter_calls_undefined : ∃ c, GroupProgram.compile keyAndNumber (some "a")
      [(.group, "x = concat(' crc32(1) ', '\x7barg0\x7d')")] {} = .ok c ∧
    (c.program.row.gather Line.updates).map Awk.Fold.updateText
      = ["__grp_0 = (__grp_0==\"\")?(\" crc32(1) \"):(__grp_0 \"\" crc32(1) \"\" \" crc32(1) \");"] ∧
    Routine.crc32.name ∈ Awk.callees (c.program.written.text .compact) ∧
    c.program.routines = [] ∧ ¬ c.program.Complete := by
  refine exists_ok_of (by decide +kernel) fun c hc => ?_
  have hcalled : Routine.crc32.name ∈ Awk.callees (c.program.written.text .compact) :=
    of_ok hc (by decide +kernel)
  have hroutines : c.program.routines = [] := of_ok hc (by decide +kernel)
  refine ⟨of_ok hc (by decide +kernel), hcalled, hroutines, fun hcomplete => ?_⟩
  obtain ⟨hmem, -⟩ := hcomplete .compact (Awk.Layout.plain 0).1 .crc32 (by decide) hcalled
  rw [hroutines] at hmem
  cases hmem

end Compile

end RowAwk
