import RowAwk.Proofs.Filling
import RowAwk.Proofs.GroupNames
import RowAwk.Proofs.Tokens

/-!
Delimiters in the statements of aggregates that join texts.

Such an aggregate has a fixed wording with places for the accumulator, the value and the delimiter:

    concat        (accumulator) = ((accumulator)=="")?((value)):((accumulator) (delimiter) (value));

The delimiter is put into the template, as the string constant that awk reads, before the holes of
the template are filled in. So a hole that the constant itself spells is filled in along with the
others. A constant without such holes stands in the statements as it is.

    concat(b, ";")          (__grp_0 ";" $2)
    concat(b, "{var}")      (__grp_0 "__grp_0" $2)
-/

open List

namespace RowAwk.Compile

open Awk (Aggregate Category Expr Fold stringText)
open Templates
open Awk.Template (Hole Holeless Part expand expand_of_not_isOpen holeless_cons isHolePart isSolid
  isSolid_of_not_mem parts parts_append_of_break parts_break parts_char parts_hole parts_induction
  parts_solid)

/-! ### Wordings -/

/-- A piece of a statement: fixed text, or a place for something else. -/
inductive Slot where
  | text (s : String)
  | accumulator
  | value
  | delimiter

namespace Slot

/-- A piece with its place taken. -/
def fill (accumulator value delimiter : String) : Slot → String
  | .text s => s
  | .accumulator => accumulator
  | .value => value
  | .delimiter => delimiter

/-- A statement with all places taken at once. -/
def fillAll (accumulator value delimiter : String) : List Slot → String
  | [] => ""
  | slot :: slots =>
    slot.fill accumulator value delimiter ++ fillAll accumulator value delimiter slots

/-- The first character that the template of the pieces has. -/
def first? : List Slot → Option Char
  | [] => none
  | .text s :: slots => s.toList.head?.or (first? slots)
  | .accumulator :: _ | .value :: _ => some '\x7b'
  | .delimiter :: _ => some '"'

/-- Whether the fixed texts open no hole. -/
def areSolid : List Slot → Bool
  | [] => true
  | .text s :: slots => isSolid (first? slots) s.toList && areSolid slots
  | .accumulator :: slots | .value :: slots | .delimiter :: slots => areSolid slots

theorem areSolid_text {s : String} (h : '\x7b' ∉ s.toList) (slots : List Slot) :
    areSolid (.text s :: slots) = areSolid slots := by
  rw [areSolid, isSolid_of_not_mem h, Bool.true_and]

/-! ### Filling in -/

section

variable {literal : String} {inner : List Char} (hl : literal.toList = '"' :: inner ++ ['"'])
include hl

theorem head?_fillAll (slots : List Slot) :
    (fillAll self arg0 literal slots).toList.head? = first? slots := by
  induction slots with
  | nil => rfl
  | cons slot slots ih =>
    rw [fillAll, String.toList_append, List.head?_append, ih]
    cases slot with
    | text s => rfl
    | accumulator =>
      have hself : self.toList.head? = some '\x7b' := by decide
      rw [fill, hself]
      rfl
    | value =>
      have harg : arg0.toList.head? = some '\x7b' := by decide
      rw [fill, harg]
      rfl
    | delimiter => rw [fill, hl]; rfl

/-- The places of a template are filled in at once. The literal is filled in before it takes its
    place. -/
theorem expand_fillAll {slots : List Slot} (h : areSolid slots = true) (name : String)
    (args : List String) :
    expand (fillAll self arg0 literal slots) name args
      = fillAll name (args.getD 0 arg0) (expand literal name args) slots := by
  -- on characters, with the texts of the pieces cut one after the other
  have key : (parts (fillAll self arg0 literal slots).toList).flatMap
        (Part.fill name.toList (args.map String.toList))
      = (fillAll name (args.getD 0 arg0) (expand literal name args) slots).toList := by
    induction slots with
    | nil => rw [fillAll, String.toList_empty, parts]; rfl
    | cons slot slots ih =>
      rw [fillAll, fillAll, String.toList_append, String.toList_append]
      cases slot with
      | text s =>
        obtain ⟨hs, hslots⟩ := Bool.and_eq_true_iff.1 h
        rw [← head?_fillAll hl slots] at hs
        rw [fill, fill, parts_solid hs, flatMap_append, ih hslots, flatMap_map]
        congr 1
        exact flatMap_singleton' _
      | accumulator =>
        have hhole : Hole self.toList .name := .name
        rw [fill, fill, parts_hole hhole, flatMap_cons, ih h]
        rfl
      | value =>
        have hhole : Hole arg0.toList (.argument 0 arg0.toList) := by
          have harg : arg0.toList = Awk.Template.argumentHole ++ ['0'] ++ ['\x7d'] := by
            decide
          rw [harg]
          exact .argument (by decide)
        rw [fill, fill, parts_hole hhole, flatMap_cons, ih h, Part.fill]
        cases args <;> rfl
      | delimiter =>
        have hcut : ∀ r, parts (literal.toList ++ r) = parts literal.toList ++ parts r := by
          intro r
          rw [hl]
          exact parts_append_of_break (by decide) _ r
        rw [fill, fill, hcut, flatMap_append, ih h, expand, String.toList_ofList]
  exact String.toList_inj.1 ((String.toList_ofList).trans key)

end

end Slot

/-- The statements of an aggregate that joins texts. -/
structure Wording where
  init : List Slot
  update : List Slot
  finish : Option (List Slot) := none

namespace Wording

/-- The templates for a wording: the places of the accumulator and the value are holes. -/
def templates (w : Wording) (delimiter : String) : Templates where
  init := Slot.fillAll self arg0 delimiter w.init
  update := Slot.fillAll self arg0 delimiter w.update
  finish := w.finish.map (Slot.fillAll self arg0 delimiter)

def concat : Wording where
  init := [.accumulator, .text " = \"\";"]
  update := [.accumulator, .text " = (", .accumulator, .text "==\"\")?(", .value, .text "):(",
    .accumulator, .text " ", .delimiter, .text " ", .value, .text ");"]

/-- Joins the sorted keys of the heap. -/
def joinHeap : List Slot :=
  [.accumulator, .text " = \"\"; ", .accumulator, .text "_nitems = asorti(", .accumulator,
    .text "_heap, ", .accumulator, .text "_sorted);", .text "for (", .accumulator, .text "_i=1; ",
    .accumulator, .text "_i<=", .accumulator, .text "_nitems; ", .accumulator, .text "_i++) ",
    .accumulator, .text " = (", .accumulator, .text "==\"\")?(", .accumulator, .text "_sorted[",
    .accumulator, .text "_i])", .text ":(", .accumulator, .text " ", .delimiter, .text " ",
    .accumulator, .text "_sorted[", .accumulator, .text "_i]);", .text "delete ", .accumulator,
    .text "_sorted;"]

def concatUniq : Wording where
  init := [.accumulator, .text " = \"\"; delete ", .accumulator, .text "_heap;"]
  update := [.accumulator, .text "_heap[", .value, .text "]=\"\""]
  finish := joinHeap

def concatSorted : Wording where
  init := [.accumulator, .text " = \"\"; delete ", .accumulator, .text "_heap; delete ",
    .accumulator, .text "_heap_count;"]
  update := [.accumulator, .text "_heap[", .value, .text "]=\"\"; ", .text "if (", .value,
    .text " in ", .accumulator, .text "_heap_count) \x7b", .accumulator, .text "_heap_count[",
    .value, .text "]++;\x7d ", .text "else \x7b", .accumulator, .text "_heap_count[", .value,
    .text "] = 1;\x7d"]
  finish := some [.accumulator, .text " = \"\"; ", .accumulator, .text "_nitems = asorti(",
    .accumulator, .text "_heap, ", .accumulator, .text "_sorted); ", .text "for(", .accumulator,
    .text "_i=1; ", .accumulator, .text "_i<=", .accumulator, .text "_nitems; ", .accumulator,
    .text "_i++) \x7b", .text "for (", .accumulator, .text "_j=0; ", .accumulator, .text "_j<",
    .accumulator, .text "_heap_count[", .accumulator, .text "_sorted[", .accumulator,
    .text "_i]]; ", .accumulator, .text "_j++) \x7b", .text "if (", .accumulator,
    .text " == \"\") \x7b", .accumulator, .text " = ", .accumulator, .text "_sorted[",
    .accumulator, .text "_i];\x7d ", .text "else \x7b", .accumulator, .text " = ", .accumulator,
    .text " ", .delimiter, .text " ", .accumulator, .text "_sorted[", .accumulator,
    .text "_i];\x7d\x7d\x7d ", .text "delete ", .accumulator, .text "_sorted"]

def chainConcatUniq : Wording where
  init := [.accumulator, .text " = \"\"; delete ", .accumulator, .text "_heap;"]
  update := [.text "split(", .value, .text ", ", .accumulator, .text "_unjoin, ", .delimiter,
    .text ");", .text "for (", .accumulator, .text "_item in ", .accumulator, .text "_unjoin) ",
    .accumulator, .text "_heap[", .accumulator, .text "_unjoin[", .accumulator,
    .text "_item]]=\"\""]
  finish := joinHeap

def concatSample (limit : Int) : Wording where
  init := [.accumulator, .text " = \"\"; ", .accumulator, .text "_cnt=0; delete ", .accumulator,
    .text "_heap;"]
  update := [.text "if (!(", .value, .text " in ", .accumulator, .text "_heap) && ", .accumulator,
    .text "_cnt<", .text (toString limit), .text ") ", .text "\x7b", .accumulator, .text "_heap[",
    .value, .text "]=\"\"; ", .accumulator, .text "_cnt += 1;\x7d"]
  finish := joinHeap

/-! ### Templates of wordings -/

section

variable (d : String)

theorem templates_concat : concat.templates d = Templates.concat d := by
  simp only [templates, concat, Templates.concat, Slot.fillAll, Slot.fill, String.append_assoc,
    String.append_empty]
  rfl

theorem fillAll_joinHeap : Slot.fillAll self arg0 d joinHeap = Templates.joinHeap d := by
  simp only [Templates.joinHeap, joinHeap, Slot.fillAll, Slot.fill, String.append_assoc,
    String.append_empty]
  rfl

theorem templates_concatUniq : concatUniq.templates d = Templates.concatUniq d := by
  simp only [templates, concatUniq, Templates.concatUniq, Option.map_some, fillAll_joinHeap,
    Slot.fillAll, Slot.fill, String.append_assoc, String.append_empty]
  rfl

theorem templates_concatSorted : concatSorted.templates d = Templates.concatSorted d := by
  simp only [templates, concatSorted, Templates.concatSorted, Option.map_some, Slot.fillAll,
    Slot.fill, String.append_assoc, String.append_empty]
  rfl

theorem templates_chainConcatUniq : chainConcatUniq.templates d = Templates.chainConcatUniq d := by
  simp only [templates, chainConcatUniq, Templates.chainConcatUniq, Option.map_some,
    fillAll_joinHeap, Slot.fillAll, Slot.fill, String.append_assoc, String.append_empty]
  rfl

theorem templates_concatSample (limit : Int) :
    (concatSample limit).templates d = Templates.concatSample limit d := by
  simp only [templates, concatSample, Templates.concatSample, Option.map_some, fillAll_joinHeap,
    Slot.fillAll, Slot.fill, String.append_assoc, String.append_empty]
  rfl

end

/-! ### Solid wordings -/

/-- No fixed text of a statement opens a hole. -/
structure Solid (w : Wording) : Prop where
  init : Slot.areSolid w.init = true
  update : Slot.areSolid w.update = true
  finish : ∀ slots ∈ w.finish, Slot.areSolid slots = true

theorem solid_concat : concat.Solid := ⟨by decide, by decide, by decide⟩

theorem solid_concatUniq : concatUniq.Solid := ⟨by decide, by decide, by decide⟩

theorem solid_concatSorted : concatSorted.Solid := ⟨by decide, by decide, by decide⟩

theorem solid_chainConcatUniq : chainConcatUniq.Solid := ⟨by decide, by decide, by decide⟩

/-- A number is written with digits, and a sign before them. -/
theorem mem_toString {limit : Int} {c : Char} (h : c ∈ (toString limit).toList) :
    c.isDigit = true ∨ c = '-' := by
  cases limit with
  | ofNat n => exact .inl (Number.isDigit_toString n c h)
  | negSucc n =>
    rw [show toString (Int.negSucc n) = "-" ++ toString (n + 1) from rfl, String.toList_append] at h
    rcases mem_append.1 h with h | h
    · exact .inr (mem_singleton.1 h)
    · exact .inl (Number.isDigit_toString (n + 1) c h)

theorem solid_concatSample (limit : Int) : (concatSample limit).Solid := by
  have hlimit : '\x7b' ∉ (toString limit).toList :=
    fun hm => absurd (mem_toString hm) (by decide)
  refine ⟨rfl, ?_, solid_concatUniq.finish⟩
  unfold concatSample
  rw [Slot.areSolid_text (by decide), Slot.areSolid, Slot.areSolid_text (by decide), Slot.areSolid,
    Slot.areSolid_text (by decide), Slot.areSolid, Slot.areSolid_text (by decide),
    Slot.areSolid_text hlimit]
  decide

end Wording

/-! ### Holes of string constants -/

/-- A part of a text as it stands in a string constant. -/
def escapePart : Part → List Part
  | .char c => (Awk.escapeChar c).map .char
  | p => [p]

theorem escapeChar_of_isHolePart {c : Char} (h : isHolePart c = true) : Awk.escapeChar c = [c] := by
  have hne : ∀ {x}, isHolePart x = false → c ≠ x := by
    rintro x hx rfl
    rw [h] at hx
    cases hx
  rw [Awk.escapeChar, if_neg (hne (by decide)), if_neg (hne (by decide)), if_neg (hne (by decide)),
    if_neg (hne (by decide)), if_neg (hne (by decide))]

/-- Characters of holes at the head of an escaped text stand at the head of the text. -/
theorem exists_of_escaped {w : List Char} (hw : ∀ c ∈ w, isHolePart c = true) {cs r : List Char}
    (he : cs.flatMap Awk.escapeChar = w ++ r) : ∃ rest, cs = w ++ rest := by
  induction w generalizing cs with
  | nil => exact ⟨cs, rfl⟩
  | cons x w ih =>
    obtain ⟨hx, hw⟩ := forall_mem_cons.1 hw
    cases cs with
    | nil => cases he
    | cons c cs =>
      rw [flatMap_cons] at he
      rcases Awk.escapeChar_spells c with ⟨hc, -⟩ | ⟨d, hc, -⟩
      · rw [hc] at he
        injection he with hcx he
        obtain ⟨rest, rfl⟩ := ih hw he
        exact ⟨rest, by rw [hcx]; rfl⟩
      · rw [hc] at he
        injection he with hcx he
        rw [← hcx] at hx
        exact absurd hx (by decide)

/-- A string constant has the holes of the text that it stands for. -/
theorem parts_escaped (cs : List Char) :
    parts (cs.flatMap Awk.escapeChar) = (parts cs).flatMap escapePart := by
  induction cs using parts_induction with
  | nil => rw [flatMap_nil, parts]; rfl
  | @hole h p rest hh ih =>
    have hself : h.flatMap Awk.escapeChar = h := by
      have heach : ∀ c ∈ h, Awk.escapeChar c = [c] :=
        fun c hc => escapeChar_of_isHolePart (hh.isHolePart c hc)
      exact (flatMap_congr heach).trans (flatMap_singleton' h)
    have hp : escapePart p = [p] := by cases hh <;> rfl
    rw [flatMap_append, hself, parts_hole hh, parts_hole hh, ih, flatMap_cons, hp]
    rfl
  | @char c cs hn ih =>
    rw [parts_char hn, flatMap_cons, flatMap_cons, ← ih]
    rcases Awk.escapeChar_spells c with ⟨hc, -⟩ | ⟨d, hc, -, hd⟩
    · have hn' : Holeless (c :: cs.flatMap Awk.escapeChar) := by
        intro h p rest hh he
        have he' : (c :: cs).flatMap Awk.escapeChar = h ++ rest := by
          rw [flatMap_cons, hc]
          exact he
        obtain ⟨rest', hrest⟩ := exists_of_escaped hh.isHolePart he'
        exact hn h p rest' hh hrest
      rw [escapePart, hc]
      exact parts_char hn'
    · have hbrace : d ≠ '\x7b' := by
        rintro rfl
        cases hd
      rw [escapePart, hc]
      exact (parts_char (holeless_cons (by decide) _)).trans
        (congrArg _ (parts_char (holeless_cons hbrace _)))

/-- Where no hole of a delimiter is filled in, its string constant stays as it is. -/
theorem expand_stringText {d name : String} {args : List String}
    (h : ∀ p ∈ parts d.toList, p.isOpen args.length = false) :
    expand (stringText d) name args = stringText d := by
  refine expand_of_not_isOpen fun p hp => ?_
  have hquote : isHolePart '"' = false := by decide
  have hcut : parts (stringText d).toList
      = .char '"' :: ((parts d.toList).flatMap escapePart ++ [.char '"']) := by
    unfold stringText
    rw [String.toList_ofList, cons_append, parts_char (holeless_cons (by decide) _),
      parts_break hquote, parts_escaped, parts]
  rw [hcut, mem_cons, mem_append, mem_singleton, mem_flatMap] at hp
  rcases hp with rfl | ⟨q, hq, hp⟩ | rfl
  · rfl
  · cases q with
    | char c =>
      obtain ⟨e, -, rfl⟩ := mem_map.1 hp
      rfl
    | name | argument index spelling => exact mem_singleton.1 hp ▸ h _ hq
  · rfl

/-! ### Statements -/

/-- The statements of an accumulator over a value have a wording, with a given text at the place of
    the delimiter. -/
structure Wording.Says (w : Wording) (f : Fold) (value delimiter : String) : Prop where
  init : f.initText = Slot.fillAll f.accumulator.name value delimiter w.init
  update : f.updateText = Slot.fillAll f.accumulator.name value delimiter w.update
  finish : f.finishText? = w.finish.map (Slot.fillAll f.accumulator.name value delimiter)

/-- What a call gives for its delimiter. -/
inductive Delimits (d : String) : List Expr → Prop
  | given : Delimits d [.string d]
  | usual (hd : d = ",") : Delimits d []

/-- A call that joins values with a delimiter, and the wording of its statements. -/
inductive Joins (value : Expr) (d : String) : Aggregate → List Expr → Wording → Prop
  | concat {ds} (hd : Delimits d ds) : Joins value d .concat (value :: ds) .concat
  | concatUniq {ds} (hd : Delimits d ds) : Joins value d .concatUniq (value :: ds) .concatUniq
  | concatSorted {ds} (hd : Delimits d ds) :
      Joins value d .concatSorted (value :: ds) .concatSorted
  | chainConcatUniq {ds} (hd : Delimits d ds) :
      Joins value d .chainConcatUniq (value :: ds) .chainConcatUniq
  | concatSample {ds} (limit : Int) (hd : Delimits d ds) :
      Joins value d .concatSample (value :: .int limit :: ds) (.concatSample limit)

section

variable {value : Expr} {d : String} {a : Aggregate} {args : List Expr} {w : Wording}

theorem Delimits.delimited_eq {ds : List Expr} (h : Delimits d ds) (required : List Expr) :
    Aggregation.delimited a (required ++ ds) required.length
      = pure (required, stringText d) := by
  cases h with
  | given =>
    unfold Aggregation.delimited
    rw [length_append, length_singleton, if_neg (by omega), if_pos rfl,
      List.getLast?_concat, dropLast_concat]
    rfl
  | usual hd =>
    unfold Aggregation.delimited
    rw [append_nil, if_pos rfl, hd]

theorem Joins.solid (h : Joins value d a args w) : w.Solid := by
  cases h with
  | concat => exact Wording.solid_concat
  | concatUniq => exact Wording.solid_concatUniq
  | concatSorted => exact Wording.solid_concatSorted
  | chainConcatUniq => exact Wording.solid_chainConcatUniq
  | concatSample limit => exact Wording.solid_concatSample limit

/-- A call that joins values accumulates them with the templates of its wording. -/
theorem Joins.expand_eq (h : Joins value d a args w) (c : Category) (s : State) :
    (Aggregation.expand c a args).run s
      = (Aggregation.accumulate c a (w.templates (stringText d)) [value]).run s := by
  cases h with
  | concat hd =>
    rw [Wording.templates_concat]
    exact congrArg (StateT.run · s) (congrArg (· >>= _) (hd.delimited_eq [value]))
  | concatUniq hd =>
    rw [Wording.templates_concatUniq]
    exact congrArg (StateT.run · s) (congrArg (· >>= _) (hd.delimited_eq [value]))
  | concatSorted hd =>
    rw [Wording.templates_concatSorted]
    exact congrArg (StateT.run · s) (congrArg (· >>= _) (hd.delimited_eq [value]))
  | chainConcatUniq hd =>
    rw [Wording.templates_chainConcatUniq]
    exact congrArg (StateT.run · s) (congrArg (· >>= _) (hd.delimited_eq [value]))
  | concatSample limit hd =>
    rw [Wording.templates_concatSample]
    exact congrArg (StateT.run · s) (congrArg (· >>= _) (hd.delimited_eq [value, .int limit]))

/-- The statements that a wording's templates become. The constant is filled in on its own. -/
theorem Wording.Solid.says (hw : w.Solid) (acc : Awk.Accumulator) (value : Expr) (d : String)
    (hinit : acc.init = (w.templates (stringText d)).init)
    (hupdate : acc.update = (w.templates (stringText d)).update)
    (hfinish : acc.finish = (w.templates (stringText d)).finish) :
    w.Says ⟨acc, [value]⟩ value.text (expand (stringText d) acc.name [value.text]) := by
  have hl : (stringText d).toList = '"' :: d.toList.flatMap Awk.escapeChar ++ ['"'] := by
    unfold stringText
    exact String.toList_ofList
  have fill : ∀ {slots}, Slot.areSolid slots = true →
      expand (Slot.fillAll self arg0 (stringText d) slots) acc.name
          [value.text]
        = Slot.fillAll acc.name value.text (expand (stringText d) acc.name [value.text]) slots :=
    fun hs => Slot.expand_fillAll hl hs acc.name [value.text]
  refine ⟨?_, ?_, ?_⟩
  · rw [Fold.initText, Fold.expand, hinit]
    exact fill hw.init
  · rw [Fold.updateText, Fold.expand, hupdate]
    exact fill hw.update
  · rw [Fold.finishText?, hfinish, Wording.templates, Option.map_map]
    exact Option.map_congr fun slots hs => fill (hw.finish slots hs)

/-- The statements of a call that joins values are its wording, with the accumulator, the value and
    the string constant of the delimiter in their places; only holes that the delimiter spells are
    filled in before. -/
theorem delimiters_in_place (h : Joins value d a args w) (c : Category) (s : State) :
    ∃ acc s', (Aggregation.expand c a args).run s = .ok (.aggregate acc [value], s') ∧
      acc.function = a ∧ acc.category = c ∧
      w.Says ⟨acc, [value]⟩ value.text (expand (Awk.stringText d) acc.name [value.text]) ∧
      ((∀ p ∈ parts d.toList, p.isOpen 1 = false) →
        w.Says ⟨acc, [value]⟩ value.text (Awk.stringText d)) := by
  obtain ⟨name, s', hr⟩ : ∃ name s',
      (Aggregation.accumulate c a (w.templates (Awk.stringText d)) [value]).run s
        = .ok (.aggregate ⟨name, a, c, (w.templates (Awk.stringText d)).init,
            (w.templates (Awk.stringText d)).update, (w.templates (Awk.stringText d)).finish⟩
            [value], s') := ⟨_, _, rfl⟩
  have hsays := h.solid.says ⟨name, a, c, _, _, _⟩ value d rfl rfl rfl
  refine ⟨_, s', (h.expand_eq c s).trans hr, rfl, rfl, hsays, fun hopen => ?_⟩
  have hkeep : expand (Awk.stringText d) name [value.text] = Awk.stringText d :=
    expand_stringText hopen
  rwa [hkeep] at hsays

end

section

open GroupProgram (keyAndNumber)

/-- Braces and a hole for a second argument in a delimiter stand as they are. -/
theorem delimiters_in_place_braces :
    (∀ p ∈ parts "\x7bva\x7d\n\x7barg1\x7d".toList, p.isOpen 1 = false) ∧
      ∃ acc s', (Aggregation.expand .group .concatSorted
            [.field "b" 2 .int, .string "\x7bva\x7d\n\x7barg1\x7d"]).run (.start keyAndNumber)
          = .ok (.aggregate acc [.field "b" 2 .int], s') ∧
        Wording.concatSorted.Says ⟨acc, [.field "b" 2 .int]⟩ "$2"
          "\"\x7bva\x7d\\n\x7barg1\x7d\"" := by
  have hopen : ∀ p ∈ parts "\x7bva\x7d\n\x7barg1\x7d".toList, p.isOpen 1 = false := by
    decide +kernel
  obtain ⟨acc, s', hr, -, -, -, hsays⟩ := delimiters_in_place (.concatSorted .given) .group
    (.start keyAndNumber)
  exact ⟨hopen, acc, s', hr, hsays hopen⟩

/-- A delimiter that spells the hole for the accumulator becomes its name. -/
theorem delimiter_hole_filled_in :
    ∃ acc s', (Aggregation.expand .group .concat
          [.field "b" 2 .int, .string "\x7bvar\x7d"]).run (.start keyAndNumber)
        = .ok (.aggregate acc [.field "b" 2 .int], s') ∧
      Fold.updateText ⟨acc, [.field "b" 2 .int]⟩
        = "__grp_0 = (__grp_0==\"\")?($2):(__grp_0 \"__grp_0\" $2);" ∧
      ¬ Wording.concat.Says ⟨acc, [.field "b" 2 .int]⟩ "$2" (Awk.stringText "\x7bvar\x7d") := by
  refine ⟨_, _, rfl, by decide +kernel, fun h => ?_⟩
  exact absurd h.update (by decide +kernel)

end

end RowAwk.Compile
