import RowAwk.Awk.Program

/-!
Both layouts of a program say the same.

The pretty layout adds line breaks and blanks in front of lines, and nothing else. So its lines,
without the blanks in front and put together, are the compact layout:

    pretty      if(x)⏎            lines       if(x)          compact   if(x){y = 1;}
                {⏎                            {
                    y = 1;⏎                   y = 1;
                }                             }

This needs texts that stand on one line: a line break inside a text would be cut there, and its own
blanks in front would be lost with the margin.
-/

open List

namespace RowAwk.Awk

/-! ### Lines put together -/

/-- The lines of a text put together, each without the blanks in front of it. -/
def onOneLine (text : String) : String :=
  String.ofList ((text.toList.splitOn '\n').flatMap (List.dropWhile (· == ' ')))

/-- A text without line breaks and without blanks in front. -/
structure IsLine (text : String) : Prop where
  unbroken : '\n' ∉ text.toList
  flush : text.toList.head? ≠ some ' '

@[simp] theorem onOneLine_empty : onOneLine "" = "" := rfl

theorem onOneLine_break (before after : String) :
    onOneLine (before ++ "\n" ++ after) = onOneLine before ++ onOneLine after := by
  have hsplit : (before ++ "\n" ++ after).toList.splitOn '\n'
      = before.toList.splitOn '\n' ++ after.toList.splitOn '\n' := by
    rw [String.toList_append, String.toList_append, append_assoc]
    exact splitOn_append_cons_of_beq _ _ (by decide)
  rw [onOneLine, hsplit, flatMap_append, String.ofList_append]
  rfl

theorem onOneLine_ended (text : String) : onOneLine (text ++ "\n") = onOneLine text := by
  have hbreak := onOneLine_break text ""
  rwa [onOneLine_empty, String.append_empty, String.append_empty] at hbreak

/-- The margin in front of a line is left out. -/
theorem onOneLine_margin (layout : Layout) (depth : Nat) {text : String} (h : IsLine text) :
    onOneLine (layout.margin depth ++ text) = text := by
  have hmem : '\n' ∉ (layout.margin depth ++ text).toList := by
    simp [Layout.margin, mem_replicate, h.unbroken]
  have hdrop : (layout.margin depth ++ text).toList.dropWhile (· == ' ') = text.toList := by
    rw [Layout.margin, String.toList_append, String.toList_ofList]
    generalize layout.indent * depth = k
    induction k with
    | zero =>
      rw [replicate_zero, nil_append]
      have hflush := h.flush
      cases htext : text.toList with
      | nil => rfl
      | cons c cs => exact dropWhile_cons_of_neg (by simpa [htext] using hflush)
    | succ k ih => rw [replicate_succ, cons_append, dropWhile_cons_of_pos rfl, ih]
  rw [onOneLine, splitOn_eq_singleton hmem, flatMap_singleton, hdrop, String.ofList_toList]

theorem onOneLine_line {text : String} (h : IsLine text) : onOneLine text = text := by
  have hmargin := onOneLine_margin .compact 0 h
  rwa [show Layout.compact.margin 0 = "" from rfl, String.empty_append] at hmargin

theorem onOneLine_intercalate (texts : List String) :
    onOneLine ("\n".intercalate texts) = "".intercalate (texts.map onOneLine) := by
  induction texts with
  | nil => rfl
  | cons text texts ih =>
    cases texts with
    | nil => simp
    | cons next texts =>
      rw [String.intercalate_cons_cons, onOneLine_break, ih]
      simp [String.intercalate_cons_cons]

/-! ### Blocks -/

/-- The texts of a line, or of a head and all lines under it, stand on one line each. -/
inductive Item.Lined : Item String String → Prop
  | line {l} : IsLine l → Lined (.line l)
  | block {items} : (∀ i ∈ items, Lined i) → Lined (.block items)
  | head {h items} : IsLine h → (∀ i ∈ items, Lined i) → Lined (.head h items)

@[simp] theorem Layout.margin_compact (depth : Nat) : Layout.compact.margin depth = "" := by
  simp [margin, compact]

theorem IsLine.append {a b : String} (ha : IsLine a) (hb : IsLine b) : IsLine (a ++ b) := by
  refine ⟨by simp [ha.unbroken, hb.unbroken], ?_⟩
  rw [String.toList_append, List.head?_append]
  cases h : a.toList.head? with
  | none => exact hb.flush
  | some c => simpa [h] using ha.flush

theorem isLine_open : IsLine "\x7b" := ⟨by decide, by decide⟩

theorem isLine_close : IsLine "\x7d" := ⟨by decide, by decide⟩

theorem isLine_terminated {l : String} (h : IsLine l) : IsLine (terminated l) := by
  rw [terminated]
  split
  · exact h
  · exact h.append ⟨by decide, by decide⟩

/-- Braces around texts: the breaks go, whether or not there is something inside. -/
theorem onOneLine_braces (indent depth depth' : Nat) (texts : List String) :
    onOneLine ((Layout.pretty indent).braces depth texts)
      = Layout.compact.braces depth' (texts.map onOneLine) := by
  have hopen := onOneLine_margin (.pretty indent) depth isLine_open
  have hclose := onOneLine_margin (.pretty indent) depth isLine_close
  have hinner := onOneLine_intercalate texts
  generalize hi : "\n".intercalate texts = inner at hinner
  have hcompact : Layout.compact.braces depth' (texts.map onOneLine)
      = "\x7b" ++ onOneLine inner ++ "\x7d" := by
    rw [Layout.braces, show Layout.compact.newline = "" from rfl, ← hinner]
    split
    · rename_i h
      rw [String.isEmpty_iff.1 h]
      simp
    · simp
  rw [hcompact, Layout.braces, show (Layout.pretty indent).newline = "\n" from rfl, hi]
  split
  · rename_i h
    rw [String.isEmpty_iff.1 h, String.append_empty, String.append_assoc, onOneLine_break, hopen,
      hclose]
    rfl
  · rw [← String.append_assoc, String.append_assoc, onOneLine_break, hclose, onOneLine_break, hopen]

namespace Item

theorem onOneLine_layOutAll {indent depth depth' : Nat} {items : List (Item String String)}
    (h : ∀ i ∈ items,
      (i.layOut? (.pretty indent) depth).map onOneLine = i.layOut? .compact depth') :
    (layOutAll (.pretty indent) depth items).map onOneLine = layOutAll .compact depth' items := by
  induction items with
  | nil => rfl
  | cons i items ih =>
    obtain ⟨hi, hitems⟩ := forall_mem_cons.1 h
    rw [layOutAll, layOutAll, map_append, ih hitems, ← hi]
    cases i.layOut? (.pretty indent) depth <;> rfl

/-- An item is left out by both layouts or by none, and its lines put together are its compact
    form, at whatever depth either stands. -/
theorem Lined.onOneLine_layOut? {i : Item String String} (h : i.Lined) (indent depth depth' : Nat) :
    (i.layOut? (.pretty indent) depth).map onOneLine = i.layOut? .compact depth' := by
  induction h generalizing depth depth' with
  | @line l hl =>
    rw [layOut?, layOut?]
    split
    · rfl
    · rw [Option.map_some, onOneLine_margin _ _ (isLine_terminated hl), Layout.margin_compact,
        String.empty_append]
  | block _ ih =>
    have hitems := onOneLine_layOutAll fun i hi => ih i hi (depth + 1) (depth' + 1)
    rw [layOut?, layOut?, Option.map_some, onOneLine_braces, hitems]
  | @head h items hh _ ih =>
    have hitems := onOneLine_layOutAll fun i hi => ih i hi (depth + 1) (depth' + 1)
    rw [layOut?, layOut?, Option.map_some, show (Layout.pretty indent).newline = "\n" from rfl,
      onOneLine_break, onOneLine_margin _ _ hh, onOneLine_braces indent depth depth', hitems]
    simp [show Layout.compact.newline = "" from rfl]

end Item

namespace Block

variable {block : Block String String}

theorem onOneLine_text (h : ∀ i ∈ block, i.Lined) (indent : Nat) :
    onOneLine (block.text (.pretty indent)) = block.text .compact := by
  have hitems := Item.onOneLine_layOutAll fun i hi => (h i hi).onOneLine_layOut? indent 0 0
  rw [text, text, ← hitems]
  exact onOneLine_intercalate _

theorem onOneLine_bracedText (h : ∀ i ∈ block, i.Lined) (indent : Nat) :
    onOneLine (block.bracedText (.pretty indent)) = block.bracedText .compact := by
  have hitems := Item.onOneLine_layOutAll fun i hi => (h i hi).onOneLine_layOut? indent 1 1
  rw [bracedText, bracedText, ← hitems]
  exact onOneLine_braces indent 0 0 _

/-- A keyword in front stands on the line of the opening brace. -/
theorem onOneLine_keyword (h : ∀ i ∈ block, i.Lined) (indent : Nat) {keyword : String}
    (hk : IsLine keyword) :
    onOneLine (keyword ++ block.bracedText (.pretty indent))
      = keyword ++ block.bracedText .compact := by
  have hbraced := onOneLine_bracedText h indent
  obtain ⟨rest, hrest⟩ : ∃ rest, block.bracedText (.pretty indent) = "\x7b" ++ "\n" ++ rest := by
    have hmargin : (Layout.pretty indent).margin 0 = "" := rfl
    simp only [bracedText, Layout.braces, hmargin, String.empty_append, String.append_assoc]
    exact ⟨_, rfl⟩
  rw [hrest] at hbraced ⊢
  rw [← hbraced, ← String.append_assoc, ← String.append_assoc, onOneLine_break, onOneLine_break,
    onOneLine_line (hk.append isLine_open), onOneLine_line isLine_open, String.append_assoc]

end Block

/-! ### Programs -/

namespace Program

/-- The functions in front of a program. -/
def preamble (p : Program String String) : String :=
  String.join (p.routines.map fun r => r.source ++ "\n")

/-- What a program does before, on and after the rows, each part under its keyword. -/
def parts (layout : Layout) (p : Program String String) : List String :=
  [sectionText layout "BEGIN" p.start, p.row.bracedText layout ++ layout.newline,
    sectionText layout "END" p.finish]

theorem text_eq_preamble (layout : Layout) (p : Program String String) :
    p.text layout = p.preamble ++ String.join (p.parts layout) := by
  simp [text, preamble, parts, String.append_assoc]

theorem onOneLine_sectionText {block : Block String String} (h : ∀ i ∈ block, i.Lined)
    (indent : Nat) {keyword : String} (hk : IsLine keyword) :
    onOneLine (sectionText (.pretty indent) keyword block) = sectionText .compact keyword block := by
  rw [sectionText, sectionText]
  split
  · rfl
  · rw [show (Layout.pretty indent).newline = "\n" from rfl, onOneLine_ended,
      Block.onOneLine_keyword h indent hk, show Layout.compact.newline = "" from rfl,
      String.append_empty]

theorem onOneLine_parts {p : Program String String}
    (h : ∀ i ∈ p.start ++ p.row ++ p.finish, i.Lined) (indent : Nat) :
    (p.parts (.pretty indent)).map onOneLine = p.parts .compact := by
  have hstart : ∀ i ∈ p.start, i.Lined := fun i hi => h i (by simp [hi])
  have hrow : ∀ i ∈ p.row, i.Lined := fun i hi => h i (by simp [hi])
  have hfinish : ∀ i ∈ p.finish, i.Lined := fun i hi => h i (by simp [hi])
  rw [parts, parts, map_cons, map_cons, map_singleton,
    onOneLine_sectionText hstart indent ⟨by decide, by decide⟩,
    onOneLine_sectionText hfinish indent ⟨by decide, by decide⟩,
    show (Layout.pretty indent).newline = "\n" from rfl, onOneLine_ended,
    Block.onOneLine_bracedText hrow, show Layout.compact.newline = "" from rfl, String.append_empty]

end Program

/-- Both layouts of a block, with or without braces, and of each part of a program are the same but
    for line breaks and blanks in front of lines. The functions in front of a program are not laid
    out. -/
theorem layouts_agree (indent : Nat) :
    (∀ block : Block String String, (∀ i ∈ block, i.Lined) →
      onOneLine (block.text (.pretty indent)) = block.text .compact ∧
        onOneLine (block.bracedText (.pretty indent)) = block.bracedText .compact) ∧
    ∀ p : Program String String, (∀ i ∈ p.start ++ p.row ++ p.finish, i.Lined) →
      p.text (.pretty indent) = p.preamble ++ String.join (p.parts (.pretty indent)) ∧
        p.text .compact = p.preamble ++ String.join (p.parts .compact) ∧
        (p.parts (.pretty indent)).map onOneLine = p.parts .compact := by
  refine ⟨fun block h => ?_, fun p h => ?_⟩
  · exact ⟨block.onOneLine_text h indent, block.onOneLine_bracedText h indent⟩
  · exact ⟨p.text_eq_preamble _, p.text_eq_preamble _, p.onOneLine_parts h indent⟩

/-- A function in front, an empty line, and an empty block inside a test. -/
def emptyBlockInTest : Program String String where
  routines := [.uniq]
  start := [.line "OFS=\"\\t\""]
  row := [.line "", .head "if(($3 == 157))" [.line "ctr = ($5 / $4)", .block [], .line "print(ctr);"]]
  finish := []

theorem layouts_agree_emptyBlockInTest :
    let p := emptyBlockInTest
    (∀ i ∈ p.start ++ p.row ++ p.finish, i.Lined) ∧
      p.parts (.pretty 2) = ["BEGIN\x7b\n  OFS=\"\\t\";\n\x7d\n",
        "\x7b\n  if(($3 == 157))\n  \x7b\n    ctr = ($5 / $4);\n    \x7b\n    \x7d\n"
          ++ "    print(ctr);\n  \x7d\n\x7d\n", ""] ∧
      p.text (.pretty 2) = p.preamble ++ String.join (p.parts (.pretty 2)) ∧
      p.text .compact = p.preamble ++ String.join (p.parts .compact) ∧
      (p.parts (.pretty 2)).map onOneLine = p.parts .compact := by
  intro p
  have hline : ∀ text ∈ ["OFS=\"\\t\"", "", "if(($3 == 157))", "ctr = ($5 / $4)", "print(ctr);"],
      IsLine text := fun text ht => ⟨by revert text; decide, by revert text; decide⟩
  have hlined : ∀ i ∈ p.start ++ p.row ++ p.finish, i.Lined := by
    simp only [List.forall_mem_cons] at hline
    obtain ⟨hset, hempty, htest, hratio, hprint, -⟩ := hline
    have hbody : ∀ i ∈ [Item.line "ctr = ($5 / $4)", .block [], .line "print(ctr);"],
        Item.Lined i := by
      simp only [List.forall_mem_cons]
      exact ⟨.line hratio, .block nofun, .line hprint, nofun⟩
    simp only [p, emptyBlockInTest, List.append_nil, List.cons_append, List.nil_append,
      List.forall_mem_cons]
    exact ⟨.line hset, .line hempty, .head htest hbody, nofun⟩
  exact ⟨hlined, by decide +kernel, (layouts_agree 2).2 p hlined⟩

end RowAwk.Awk
