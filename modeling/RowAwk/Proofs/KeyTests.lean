import RowAwk.Proofs.GroupLines
import RowAwk.Proofs.Numbering
import RowAwk.Proofs.Upkeep
import RowAwk.Proofs.Validity

/-!
The keys of grouping programs.

Rows are grouped by the texts that the statements of the key are lowered to. Each new text gets the
next number, and with it a variable for the group and one for the row; a text that was there before
keeps its number. Lowering names other things only, so the two variables of a key have one number.

    key         a; x = b; y = a; abs(b)
    texts       $1    $2         (($2 < 0)?-($2):$2)
    group       __key0       __key1       __key2
    row         __row_key0   __row_key1   __row_key2
    outputs     x  reads  __key1,   y  reads  __key0

All variables of rows are set before they are compared, and those of the group are taken over on the
first row and after each group. A key without statements gives no variables, and nothing to compare.
-/

open List

namespace RowAwk.Compile

open Awk (Block Category Expr Fold Head Key Line)
open Syntax (Literal Stmt)

/-! ### Lowering names no keys -/

section

variable {stem : String} {texts : List String}

/-- What is lowered for the rows has names for the library only. -/
theorem closed_lists (hstem : stem ∉ libraryStems) :
    Closed Literal.Spelt (fun s => s.namer.Lists stem texts) fun _ _ => True := by
  refine closed_kept Literal.spelt_string Literal.spelt_digit (fun h => h)
    (fun s other key ho h => h.nameFor_other other key ?_) fun _ _ _ h => h
  rintro rfl
  exact hstem ho

end

/-! ### Keys of a draft -/

namespace GroupProgram

/-- The variable for a key of the group. -/
def keyVar (i : Nat) : String := "__key" ++ toString i

/-- The variable for a key of the row. -/
def rowKeyVar (i : Nat) : String := "__row_key" ++ toString i

/-- Keys with these values, numbered in order. -/
def numbered (values : List Expr) : List Key :=
  values.mapIdx fun i value => ⟨keyVar i, rowKeyVar i, value⟩

theorem keyVar_inj {i j : Nat} (h : keyVar i = keyVar j) : i = j :=
  (stem_number_inj (by decide) (by decide) h).2

theorem map_numbered {α : Type} (values : List Expr) (f : String → String → α) :
    (numbered values).map (fun k => f k.name k.rowName)
      = (List.range values.length).map fun i => f (keyVar i) (rowKeyVar i) := by
  induction values using List.reverseRecOn with
  | nil => rfl
  | append_singleton values value ih =>
    rw [numbered, mapIdx_concat, map_append, length_append, length_singleton,
      range_succ, map_append, ← ih]
    rfl

theorem nodup_numbered (values : List Expr) : ((numbered values).map Key.name).Nodup := by
  have hnames := map_numbered values fun name _ => name
  rw [show Key.name = fun k : Key => k.name from rfl, hnames]
  exact nodup_range.map fun i j h => keyVar_inj h

theorem exists_numbered_iff {values : List Expr} {name : String} :
    (∃ k ∈ numbered values, k.name = name) ↔ ∃ i < values.length, keyVar i = name := by
  have hnames := map_numbered values fun name _ => name
  rw [← mem_map (f := fun k : Key => k.name), hnames]
  simp

namespace Draft

variable {d d' : Draft} {outputAll : Bool} {stmt : Stmt} {texts : List String}

/-- Grouping by the key with a number adds it if it is the next one. -/
theorem keys_groupBy_numbered {values : List Expr} (h : d.keys = numbered values) {i : Nat}
    (hi : i ≤ values.length) (value : Expr) :
    (d.groupBy (keyVar i) (rowKeyVar i) value).keys
      = numbered (if i = values.length then values ++ [grouped value] else values) := by
  rcases d.keys_groupBy (keyVar i) (rowKeyVar i) value with ⟨hk, k, hm, hname⟩ | ⟨hk, hno⟩
  · rw [hk, h, if_neg]
    obtain ⟨j, hj, heq⟩ := exists_numbered_iff.1 ⟨k, h ▸ hm, hname⟩
    exact keyVar_inj heq ▸ hj.ne
  · have hlast : i = values.length := by
      by_contra hne
      obtain ⟨k, hm, hname⟩ := exists_numbered_iff.2 ⟨i, lt_of_le_of_ne hi hne, rfl⟩
      exact hno k (h ▸ hm) hname
    rw [hk, h, if_pos hlast, numbered, numbered, mapIdx_concat, ← hlast]

/-- A draft whose keys are numbered like their texts. -/
structure Numbered (d : Draft) (texts : List String) : Prop where
  group : d.namer.Lists "__key" texts
  row : d.namer.Lists "__row_key" texts
  keys : ∃ values, d.keys = numbered values ∧ values.length = texts.length

theorem numbered_start (schema : Schema) : (start schema).Numbered [] :=
  ⟨rfl, rfl, [], rfl, rfl⟩

/-- A name is bound to the variable of a key for the outputs. -/
def PrintsAs (d : Draft) (keyName name : String) : Prop :=
  ∃ b, (name, .assign name (.var keyName b)) ∈ d.outScope.bindings

theorem PrintsAs.mono {keyName name : String} (h : d.PrintsAs keyName name)
    (hsub : d.outScope.bindings ⊆ d'.outScope.bindings) : d'.PrintsAs keyName name := by
  obtain ⟨b, hb⟩ := h
  exact ⟨b, hsub hb⟩

/-- One more statement of the key: its text has a number, and if it is printed, then under the name
    of the key with that number. -/
theorem Numbered.addKey (h : d.Numbered texts) (hw : stmt.WellFormed Literal.Spelt)
    (hr : addKey outputAll d stmt = .ok d') :
    ∃ text, d'.Numbered (Namer.withText texts text) ∧
      ∀ name, keyName? outputAll stmt = some name →
        d'.PrintsAs (keyVar (texts.idxOf text)) name := by
  obtain ⟨values, hkeys, hlength⟩ := h.keys
  obtain ⟨value, state, i, j, hk⟩ := addKey_eq_ok hr
  have hwf := wellFormed_stmtExpr hw
  obtain ⟨hgroup, -⟩ :=
    (closed_lists (by decide)).lowerRow hwf d.keyState h.group value state hk.lower
  obtain ⟨hrow, -⟩ := (closed_lists (by decide)).lowerRow hwf d.keyState h.row value state hk.lower
  -- both stems have had the same texts
  obtain ⟨hname, hgroup₁⟩ := hgroup.nameFor value.text
  obtain ⟨hrowName, hrow₂⟩ :=
    (hrow.nameFor_other "__key" value.text (by decide)).nameFor value.text
  have hgroup₂ := hgroup₁.nameFor_other "__row_key" value.text (by decide)
  rw [← hk.namer] at hgroup₂ hrow₂
  obtain rfl : i = texts.idxOf value.text := keyVar_inj (hk.name.symm.trans hname)
  obtain ⟨-, rfl⟩ : "__row_key" = "__row_key" ∧ j = texts.idxOf value.text :=
    stem_number_inj (by decide) (by decide) (hk.rowName.symm.trans hrowName)
  have hle : texts.idxOf value.text ≤ values.length := hlength ▸ idxOf_le_length
  refine ⟨value.text, ⟨hgroup₂, hrow₂, _, hk.keys.trans (keys_groupBy_numbered hkeys hle value), ?_⟩,
    fun name hn => ?_⟩
  · rw [Namer.withText, hlength]
    by_cases ht : value.text ∈ texts
    · rw [if_pos ht, if_neg (idxOf_lt_length_iff.2 ht).ne, hlength]
    · rw [if_neg ht, if_pos (idxOf_eq_length_iff.2 ht), length_append, length_append, hlength]
      rfl
  · have hprints := hk.prints
    rw [hn] at hprints
    cases hprints with
    | named _ ho _ _ => exact ⟨_, Scope.mem_bind_self ho⟩

/-- All statements of the key, one after the other. -/
theorem Numbered.addKeys {stmts : List Stmt} (h : d.Numbered texts)
    (hw : ∀ stmt ∈ stmts, stmt.WellFormed Literal.Spelt)
    (hr : stmts.foldlM (Draft.addKey outputAll) d = .ok d') :
    ∃ texts', d'.Numbered texts' ∧ texts.length ≤ texts'.length ∧
      (texts' = [] ↔ texts = [] ∧ stmts = []) ∧ d.outScope.bindings ⊆ d'.outScope.bindings ∧
      ∀ name ∈ stmts.filterMap (keyName? outputAll), ∃ i < texts'.length,
        d'.PrintsAs (keyVar i) name := by
  induction stmts generalizing d texts with
  | nil =>
    cases hr
    exact ⟨texts, h, Nat.le_refl _, by simp, List.Subset.refl _, nofun⟩
  | cons stmt stmts ih =>
    rw [forall_mem_cons] at hw
    rw [foldlM_cons] at hr
    obtain ⟨d₁, hd₁, hr⟩ := except_bind_eq_ok.1 hr
    obtain ⟨text, h₁, hprints⟩ := h.addKey hw.1 hd₁
    obtain ⟨texts', h', hle, -, hsub, hrest⟩ := ih h₁ hw.2 hr
    have hlt := (Namer.idxOf_lt_withText texts text).trans_le hle
    obtain ⟨_, _, _, _, hk⟩ := addKey_eq_ok hd₁
    refine ⟨texts', h', (Namer.length_le_withText texts text).trans hle, ?_,
      List.Subset.trans hk.outputs.1 hsub, fun name hm => ?_⟩
    · simp [ne_nil_of_length_pos (Nat.zero_lt_of_lt hlt)]
    · obtain ⟨stmt', hm, hname⟩ := mem_filterMap.1 hm
      rcases mem_cons.1 hm with rfl | hm
      · exact ⟨_, hlt, (hprints name hname).mono hsub⟩
      · exact hrest name (mem_filterMap.2 ⟨stmt', hm, hname⟩)

end Draft

/-- The names that the statements of the key are printed under. -/
def printedKeys (key : Option String) (options : Options) : List String :=
  (statements (key.getD "1")).filterMap (keyName? (options.outputAllKeys && key.isSome))

/-- The keys of a draft are numbered, there are some if the key has statements, and those with a
    name are printed. -/
theorem keys_draft {schema : Schema} {key : Option String}
    {aggregates : List (Category × String)} {options : Options} {d : Draft}
    (h : draft schema key aggregates options = .ok d) :
    ∃ values, d.keys = numbered values ∧ (values = [] ↔ parseSource (key.getD "1") = .ok []) ∧
      ∀ name ∈ printedKeys key options, ∃ i < values.length, d.PrintsAs (keyVar i) name := by
  obtain ⟨stmts, hp, h⟩ := except_bind_eq_ok.1 h
  obtain ⟨d₁, hd₁, h⟩ := except_bind_eq_ok.1 h
  obtain ⟨texts, hnumbered, -, hnil, -, hprints⟩ :=
    (Draft.numbered_start schema).addKeys (wellFormed_parseSource hp) hd₁
  -- statements about groups and the stream keep the keys and what is printed
  have hkept : d.keys = d₁.keys ∧ d₁.outScope.bindings ⊆ d.outScope.bindings := by
    let Q (x : Draft) : Prop := x.keys = d₁.keys ∧ d₁.outScope.bindings ⊆ x.outScope.bindings
    refine foldlM_induct (Q := Q) (fun p _ b b' hb hr => ?_) ⟨rfl, List.Subset.refl _⟩ h
    obtain ⟨stmts', -, hr⟩ := except_bind_eq_ok.1 hr
    refine foldlM_induct (Q := Q) (fun stmt _ x x' hx hr => ?_) hb hr
    obtain ⟨name, value, state, ha⟩ := Draft.addStatement_eq_ok hr
    exact ⟨ha.keys.trans hx.1, List.Subset.trans hx.2 ha.outputs.1⟩
  obtain ⟨values, hkeys, hlength⟩ := hnumbered.keys
  refine ⟨values, hkept.1.trans hkeys, ?_, fun name hm => ?_⟩
  · rw [← length_eq_zero_iff, hlength, length_eq_zero_iff, hnil, hp]
    simp
  · rw [printedKeys, statements_eq hp] at hm
    obtain ⟨i, hi, hprinted⟩ := hprints name hm
    exact ⟨i, hlength ▸ hi, hprinted.mono hkept.2⟩

/-! ### What a program does with its keys -/

/-- What is printed under a name reads a variable: it is the variable itself, or else the name,
    which is set to the variable beforehand. -/
def ReadsUnder (names : List String) (computed printed : List Expr) (name var : String) : Prop :=
  ∃ (i : Nat) (value b : Expr), names[i]? = some name ∧ printed[i]? = some value ∧
    (value = .var var b ∨
      value = .var name (.assign name (.var var b)) ∧ .assign name (.var var b) ∈ computed)

/-- The values that are printed of a scope. -/
def printedValues (s : Scope) : List Expr :=
  (Projection.outputs s).map fun b =>
    Projection.printed ((s.bindings.map Prod.snd).flatMap Expr.varNames) b.1 b.2

/-- The variables that are computed for them. -/
def computedStatements (s : Scope) : List Expr :=
  Projection.needed s (s.bindings.map Prod.snd) []

theorem block_eq {s : Scope} {order : List Schema.Order} {p : Projection}
    (h : Projection.of s none order = .ok p) :
    p.block = Projection.computeLine (computedStatements s)
      ++ [.line (.print (printedValues s))] := by
  rw [Projection.of] at h
  split at h
  · cases h
  · cases h
    have hnone : Projection.needed s [] [] = [] := by simp [Projection.needed]
    dsimp only [Option.toList_none]
    rw [hnone]
    rfl

/-- A name that is bound to a variable is printed as the variable, or as itself if others refer to
    it. -/
theorem readsUnder_of_mem {s : Scope} {name var : String} {b : Expr}
    (hm : (name, .assign name (.var var b)) ∈ s.bindings) (hn : Syntax.isHidden name = false) :
    ReadsUnder ((Projection.outputs s).map Prod.fst) (computedStatements s) (printedValues s)
      name var := by
  have hout : (name, .assign name (.var var b)) ∈ Projection.outputs s :=
    mem_filter.2 ⟨hm, by simp [hn]⟩
  obtain ⟨i, hi⟩ := List.getElem?_of_mem hout
  refine ⟨i, Projection.printed ((s.bindings.map Prod.snd).flatMap Expr.varNames) name
    (.assign name (.var var b)), b, by rw [List.getElem?_map, hi]; rfl,
    by rw [printedValues, List.getElem?_map, hi]; rfl, ?_⟩
  rw [Projection.printed]
  split
  · rename_i hreferred
    refine .inr ⟨rfl, mem_map.2 ⟨_, mem_filter.2 ⟨hm, ?_⟩, rfl⟩⟩
    simp [isInternal_of_shown hn, contains_iff_mem.1 hreferred]
  · exact .inl rfl

/-- What prints a group: accumulators are finished, variables computed, and values printed. -/
def flushBlock (finished : List Fold) (computed printed : List Expr) : Block Line Head :=
  finished.map (fun f => .line (.finish f))
    ++ (Projection.computeLine computed ++ [.line (.print printed)])

/-- A program groups rows by keys with some values, and prints each group by a flush. -/
structure GroupsBy (key : Option String) (options : Options) (c : Compiled) (values : List Expr)
    (finished : List Fold) (computed printed : List Expr) : Prop where
  /-- Something is compared exactly if the key has statements. -/
  compared : values = [] ↔ parseSource (key.getD "1") = .ok []
  distinct : ((numbered values).map Key.name).Nodup
  test : (Head.keyChanged (numbered values)).text
    = "if(" ++ " || ".intercalate ((List.range values.length).map fun i =>
        keyVar i ++ "!=" ++ rowKeyVar i) ++ ")"
  taken : (numbered values).map (fun k => (Line.takeOver k).text)
    = (List.range values.length).map fun i => keyVar i ++ " = " ++ rowKeyVar i
  /-- The variables of the row are set at its head, before they are compared. They are taken over on
      the first row, and on a row with other keys once the group before it has been printed. -/
  row : ∃ (prepared : List Expr) (resets updates : List Fold),
    c.program.row = prepared.map (fun s => .line (.prepare s))
      ++ (numbered values).map (fun k => .line (.rowKey k))
      ++ [.head .firstRow ((numbered values).map fun k => .line (.takeOver k)),
        .head .laterRow [.head (.keyChanged (numbered values))
          ((if options.exposeGroups then [] else flushBlock finished computed printed)
            ++ (numbered values).map (fun k => .line (.takeOver k))
            ++ resets.map fun f => .line (.init f))]]
      ++ updates.map (fun f => .line (.update f))
      ++ if options.exposeGroups then flushBlock finished computed printed else []
  finish : c.program.finish = if options.exposeGroups then []
    else [.head .anyRow (flushBlock finished computed printed)]
  /-- What is printed for a statement of the key is the variable of one of the keys. -/
  outputs : ∀ name ∈ printedKeys key options, Syntax.isHidden name = false →
    ∃ i < values.length, ReadsUnder c.schema.fieldNames computed printed name (keyVar i)

/-- The keys of a grouping program are complete, except that a key without statements compares
    nothing: all keys are compared, their variables differ, are set on every row and taken over by
    every group, and the names that keys are printed under read them. -/
theorem keys_compared_and_taken_over {schema : Schema} {key : Option String}
    {aggregates : List (Category × String)} {options : Options} {c : Compiled}
    (hc : compile schema key aggregates options = .ok c) :
    ∃ values finished computed printed,
      GroupsBy key options c values finished computed printed := by
  obtain ⟨d, projection, derived, hd, hp, hderived, rfl⟩ := compile_eq_ok hc
  obtain ⟨values, hkeys, hcompared, houtputs⟩ := keys_draft hd
  have hflush : d.flushLines projection.block
      = flushBlock (d.folds.filter fun f => f.accumulator.finish.isSome)
        (computedStatements d.outScope) (printedValues d.outScope) := by
    rw [Draft.flushLines, block_eq hp]
    rfl
  refine ⟨values, d.folds.filter fun f => f.accumulator.finish.isSome,
    computedStatements d.outScope, printedValues d.outScope, hcompared, nodup_numbered values, ?_,
    ?_, ⟨d.helpers, d.groupFolds, d.folds, ?_⟩, ?_, fun name hm hn => ?_⟩
  · rw [Head.text, ← map_numbered values fun name rowName => name ++ "!=" ++ rowName]
    rfl
  · rw [← map_numbered values fun name rowName => name ++ " = " ++ rowName]
    rfl
  · rw [Draft.program_row, Draft.arriveLines, Draft.switchLines, Draft.changeLines,
      Draft.takeOverLines, hflush, hkeys]
    rfl
  · rw [← hflush]
    rfl
  · obtain ⟨i, hi, b, hb⟩ := houtputs name hm
    refine ⟨i, hi, ?_⟩
    rw [(Projection.derivedFrom hp hderived).1]
    exact readsUnder_of_mem hb hn

/-- A column that is a key twice, a name that other outputs refer to, and a computed key. -/
theorem keys_compared_and_taken_over_keyAndNumber :
    ∃ c values finished computed printed,
      compile keyAndNumber (some "a; x = b; y = a; z = abs(b)")
        [(.group, "n = cnt(); m = x + n")] {} = .ok c ∧
      c.schema.fieldNames = ["x", "y", "z", "n", "m"] ∧
      printedKeys (some "a; x = b; y = a; z = abs(b)") {} = ["x", "y", "z"] ∧
      GroupsBy (some "a; x = b; y = a; z = abs(b)") {} c values finished computed printed := by
  simp only [exists_and_left]
  exact exists_ok_of (by decide +kernel) fun c hc =>
    ⟨of_ok hc (by decide +kernel), by decide +kernel, keys_compared_and_taken_over hc⟩

/-- A key without statements leaves the test empty, which is no program of awk. -/
theorem empty_key_compares_nothing :
    ∃ c, compile keyAndNumber (some "") [(.group, "n = cnt()")] {} = .ok c ∧
      c.program.written.text .compact
        = "BEGIN\x7bOFS=\"\\t\";__grp_0 = 0;\x7d\x7bif(NR==1)\x7b\x7delse\x7bif()\x7b"
          ++ "print(__grp_0);__grp_0 = 0;\x7d\x7d__grp_0 += 1;\x7dEND\x7bif(NR!=0)\x7b"
          ++ "print(__grp_0);\x7d\x7d" := by
  decide +kernel

end GroupProgram

end RowAwk.Compile
