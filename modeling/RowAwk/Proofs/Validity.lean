import RowAwk.Proofs.Copies
import RowAwk.Proofs.Failures
import RowAwk.Proofs.Headers

/-!
Descriptions that are valid.

The names of the columns differ, and every entry of the sort order names a column. What describes
the outputs of a program is put together from a scope: its columns are outputs, each under the name
it is bound to, and its sort order names outputs that columns are handed on to. A scope binds a name
once, so such a description is valid, and describing the outputs never fails.

    scope      __key0   a   _held   y   x        names bound once
    columns             a           y   x        some of them, in order
    order                           y            names of columns

So descriptions stay valid however they come about.
-/

namespace RowAwk

namespace Schema

/-- The names of the columns differ, and every entry of the sort order names one of them. -/
structure Valid (s : Schema) : Prop where
  distinct : s.fieldNames.Nodup
  ordered : ∀ o ∈ s.order, o.name ∈ s.fieldNames

variable {s : Schema} {fields : List Field} {order : List Order}

theorem valid_iff : s.Valid ↔ s.fieldNames.Nodup ∧ ∀ o ∈ s.order, o.name ∈ s.fieldNames :=
  ⟨fun h => ⟨h.distinct, h.ordered⟩, fun h => ⟨h.1, h.2⟩⟩

instance (s : Schema) : Decidable s.Valid := decidable_of_iff _ valid_iff.symm

theorem repeatedNames_eq_nil {seen names : List String} :
    repeatedNames seen [] names = [] ↔ names.Nodup ∧ ∀ n ∈ names, n ∉ seen := by
  induction names generalizing seen with
  | nil => simp [repeatedNames]
  | cons n names ih =>
    by_cases hn : n ∈ seen
    · simp [repeatedNames, hn]
    · simp only [repeatedNames, hn, false_and, if_false, ih, List.nodup_cons, List.mem_cons]
      grind

theorem strayEntry?_eq_none :
    strayEntry? fields order = none ↔ ∀ o ∈ order, o.name ∈ fields.map Field.name := by
  unfold strayEntry?
  simp [List.find?_eq_none]

/-- A description can be put together exactly if it is valid. -/
theorem ofFields_eq_ok :
    ofFields fields order = .ok s ↔ s = ⟨fields, order, none, []⟩ ∧ s.Valid := by
  have hvalid : Valid ⟨fields, order, none, []⟩ ↔
      repeatedNames [] [] (fields.map Field.name) = [] ∧ strayEntry? fields order = none := by
    rw [valid_iff, repeatedNames_eq_nil, strayEntry?_eq_none]
    simp [fieldNames]
  constructor
  · intro h
    obtain ⟨rfl, -⟩ := ofFields_ok h
    refine ⟨rfl, hvalid.2 ?_⟩
    rw [ofFields] at h
    split at h
    · rename_i hr
      split at h
      · cases h
      · rename_i hstray
        exact ⟨hr, hstray⟩
    · cases h
  · rintro ⟨rfl, hs⟩
    obtain ⟨hr, hstray⟩ := hvalid.1 hs
    simp [ofFields, hr, hstray]

theorem valid_parse {header : String} (h : parse header = .ok s) : s.Valid := by
  obtain ⟨-, -, -, extras, -, -, -, -, hs, horder, -⟩ := parse_eq_ok.1 h
  have hvalid := (ofFields_eq_ok.1 hs).2
  exact ⟨hvalid.distinct, horder ▸ hvalid.ordered⟩

end Schema

namespace Compile

open Awk (Category Const Expr)
open Schema (Field Order)
open Syntax (Literal Stmt)
open Projection

/-! ### Outputs of a scope -/

namespace Projection

variable {s : Scope} {filter : Option Expr} {order : List Order} {p : Projection}

/-- What is printed of a scope that binds each name once can be described. -/
theorem exists_schema (h : Projection.of s filter order = .ok p) (hs : s.names.Nodup)
    (size : Option Nat) (metadata : Schema.Metadata) :
    p.schema size metadata = .ok ⟨p.fields, p.order, size, metadata⟩ ∧
      Schema.Valid ⟨p.fields, p.order, size, metadata⟩ := by
  obtain ⟨hfields, horder, -⟩ := of_cases h
  have hnodup : (p.fields.map Field.name).Nodup :=
    hfields ▸ hs.sublist (List.filter_sublist.map Prod.fst)
  have hordered : ∀ o ∈ p.order, o.name ∈ p.fields.map Field.name := by
    intro o ho
    rw [horder] at ho
    obtain ⟨i, hi, rfl⟩ := List.getElem_of_mem ho
    have hcarries := (derivedFrom_carriedOrder (outputs s) order).carries
    obtain ⟨b, hb, -⟩ := (hcarries.get (by rwa [hcarries.length_eq]) hi).handed
    rw [hfields]
    exact List.mem_map.2 ⟨_, hb, rfl⟩
  have hok : Schema.ofFields p.fields p.order = .ok ⟨p.fields, p.order, none, []⟩ :=
    Schema.ofFields_eq_ok.2 ⟨rfl, hnodup, hordered⟩
  exact ⟨by simp [Projection.schema, hok], hnodup, hordered⟩

/-- Something is printed of a scope exactly if one of its bindings is an output. -/
theorem exists_of_iff (filter : Option Expr) (order : List Order) :
    (∃ p, Projection.of s filter order = .ok p) ↔ outputs s ≠ [] := by
  by_cases h : outputs s = [] <;> simp [Projection.of, h]

theorem blames_of (s : Scope) (filter : Option Expr) (order : List Order) :
    Blames (Projection.of s filter order) := by
  unfold Projection.of
  dsimp only
  split
  · exact blames_error nofun
  · exact blames_ok _

end Projection

/-- A result that is a program with a valid description, or else not a failure over one. -/
structure Described (x : Except Failure Compiled) : Prop where
  valid : ∀ c, x = .ok c → c.schema.Valid
  blames : Blames x

variable {filter : Option Expr} {order : List Order} {size : Option Nat}
variable {metadata : Schema.Metadata}

/-- So is the result of printing a scope that binds each name once. -/
theorem described_print {s : Scope} (hs : s.names.Nodup)
    (program : Projection → Awk.Program Awk.Line Awk.Head) :
    Described (do
      let projection ← Projection.of s filter order
      let derived ← projection.schema size metadata
      return ⟨program projection, derived⟩) := by
  constructor
  · intro c hc
    obtain ⟨projection, hp, hc⟩ := except_bind_eq_ok.1 hc
    obtain ⟨hschema, hvalid⟩ := exists_schema hp hs size metadata
    rw [hschema] at hc
    cases hc
    exact hvalid
  · refine (blames_of s filter order).bind fun projection hp => ?_
    rw [(exists_schema hp hs size metadata).1]
    exact blames_ok _

theorem exists_print_iff {s : Scope} (hs : s.names.Nodup)
    (program : Projection → Awk.Program Awk.Line Awk.Head) :
    (∃ c : Compiled, (do
      let projection ← Projection.of s filter order
      let derived ← projection.schema size metadata
      return ⟨program projection, derived⟩) = Except.ok c) ↔ outputs s ≠ [] := by
  rw [← exists_of_iff filter order]
  constructor
  · rintro ⟨c, hc⟩
    obtain ⟨projection, hp, -⟩ := except_bind_eq_ok.1 hc
    exact ⟨projection, hp⟩
  · rintro ⟨projection, hp⟩
    obtain ⟨hschema, -⟩ := exists_schema hp hs size metadata
    exact ⟨_, except_bind_eq_ok.2 ⟨projection, hp, except_bind_eq_ok.2 ⟨_, hschema, rfl⟩⟩⟩

/-! ### Row programs -/

namespace RowProgram

variable {schema : Schema} {filters maps : List String}

theorem nodup_lowerAll {filter : Option Expr} {state : State}
    (h : (lowerAll schema filters maps).run (.start schema) = .ok (filter, state)) :
    state.scope.names.Nodup :=
  (rooted_lowerAll h).1.nodup

theorem described_compile (schema : Schema) (filters maps : List String) :
    Described (compile schema filters maps) := by
  constructor
  · intro c hc
    obtain ⟨⟨filter, state⟩, hl, hc⟩ := except_bind_eq_ok.1 hc
    exact (described_print (nodup_lowerAll hl) _).valid c hc
  · refine (blames_lowerAll schema filters maps _).bind fun r hl => ?_
    exact (described_print (nodup_lowerAll hl) _).blames

/-- A row program compiles exactly if its statements do and one of them is printed. -/
theorem exists_compile_iff : (∃ c, compile schema filters maps = .ok c) ↔
    ∃ filter state, (lowerAll schema filters maps).run (.start schema) = .ok (filter, state) ∧
      outputs state.scope ≠ [] := by
  constructor
  · rintro ⟨c, hc⟩
    obtain ⟨⟨filter, state⟩, hl, hc⟩ := except_bind_eq_ok.1 hc
    exact ⟨filter, state, hl, (exists_print_iff (nodup_lowerAll hl) _).1 ⟨c, hc⟩⟩
  · rintro ⟨filter, state, hl, hne⟩
    obtain ⟨c, hc⟩ := (exists_print_iff (nodup_lowerAll hl) _).2 hne
    exact ⟨c, except_bind_eq_ok.2 ⟨_, hl, hc⟩⟩

end RowProgram

/-! ### Grouping programs -/

namespace GroupProgram

variable {schema : Schema} {key : Option String} {aggregates : List (Category × String)}
  {options : Options}

/-- The scope of the outputs of a draft binds each name once: a helper that it has is not taken
    over again, and binding a name of the sources twice fails. -/
theorem nodup_draft {d : Draft} (h : draft schema key aggregates options = .ok d) :
    d.outScope.names.Nodup :=
  draft_induct (Q := fun d _ => d.outScope.names.Nodup) h List.nodup_nil
    (fun _ _ _ _ _ hd hr => by
      obtain ⟨value, state, i, j, hk⟩ := Draft.addKey_eq_ok hr
      exact hk.outputs.2.1 hd)
    fun _ _ _ _ _ _ _ hd hr => by
      obtain ⟨name, value, state, ha⟩ := Draft.addStatement_eq_ok hr
      exact ha.outputs.2.1 hd

theorem described_compile (schema : Schema) (key : Option String)
    (aggregates : List (Category × String)) (options : Options) :
    Described (compile schema key aggregates options) := by
  constructor
  · intro c hc
    obtain ⟨d, hd, hc⟩ := except_bind_eq_ok.1 hc
    exact (described_print (nodup_draft hd) _).valid c hc
  · refine (blames_draft schema key aggregates options).bind fun d hd => ?_
    exact (described_print (nodup_draft hd) _).blames

/-- A grouping program compiles exactly if its statements do and one of them is printed. -/
theorem exists_compile_iff : (∃ c, compile schema key aggregates options = .ok c) ↔
    ∃ d, draft schema key aggregates options = .ok d ∧ outputs d.outScope ≠ [] := by
  constructor
  · rintro ⟨c, hc⟩
    obtain ⟨d, hd, hc⟩ := except_bind_eq_ok.1 hc
    exact ⟨d, hd, (exists_print_iff (nodup_draft hd) _).1 ⟨c, hc⟩⟩
  · rintro ⟨d, hd, hne⟩
    obtain ⟨c, hc⟩ := (exists_print_iff (nodup_draft hd) _).2 hne
    exact ⟨c, except_bind_eq_ok.2 ⟨d, hd, hc⟩⟩

end GroupProgram

/-! ### All descriptions -/

/-- Descriptions that come about by reading headers, putting columns together, setting a size or
    metadata, and compiling. -/
inductive Obtainable : Schema → Prop
  | parsed {header s} : Schema.parse header = .ok s → Obtainable s
  | made {fields order s} : Schema.ofFields fields order = .ok s → Obtainable s
  | sized {s} (size) : Obtainable s → Obtainable { s with size }
  | noted {s} (metadata) : Obtainable s → Obtainable { s with metadata }
  | rows {s filters maps c} : Obtainable s → RowProgram.compile s filters maps = .ok c →
      Obtainable c.schema
  | groups {s key aggregates options c} : Obtainable s →
      GroupProgram.compile s key aggregates options = .ok c → Obtainable c.schema

theorem Obtainable.valid {s : Schema} (h : Obtainable s) : s.Valid := by
  induction h with
  | parsed h => exact Schema.valid_parse h
  | made h => exact (Schema.ofFields_eq_ok.1 h).2
  | sized size _ ih | noted metadata _ ih => exact ⟨ih.distinct, ih.ordered⟩
  | rows _ h _ => exact (RowProgram.described_compile _ _ _).valid _ h
  | groups _ h _ => exact (GroupProgram.described_compile _ _ _ _).valid _ h

/-- No program fails to compile over the description of its outputs: it compiles exactly if its
    statements do and one of them is printed, and then its description is valid. So every
    description that can come about is valid. -/
theorem descriptions_stay_valid :
    (∀ schema filters maps, Described (RowProgram.compile schema filters maps) ∧
      ((∃ c, RowProgram.compile schema filters maps = .ok c) ↔
        ∃ filter state,
          (RowProgram.lowerAll schema filters maps).run (.start schema) = .ok (filter, state) ∧
          outputs state.scope ≠ [])) ∧
    (∀ schema key aggregates options,
      Described (GroupProgram.compile schema key aggregates options) ∧
      ((∃ c, GroupProgram.compile schema key aggregates options = .ok c) ↔
        ∃ d, GroupProgram.draft schema key aggregates options = .ok d ∧
          outputs d.outScope ≠ [])) ∧
    ∀ s, Obtainable s → s.Valid :=
  ⟨fun schema filters maps =>
      ⟨RowProgram.described_compile schema filters maps, RowProgram.exists_compile_iff⟩,
    fun schema key aggregates options =>
      ⟨GroupProgram.described_compile schema key aggregates options,
        GroupProgram.exists_compile_iff⟩,
    fun _ h => h.valid⟩

/-- A header, a row program and a grouping program, one after the other. Both `y` and `b` hand on
    the column that the rows are sorted by. -/
theorem descriptions_stay_valid_chained :
    ∃ s c₁ c₂, Schema.parse "# a b:int c #ORDER: b c:desc #SIZE: 12" = .ok s ∧
      RowProgram.compile s ["a > 1"] ["y = b; __rest__"] = .ok c₁ ∧
      GroupProgram.compile c₁.schema (some "k = b") [(.group, "n = cnt()")] {} = .ok c₂ ∧
      (c₁.schema.fieldNames = ["y", "a", "b", "c"] ∧
        c₁.schema.order = [⟨"b", .text, false⟩, ⟨"c", .text, true⟩] ∧
        c₂.schema.fieldNames = ["k", "n"] ∧ c₂.schema.order = [⟨"k", .text, false⟩]) ∧
      c₁.schema.Valid ∧ c₂.schema.Valid := by
  obtain ⟨s, hs, c₁, hc₁, c₂, hc₂, h⟩ :
      ∃ s, Schema.parse "# a b:int c #ORDER: b c:desc #SIZE: 12" = .ok s ∧
        ∃ c₁, RowProgram.compile s ["a > 1"] ["y = b; __rest__"] = .ok c₁ ∧
          ∃ c₂, GroupProgram.compile c₁.schema (some "k = b") [(.group, "n = cnt()")] {} = .ok c₂ ∧
            c₁.schema.fieldNames = ["y", "a", "b", "c"] ∧
            c₁.schema.order = [⟨"b", .text, false⟩, ⟨"c", .text, true⟩] ∧
            c₂.schema.fieldNames = ["k", "n"] ∧ c₂.schema.order = [⟨"k", .text, false⟩] := by
    decide +kernel
  have hobtained : Obtainable c₁.schema := (Obtainable.parsed hs).rows hc₁
  obtain ⟨-, -, hvalid⟩ := descriptions_stay_valid
  exact ⟨s, c₁, c₂, hs, hc₁, hc₂, h, hvalid _ hobtained, hvalid _ (hobtained.groups hc₂)⟩

end Compile

end RowAwk
