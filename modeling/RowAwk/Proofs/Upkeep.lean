import RowAwk.Proofs.Flush
import RowAwk.Proofs.Sharing

/-!
Accumulators are kept up.

The program collects accumulators from the bindings of its two categories, and prints from a third
scope, into which the others are copied. Whatever accumulator is reached from there, through
variables and helpers, is one of those that were collected, or shares its name with one that does
the same. So it is set up, updated and finished, each once and where it has to be.

    before the rows     init            of all accumulators
    on a row            change: init    of those of groups
                        update          of all
    before each print   finish          of those that need it
-/

open List

namespace RowAwk

/-! ### What a program does with accumulators -/

namespace Awk

/-- The accumulators that a line sets up. -/
def Line.inits : Line → List Fold
  | .init fold => [fold]
  | _ => []

/-- The accumulators that a line updates. -/
def Line.updates : Line → List Fold
  | .update fold => [fold]
  | _ => []

/-- The accumulators that a line finishes. -/
def Line.finishes : Line → List Fold
  | .finish fold => [fold]
  | _ => []

/-- The values that a line prints, and the statements that it computes for that. -/
def Line.shown : Line → List Expr
  | .compute statements => statements
  | .print values => values
  | _ => []

mutual

/-- The blocks inside an item that run on a row of another group. -/
def Item.changes : Item Line Head → List (Block Line Head)
  | .line _ => []
  | .block items => Block.changes items
  | .head (.keyChanged _) items => items :: Block.changes items
  | .head _ items => Block.changes items

def Block.changes : Block Line Head → List (Block Line Head)
  | [] => []
  | item :: items => item.changes ++ Block.changes items

end

mutual

/-- What comes before each line that prints, in the block where that line stands. -/
def Item.places (before : Block Line Head) : Item Line Head → List (Block Line Head)
  | .line (.print _) => [before]
  | .line _ => []
  | .block items => Block.places [] items
  | .head _ items => Block.places [] items

def Block.places (before : Block Line Head) : Block Line Head → List (Block Line Head)
  | [] => []
  | item :: items => item.places before ++ Block.places (before ++ [item]) items

end

namespace Block

variable {α : Type} {f : Line → List α}

/-- What the lines of a block give that are not inside of other blocks. -/
def own (f : Line → List α) : Block Line Head → List α
  | [] => []
  | .line l :: items => f l ++ own f items
  | _ :: items => own f items

/-- What a block does with the accumulators of a name. It does so unconditionally: nothing of it is
    inside of another block. -/
def Does (f : Line → List Fold) (block : Block Line Head) (name : String) (folds : List Fold) :
    Prop :=
  (block.own f).filter (·.accumulator.name = name) = folds ∧
    (block.gather f).filter (·.accumulator.name = name) = folds

theorem own_append (a b : Block Line Head) : own f (a ++ b) = own f a ++ own f b := by
  fun_induction own f a with
  | case1 => rfl
  | case2 l items ih => rw [cons_append, own, ih, append_assoc]
  | case3 item items hitem ih => rw [cons_append, own.eq_3 f _ _ hitem, ih]

variable {β : Type}

theorem own_lines (line : β → Line) (bs : List β) :
    own f (bs.map fun b => .line (line b)) = bs.flatMap fun b => f (line b) := by
  induction bs with
  | nil => rfl
  | cons b bs ih => rw [map_cons, own, ih, flatMap_cons]

theorem changes_append (a b : Block Line Head) : changes (a ++ b) = changes a ++ changes b := by
  induction a with
  | nil => rfl
  | cons item items ih => rw [cons_append, changes, changes, ih, append_assoc]

theorem changes_lines (line : β → Line) (bs : List β) :
    changes (bs.map fun b => .line (line b)) = [] := by
  induction bs with
  | nil => rfl
  | cons b bs ih => rw [map_cons, changes, Item.changes, ih, append_nil]

theorem places_append (before a b : Block Line Head) :
    places before (a ++ b) = places before a ++ places (before ++ a) b := by
  induction a generalizing before with
  | nil => rw [nil_append, places, nil_append, append_nil]
  | cons item items ih =>
    rw [cons_append, places, places, ih, append_assoc, append_assoc, singleton_append]

theorem places_lines (line : β → Line) (hline : ∀ b values, line b ≠ .print values)
    (before : Block Line Head) (bs : List β) :
    places before (bs.map fun b => .line (line b)) = [] := by
  induction bs generalizing before with
  | nil => rfl
  | cons b bs ih =>
    rw [map_cons, places, ih, append_nil]
    cases hl : line b with
    | print values => exact absurd hl (hline b values)
    | _ => rfl

end Block

/-- Two folds have the same statements. -/
structure Fold.Alike (f g : Fold) : Prop where
  name : f.accumulator.name = g.accumulator.name
  init : f.initText = g.initText
  update : f.updateText = g.updateText
  finish : f.finishText? = g.finishText?

/-- What a program prints and computes for that. -/
def Program.shown (p : Program Line Head) : List Expr :=
  (p.start ++ p.row ++ p.finish).gather Line.shown

/-- What comes before each print of a program, in the block where it stands. -/
def Program.places (p : Program Line Head) : List (Block Line Head) :=
  Block.places [] p.start ++ Block.places [] p.row ++ Block.places [] p.finish

end Awk

namespace Compile

open Awk (Accumulator Block Category Const Expr Fold Head Item Key Line)
open GroupProgram (Tallied Tallies Tallying tallied_iff)
open Syntax (Literal Stmt)
open Awk.Block

/-! ### Accumulators that have been made -/

variable {t : Templates} {n : Namer}

theorem Templates.Used.allBalanced (h : Used t) : t.AllBalanced := by
  cases h with
  | fixed ht => exact (accumulating_named .group).fixed t ht
  | joined d ht => exact (accumulating_named .group).joined d _ ht
  | sample limit d => exact (accumulating_named .group).sample limit d

/-- No accumulator is finished by nothing. -/
theorem Templates.Used.finish_ne (h : Used t) : t.finish ≠ some "" := by
  have behind {a b : String} (hb : b ≠ "") : some (a ++ b) ≠ some "" := fun h =>
    hb (String.append_eq_empty_iff.1 (Option.some.inj h)).2
  cases h with
  | fixed ht =>
    revert t
    decide +kernel
  | joined d ht =>
    simp only [mem_cons, not_mem_nil, or_false] at ht
    rcases ht with rfl | rfl | rfl | rfl
    · exact nofun
    · exact behind (by decide)
    · exact behind (by decide)
    · exact behind (by decide)
  | sample limit d => exact behind (by decide)

/-- An accumulator that an aggregate has made: it is named by its parts, and has the templates of an
    aggregate. -/
structure Made (n : Namer) (a : Accumulator) (args : List Expr) : Prop where
  named : Fold.Named n ⟨a, args⟩
  used : Templates.Used ⟨a.init, a.update, a.finish⟩

theorem Made.mono {n' : Namer} (hE : n.entries <+: n'.entries) {a : Accumulator}
    {args : List Expr} (h : Made n a args) : Made n' a args :=
  ⟨h.named.mono hE, h.used⟩

theorem GroupProgram.Tallies.made_mono {n' : Namer} (hE : n.entries <+: n'.entries) {s : Scope}
    (h : Tallies (Made n) s) : Tallies (Made n') s :=
  fun b hb => (h b hb).imp fun _ _ => Made.mono hE

/-- Two folds that have been made under one name have the same statements. -/
theorem Made.alike (hn : n.Sound) {f g : Fold} (hf : Made n f.accumulator f.args)
    (hg : Made n g.accumulator g.args) (h : f.accumulator.name = g.accumulator.name) :
    f.Alike g ∧ f.accumulator.finish = g.accumulator.finish := by
  obtain ⟨hcategory, hinit, hupdate, hfinish, hargs⟩ := (hf.named.name_eq_iff hn hg.named).1 h
  have hfinish : f.accumulator.finish = g.accumulator.finish := by
    have hf := hf.used.finish_ne
    have hg := hg.used.finish_ne
    cases hf' : f.accumulator.finish <;> cases hg' : g.accumulator.finish <;> simp_all
  refine ⟨⟨h, ?_, ?_, ?_⟩, hfinish⟩
  · rw [Fold.initText, Fold.initText, Fold.expand, Fold.expand, hinit, h, hargs]
  · rw [Fold.updateText, Fold.updateText, Fold.expand, Fold.expand, hupdate, h, hargs]
  · rw [Fold.finishText?, Fold.finishText?, hfinish]
    congr 1
    funext template
    rw [Fold.expand, Fold.expand, h, hargs]

/-- The accumulators in the scope of a state have been made. -/
structure Making (s : State) : Prop where
  namer : s.namer.Sound
  scope : Tallies (Made s.namer) s.scope

theorem tallying_making : Tallying (fun s => Made s.namer) Making where
  grows hg h := h.mono hg.namer
  routines _ h := ⟨h.namer, h.scope⟩
  named {s} stem key h :=
    ⟨h.namer.nameFor stem key, h.scope.made_mono (s.grows_named stem key).namer⟩
  tallies h := h.scope
  bound h hb := ⟨h.namer, forall_mem_append.2 ⟨h.scope, forall_mem_singleton.2 hb⟩⟩

theorem tolerant_making : Tolerant Const.Written fun s => Making s.flip where
  routines h := ⟨h.namer, h.scope⟩
  named {s} stem key h :=
    ⟨h.namer.nameFor stem key, h.scope.made_mono (s.grows_named stem key).namer⟩
  bound h _ := ⟨h.namer, h.scope⟩

theorem closed_making : Closed Literal.Spelt Making fun s e => Tallied (Made s.namer) e :=
  tallying_making.closed Literal.spelt_string Literal.spelt_digit

/-- Aggregates make accumulators. -/
theorem closedRows_making (c : Category) :
    ClosedRows Literal.Spelt Making (fun s => Making s.flip)
      (fun s e => Tallied (Made s.namer) e) (fun _ e => e.Lowered Const.Written) c where
  rows := closed_lowered tolerant_making admits_spelt
  flip _ := .rfl
  accumulate {s a t args} ht ha := by
    intro hi e s' hr
    obtain ⟨-, hg, he⟩ := lands_accumulate a ht.allBalanced ha hi.namer e s' hr
    obtain ⟨⟨key, rfl⟩, name, rfl⟩ : (∃ key, s' = s.named c.stem key) ∧
        ∃ name, e = .aggregate ⟨name, a, c, t.init, t.update, t.finish⟩ args := by
      cases hr
      exact ⟨⟨_, rfl⟩, _, rfl⟩
    refine ⟨tallying_making.named _ _ hi, hg, Expr.everyNode_aggregate.2 ?_⟩
    rintro b bs ⟨⟩
    exact ⟨Expr.everyNode_aggregate.1 he _ _ rfl, ht⟩

/-! ### Drafts -/

namespace GroupProgram

namespace Draft

variable {d d' : Draft} {stmt : Stmt}

/-- The accumulators in the scopes of a draft have been made. -/
structure Making (d : Draft) : Prop where
  namer : d.namer.Sound
  key : Tallies (Made d.namer) d.keyScope
  scopes : ∀ c, Tallies (Made d.namer) (d.scopeOf c)
  out : Tallies (Made d.namer) d.outScope

theorem making_start (schema : Schema) : (start schema).Making := by
  refine ⟨Namer.sound_empty, nofun, fun c => ?_, nofun⟩
  cases c <;> exact nofun

theorem Making.addKey (h : d.Making) (hw : stmt.WellFormed Literal.Spelt) {outputAll : Bool}
    (hr : addKey outputAll d stmt = .ok d') : d'.Making := by
  obtain ⟨value, state, i, j, hk⟩ := addKey_eq_ok hr
  obtain ⟨hs, hg, hv⟩ := closed_making.lowerRow (wellFormed_stmtExpr hw) d.keyState
    ⟨h.namer, h.key⟩ value state hk.lower
  have hv : Tallied (Made d'.namer) value := hv.imp fun _ _ => .mono hk.starts
  obtain ⟨hscopes, hout⟩ := hk.spread (Q := fun p => Tallied (Made d'.namer) p.2)
    (fun c => (h.scopes c).made_mono hk.entries) (h.out.made_mono hk.entries) (hv.assign _)
    fun name _ _ hb _ => (Tallied.var hb _).assign name
  refine ⟨hk.sound hs.namer, ?_, hscopes, hout⟩
  rw [hk.key]
  exact hs.scope.made_mono hk.starts

theorem Making.addStatement (h : d.Making) (hw : stmt.WellFormed Literal.Spelt) {c : Category}
    {source : String} (hr : addStatement c source d stmt = .ok d') : d'.Making := by
  obtain ⟨name, value, state, ha⟩ := addStatement_eq_ok hr
  obtain ⟨hs, hg, hv⟩ := closed_making.lower (fun x _ => closedRows_making x) _
    (wellFormed_stmtExpr hw) (d.stateOf c) ⟨h.namer, h.scopes c⟩ value state ha.lower
  obtain ⟨hscopes, hout⟩ := ha.spread (Q := fun p => Tallied (Made state.namer) p.2)
    (fun c => (h.scopes c).made_mono hg.namer) (h.out.made_mono hg.namer) hs.scope (hv.assign name)
  rw [← ha.namer] at hscopes hout
  refine ⟨ha.namer ▸ hs.namer, ?_, hscopes, hout⟩
  rw [ha.key, ha.namer]
  exact h.key.made_mono hg.namer

end Draft

theorem making_draft {schema : Schema} {key : Option String}
    {aggregates : List (Category × String)} {options : Options} {d : Draft}
    (h : draft schema key aggregates options = .ok d) : d.Making :=
  draft_induct (Q := fun d _ => d.Making) h (Draft.making_start schema)
    (fun _ hstmt _ _ _ hd hr => hd.addKey (wellFormed_of_mem_statements hstmt) hr)
    fun _ _ _ hstmt _ _ _ hd hr => hd.addStatement (wellFormed_of_mem_statements hstmt) hr

/-! ### What a program does with what has been collected -/

theorem Tallied.boundValue {A : Accumulator → List Expr → Prop} {e : Expr} (h : Tallied A e) :
    Tallied A e.boundValue := by
  cases e with
  | assign target value => exact (Expr.everyNode_assign.1 h).2
  | _ => exact h

/-- The lines that compute some statements and print values. -/
def printing (computes : List (List Expr)) (values : List Expr) : Block Line Head :=
  computes.map (fun statements => .line (.compute statements)) ++ [.line (.print values)]

/-- All that is printed of a scope, and computed for that, uses the accumulators of its bindings. -/
theorem block_eq_printing {s : Scope} {order : List Schema.Order} {p : Projection}
    (h : Projection.of s none order = .ok p) :
    ∃ computes values, p.block = printing computes values ∧
      ∀ e ∈ computes.flatten ++ values, Tallied (Draft.InScope s) e := by
  rw [Projection.of] at h
  split at h
  · cases h
  cases h
  have line (statements : List Expr) : ∃ computes : List (List Expr),
      Projection.computeLine statements = computes.map (fun bs => .line (.compute bs)) ∧
        computes.flatten = statements := by
    cases statements with
    | nil => exact ⟨[], rfl, rfl⟩
    | cons b bs => exact ⟨[b :: bs], rfl, by simp⟩
  have computed (exprs : List Expr) (names : List String) :
      ∀ e ∈ Projection.needed s exprs names, Tallied (Draft.InScope s) e := by
    intro e he
    rw [Projection.needed_eq] at he
    obtain ⟨b, hb, rfl⟩ := mem_map.1 he
    exact Draft.inScope_of_mem (mem_of_mem_filter hb)
  obtain ⟨before, hbefore, hstmts⟩ := line (Projection.needed s [] [])
  obtain ⟨after, hafter, hstmts'⟩ :=
    line (Projection.needed s (s.bindings.map Prod.snd) ([].flatMap Expr.varNames))
  refine ⟨before ++ after, (Projection.outputs s).map fun b =>
    Projection.printed ((s.bindings.map Prod.snd).flatMap Expr.varNames) b.1 b.2, ?_, fun e he => ?_⟩
  · simp only [Option.toList_none, hbefore, hafter, printing, map_append, append_assoc]
    rfl
  · rw [flatten_append, hstmts, hstmts', mem_append, mem_append] at he
    rcases he with (he | he) | he
    · exact computed _ _ e he
    · exact computed _ _ e he
    · obtain ⟨b, hb, rfl⟩ := mem_map.1 he
      have hb := Draft.inScope_of_mem (mem_of_mem_filter hb)
      rw [Projection.printed]
      split
      · exact hb.var b.1
      · exact hb.boundValue

namespace Draft

variable (d : Draft) (options : Options) (computes : List (List Expr)) (values : List Expr)
variable {f : Line → List Fold}

theorem gather_printing (hcompute : ∀ bs, f (.compute bs) = [])
    (hprint : ∀ vs, f (.print vs) = []) : (printing computes values).gather f = [] := by
  simp [printing, gather_append, gather_lines, gather, Item.gather, hcompute, hprint]

theorem own_printing (hcompute : ∀ bs, f (.compute bs) = []) (hprint : ∀ vs, f (.print vs) = []) :
    (printing computes values).own f = [] := by
  simp [printing, own_append, own_lines, own, hcompute, hprint]

/-- What happens on a row of another group. -/
def change (print : Block Line Head) : Block Line Head :=
  (if options.exposeGroups then [] else finishLines d.folds ++ print)
    ++ d.keys.map (fun k => .line (.takeOver k)) ++ initLines d.groupFolds

theorem inits_start (print : Block Line Head) :
    (d.program options print).start.own Line.inits = d.folds ∧
      (d.program options print).start.gather Line.inits = d.folds := by
  simp [program, initLines, own, own_append, own_lines, gather_append,
    gather_lines, gather, Item.gather, Line.inits, folds]

theorem updates_row :
    (d.program options (printing computes values)).row.own Line.updates = d.folds ∧
      (d.program options (printing computes values)).row.gather Line.updates = d.folds := by
  have ho : (printing computes values).own Line.updates = [] :=
    own_printing _ _ (fun _ => rfl) fun _ => rfl
  have hg : (printing computes values).gather Line.updates = [] :=
    gather_printing _ _ (fun _ => rfl) fun _ => rfl
  cases he : options.exposeGroups <;>
    simp [program, he, ho, hg, initLines, updateLines, finishLines, own_append, own_lines,
      gather_append, gather_lines, gather, Item.gather, own, Line.updates, folds, flatMap_nothing]

theorem changes_row : (d.program options (printing computes values)).row.changes
    = [d.change options (printing computes values)] := by
  have hprint : (printing computes values).changes = [] := by
    simp [printing, changes_append, changes_lines, changes, Item.changes]
  cases he : options.exposeGroups <;>
    simp [program, he, change, hprint, initLines, updateLines, finishLines, changes_append,
      changes_lines, changes, Item.changes, folds]

theorem inits_change :
    (d.change options (printing computes values)).own Line.inits = d.groupFolds ∧
      (d.change options (printing computes values)).gather Line.inits = d.groupFolds := by
  have ho : (printing computes values).own Line.inits = [] :=
    own_printing _ _ (fun _ => rfl) fun _ => rfl
  have hg : (printing computes values).gather Line.inits = [] :=
    gather_printing _ _ (fun _ => rfl) fun _ => rfl
  cases he : options.exposeGroups <;>
    simp [change, he, ho, hg, initLines, finishLines, own_append, own_lines,
      gather_append, gather_lines, Line.inits, flatMap_nothing]

theorem places_printing (before : Block Line Head) : places before (printing computes values)
    = [before ++ computes.map fun statements => .line (.compute statements)] := by
  rw [printing, places_append, places_lines .compute (fun _ _ => nofun), nil_append,
    places, Item.places, places, append_nil]

theorem places_finishLines (before : Block Line Head) (fs : List Fold) :
    places before (finishLines fs) = [] :=
  places_lines .finish (fun _ _ => nofun) _ _

/-- All that is finished before a print is finished right before it. -/
theorem finishes_place {before : Block Line Head} (ho : before.own Line.finishes = [])
    (hg : before.gather Line.finishes = []) :
    let place := before ++ finishLines d.folds ++ computes.map fun bs => .line (.compute bs)
    place.own Line.finishes = d.folds.filter (·.accumulator.finish.isSome) ∧
      place.gather Line.finishes = d.folds.filter (·.accumulator.finish.isSome) := by
  simp [ho, hg, finishLines, own_append, own_lines, gather_append,
    gather_lines, Line.finishes, flatMap_nothing]

theorem finishes_places :
    (d.program options (printing computes values)).places ≠ [] ∧
      ∀ place ∈ (d.program options (printing computes values)).places,
        place.own Line.finishes = d.folds.filter (·.accumulator.finish.isSome) ∧
          place.gather Line.finishes = d.folds.filter (·.accumulator.finish.isSome) := by
  cases he : options.exposeGroups with
  | false =>
    -- at the end of a group, and after the last row
    have hplaces : (d.program options (printing computes values)).places
        = List.replicate 2
          ([] ++ finishLines d.folds ++ computes.map fun bs => .line (.compute bs)) := by
      simp [Awk.Program.places, program, he, initLines, updateLines, places_append, places_lines,
        places_finishLines, places_printing, places, Item.places, folds, List.replicate]
    rw [hplaces]
    refine ⟨by simp, fun place hp => ?_⟩
    rw [eq_of_mem_replicate hp]
    exact finishes_place d computes rfl rfl
  | true =>
    -- after each row
    obtain ⟨before, hrow, ho, hg, hnone⟩ : ∃ before : Block Line Head,
        (d.program options (printing computes values)).row
          = before ++ (finishLines d.folds ++ printing computes values) ∧
        before.own Line.finishes = [] ∧ before.gather Line.finishes = [] ∧
        places [] before = [] := by
      simp only [program, he, if_true]
      refine ⟨_, rfl, ?_, ?_, ?_⟩ <;>
        simp [initLines, updateLines, own_append, own_lines, own,
          gather_append, gather_lines, gather, Item.gather, places_append,
          places_lines, places, Item.places, Line.finishes, flatMap_nothing]
    have hplaces : (d.program options (printing computes values)).places
        = [before ++ finishLines d.folds ++ computes.map fun bs => .line (.compute bs)] := by
      rw [Awk.Program.places, hrow]
      simp [program, he, initLines, hnone, places_append, places_lines, places,
        Item.places, places_finishLines, places_printing]
    rw [hplaces]
    refine ⟨by simp, fun place hp => ?_⟩
    rw [mem_singleton.1 hp]
    exact finishes_place d computes ho hg

variable {d options computes values}

theorem mem_shown_program {e : Expr}
    (h : e ∈ (d.program options (printing computes values)).shown) :
    e ∈ computes.flatten ++ values := by
  have hprint : (printing computes values).gather Line.shown = computes.flatten ++ values := by
    simp [printing, gather_append, gather_lines, gather, Item.gather, Line.shown, flatMap_id']
  rw [← hprint]
  cases he : options.exposeGroups <;>
    simp [Awk.Program.shown, program, he, initLines, updateLines, finishLines, gather_append,
      gather_lines, gather, Item.gather, Line.shown, flatMap_nothing] at h <;>
    simpa using h

/-- Accumulators that are reached from an output are kept, and with the same statements. -/
theorem exists_alike (hd : d.Lawful) (hm : d.Making) {a : Accumulator} {args : List Expr}
    (ha : InScope d.outScope a args) :
    ∃ f ∈ d.folds, f.accumulator.category = a.category ∧ f.Alike ⟨a, args⟩ ∧
      f.accumulator.finish = a.finish := by
  obtain ⟨b, hb, ha⟩ := ha
  obtain ⟨f, hf, hname⟩ := hd.exists_fold hb ha
  obtain ⟨hcategory, b', hb', hfb⟩ := mem_foldsOf hf
  have hmade := tallied_iff.1 (hm.scopes a.category b' hb') _ _ hfb
  have hmade' := tallied_iff.1 (hm.out b hb) _ _ ha
  exact ⟨f, mem_folds.2 ⟨_, hf⟩, hcategory, hmade.alike (g := ⟨a, args⟩) hm.namer hmade' hname⟩

theorem groupFolds_eq (d : Draft) :
    d.groupFolds = d.folds.filter (·.accumulator.category = .group) := by
  have hgroup : ∀ f ∈ d.groupFolds, f.accumulator.category = .group := fun f hf =>
    (mem_collect hf).1
  have hstream : ∀ f ∈ d.streamFolds, f.accumulator.category ≠ .group := fun f hf => by
    rw [(mem_collect hf).1]
    decide
  rw [folds, filter_append, filter_eq_self.2 (by simpa using hgroup),
    filter_eq_nil_iff.2 (by simpa using hstream), append_nil]

theorem filter_name_eq {fs : List Fold} (hn : (fs.map (·.accumulator.name)).Nodup) {f : Fold}
    (hf : f ∈ fs) : fs.filter (·.accumulator.name = f.accumulator.name) = [f] := by
  induction fs with
  | nil => cases hf
  | cons g fs ih =>
    rw [map_cons, nodup_cons] at hn
    rcases mem_cons.1 hf with rfl | hf
    · rw [filter_cons_of_pos (by simp), filter_eq_nil_iff.2 fun g hg => ?_]
      simpa using fun he => hn.1 (mem_map.2 ⟨g, hg, he⟩)
    · rw [filter_cons_of_neg, ih hn.2 hf]
      simpa using fun he => hn.1 (mem_map.2 ⟨f, hf, he.symm⟩)

/-- What a block does with a kept accumulator, if it takes all that have some property. -/
theorem does_of_filter (hn : (d.folds.map (·.accumulator.name)).Nodup) {f : Fold}
    (hf : f ∈ d.folds) {block : Block Line Head} {g : Line → List Fold} {p : Fold → Bool}
    (h : block.own g = d.folds.filter p ∧ block.gather g = d.folds.filter p) :
    block.Does g f.accumulator.name (if p f then [f] else []) := by
  have hboth : (d.folds.filter p).filter (·.accumulator.name = f.accumulator.name)
      = if p f then [f] else [] := by
    rw [filter_filter, filter_congr fun g _ => Bool.and_comm _ _, ← filter_filter,
      filter_name_eq hn hf, filter_singleton, cond_eq_ite]
  exact ⟨by rw [h.1, hboth], by rw [h.2, hboth]⟩

end Draft

/-- No accumulator is lost. Whatever accumulator is reached from what is printed, and from what is
    computed for that, has its statements in the program: it is set up once before the rows, updated
    once on each row, set up again on a change of the group exactly if it is one of groups, and
    finished once before each print if it has to be. No two accumulators share a name. -/
theorem aggregates_kept_up {schema : Schema} {key : Option String}
    {aggregates : List (Category × String)} {options : Options} {c : Compiled}
    (hc : compile schema key aggregates options = .ok c) :
    ((c.program.start.gather Line.inits).map (·.accumulator.name)).Nodup ∧
      ((c.program.row.gather Line.updates).map (·.accumulator.name)).Nodup ∧
      c.program.places ≠ [] ∧
      ∃ change, c.program.row.changes = [change] ∧
        ∀ e ∈ c.program.shown, ∀ a args, (a, args) ∈ e.aggregates →
          ∃ f : Fold, f.Alike ⟨a, args⟩ ∧
            c.program.start.Does Line.inits a.name [f] ∧
            c.program.row.Does Line.updates a.name [f] ∧
            change.Does Line.inits a.name (if a.category = .group then [f] else []) ∧
            ∀ place ∈ c.program.places,
              place.Does Line.finishes a.name (if a.finish.isSome then [f] else []) := by
  obtain ⟨d, projection, derived, hd, hp, -, rfl⟩ := compile_eq_ok hc
  obtain ⟨hlawful, -⟩ := lawful_draft hd
  obtain ⟨computes, values, hblock, hshown⟩ := block_eq_printing hp
  have hn := hlawful.nodup_folds
  have hall : d.folds = d.folds.filter fun _ => true := (List.filter_true _).symm
  rw [hblock]
  have hinits := d.inits_start options (printing computes values)
  have hupdates := d.updates_row options computes values
  have hchange := d.inits_change options computes values
  obtain ⟨hplaces, hfinishes⟩ := d.finishes_places options computes values
  refine ⟨by rw [hinits.2]; exact hn, by rw [hupdates.2]; exact hn, hplaces, _,
    d.changes_row options computes values, fun e he a args ha => ?_⟩
  obtain ⟨f, hf, hcategory, halike, hfinish⟩ := Draft.exists_alike hlawful (making_draft hd)
    (tallied_iff.1 (hshown e (Draft.mem_shown_program he)) a args ha)
  have hname : f.accumulator.name = a.name := halike.name
  rw [hall] at hinits hupdates
  rw [Draft.groupFolds_eq] at hchange
  rw [← hname, ← hcategory, ← hfinish]
  refine ⟨f, halike, ?_, ?_, ?_, fun place hplace => ?_⟩
  · simpa using Draft.does_of_filter hn hf hinits
  · simpa using Draft.does_of_filter hn hf hupdates
  · simpa using Draft.does_of_filter hn hf hchange
  · exact Draft.does_of_filter hn hf (hfinishes place hplace)

/-- Accumulators of groups and of the stream, one of which needs finishing, reached through a helper
    and through names that statements about the stream have bound. -/
theorem aggregates_kept_up_keyAndNumber :
    ∃ c change, compile keyAndNumber (some "a")
        [(.stream, "t = sum(b); m = median(b)"), (.group, "g = abs(sum(b) - m); n = cnt() / t")]
        {} = .ok c ∧
      (c.program.row.gather Line.shown).map Expr.text
        = ["t = __acc_0", "m = __acc_1", "_abs0 = (__grp_0 - m)", "t", "m",
          "((_abs0 < 0)?-(_abs0):_abs0)", "(__grp_1 / t)"] ∧
      (c.program.row.gather Line.updates).map Fold.updateText
        = ["__grp_0 += $2;", "__grp_1 += 1;", "__acc_0 += $2;",
          "__acc_1_arr[++__acc_1_cnt] = $2;"] ∧
      ((c.program.row.gather Line.updates).map (·.accumulator.name)).Nodup ∧
      c.program.places ≠ [] ∧ c.program.row.changes = [change] ∧
      ∀ e ∈ c.program.shown, ∀ a args, (a, args) ∈ e.aggregates →
        ∃ f : Fold, f.Alike ⟨a, args⟩ ∧
          c.program.start.Does Line.inits a.name [f] ∧
          c.program.row.Does Line.updates a.name [f] ∧
          change.Does Line.inits a.name (if a.category = .group then [f] else []) ∧
          ∀ place ∈ c.program.places,
            place.Does Line.finishes a.name (if a.finish.isSome then [f] else []) := by
  simp only [exists_and_left]
  refine exists_ok_of (by decide +kernel) fun c hc => ?_
  obtain ⟨-, h⟩ := aggregates_kept_up hc
  exact ⟨of_ok hc (by decide +kernel), of_ok hc (by decide +kernel), h⟩

end GroupProgram

end Compile

end RowAwk
