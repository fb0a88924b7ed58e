import RowAwk.Proofs.Delimiters
import RowAwk.Proofs.Invocations
import RowAwk.Proofs.Requirements
import RowAwk.Proofs.Upkeep

/-!
Functions are defined where they are called.

A call of the library requires the routine that it turns into, and required routines stay. So the
text of whatever is lowered calls no function of the library that the program does not bring along.
Statements of accumulators are texts with holes; what fills a hole calls the same as it does alone,
unless it ends up inside of a string:

    concat(crc32(b), ";")               (__grp_0 ";" crc32(_crc320))
    concat(" crc32(1) ", "{arg0}")      (__grp_0 "" crc32(1) "" " crc32(1) ")

In the second one the delimiter has a hole of its own. The string that fills it ends the string
around it, and what it holds is called.
-/

open List

namespace RowAwk.Compile

open Awk (Accumulator CallsOnly Category Const Expr Fold Head Item Key Line Routine Sentence
  stringText)
open Syntax (Literal Stmt isName)
open Awk.Expr

/-! ### Statements of accumulators -/

open Awk (Piece Takes passes)
open Awk.Template (Hole Part expand isHolePart parts parts_char parts_hole parts_induction)

/-- What statements of accumulators call besides what fills their holes. -/
def statementWords : List String := ["if", "for", "split", "asort", "asorti", "int"]

variable {routines : List Routine}

theorem provided_statementWords : ∀ f ∈ statementWords, Provided routines f := by
  intro f hf
  refine .of_ofName? ?_
  revert f
  decide

/-- A part of a template; a hole is a place. -/
def partPiece : Part → Piece
  | .char c => .char c
  | _ => .place

/-- Whether the pieces of a statement call only words of awk. -/
def speaks (pieces : List Piece) : Bool := passes statementWords (some .fresh) pieces

namespace Slot

/-- The pieces of a wording. -/
def pieces : Slot → List Piece
  | .text s => s.toList.map .char
  | _ => [.place]

end Slot

section

variable {G : String → Prop} {name value delimiter : String} {args : List String}

theorem Slot.takes_fillAll (hn : CallsOnly G name) (hv : CallsOnly G value)
    (hd : CallsOnly G delimiter) (slots : List Slot) :
    Takes G (slots.flatMap Slot.pieces) (Slot.fillAll name value delimiter slots).toList := by
  have place {t : String} (ht : CallsOnly G t) : Takes G [.place] t.toList := by
    rw [← append_nil t.toList]
    exact .place ht .nil
  induction slots with
  | nil => exact .nil
  | cons slot slots ih =>
    rw [flatMap_cons, Slot.fillAll, String.toList_append]
    refine Takes.append ?_ ih
    cases slot with
    | text s => exact Awk.takes_chars _
    | accumulator => exact place hn
    | value => exact place hv
    | delimiter => exact place hd

/-- A hole calls nothing while nothing fills it. -/
theorem callsOnly_hole {h : List Char} {p : Part} (hh : Hole h p) : CallsOnly G (String.ofList h) := by
  have hpart := hh.isHolePart
  refine Awk.callsOnly_of_not_mem (Awk.balanced_of_unquoted fun c hc => ⟨?_, ?_⟩) fun hm => ?_
  · rintro rfl
    rw [String.toList_ofList] at hc
    exact absurd (hpart _ hc) (by decide)
  · rintro rfl
    rw [String.toList_ofList] at hc
    exact absurd (hpart _ hc) (by decide)
  · rw [String.toList_ofList] at hm
    exact absurd (hpart _ hm) (by decide)

theorem takes_parts (hn : CallsOnly G name) (ha : ∀ a ∈ args, CallsOnly G a) (cs : List Char) :
    Takes G ((parts cs).map partPiece)
      ((parts cs).flatMap (Part.fill name.toList (args.map String.toList))) := by
  induction cs using parts_induction with
  | nil =>
    rw [parts]
    exact .nil
  | @hole h p rest hh ih =>
    rw [parts_hole hh, map_cons, flatMap_cons]
    have hself := callsOnly_hole (G := G) hh
    cases hh with
    | name => exact .place hn ih
    | @argument digits index hd =>
      rw [Part.fill, getD_eq_getElem?_getD, List.getElem?_map]
      cases hi : args[index]? with
      | none =>
        rw [← String.toList_ofList (l := Awk.Template.argumentHole ++ digits ++ ['\x7d'])]
        exact .place hself ih
      | some a => exact .place (ha a (mem_of_getElem? hi)) ih
  | @char c cs hn ih =>
    rw [parts_char hn]
    exact .char c ih

theorem callsOnly_expand (hG : ∀ f ∈ statementWords, G f) (hn : CallsOnly G name)
    (ha : ∀ a ∈ args, CallsOnly G a) {template : String}
    (hs : speaks ((parts template.toList).map partPiece) = true) :
    CallsOnly G (expand template name args) := by
  have htakes : Takes G ((parts template.toList).map partPiece) (expand template name args).toList := by
    rw [expand, String.toList_ofList]
    exact takes_parts hn ha _
  exact htakes.callsOnly hG hs

end

/-- The templates of an accumulator. -/
def templatesOf (a : Accumulator) : Templates := ⟨a.init, a.update, a.finish⟩

/-- The templates of aggregates that join texts with a delimiter. -/
inductive Templates.JoinedBy (d : String) : Templates → Prop
  | joined {t} : t ∈ [Templates.concat, .concatUniq, .concatSorted, .chainConcatUniq] →
      JoinedBy d (t (stringText d))
  | sample (limit : Int) : JoinedBy d (.concatSample limit (stringText d))

/-- The delimiter of an accumulator, if it has one, is a string where it stands in statements: holes
    that it spells are filled in, but do not end it. -/
def KeepsDelimiter (f : Fold) : Prop :=
  ∀ d, (templatesOf f.accumulator).JoinedBy d →
    ∃ v, expand (stringText d) f.accumulator.name (Expr.texts f.args) = stringText v

/-- Texts that are joined show the delimiter in their statement. -/
theorem Templates.JoinedBy.eq_of_concat {x d : String} (h : (Templates.concat x).JoinedBy d) :
    stringText d = x := by
  generalize ht : Templates.concat x = t at h
  cases h with
  | sample limit => cases congrArg Templates.finish ht
  | joined hm =>
    simp only [mem_cons, not_mem_nil, or_false] at hm
    rcases hm with rfl | rfl | rfl | rfl
    · have hupdate := congrArg (String.toList ∘ Templates.update) ht
      simp only [Templates.concat, Function.comp_apply, toString, String.toList_append,
        append_cancel_left_eq, append_cancel_right_eq] at hupdate
      exact (String.toList_inj.1 hupdate).symm
    · cases congrArg Templates.finish ht
    · cases congrArg Templates.finish ht
    · cases congrArg Templates.finish ht

/-- A delimiter with no hole to fill in is kept. -/
theorem keepsDelimiter_concat {f : Fold} {d : String}
    (ht : templatesOf f.accumulator = .concat (stringText d))
    (h : ∀ p ∈ parts d.toList, p.isOpen f.args.length = false) : KeepsDelimiter f := by
  intro d' hd'
  rw [ht] at hd'
  rw [hd'.eq_of_concat]
  refine ⟨d, expand_stringText fun p hp => ?_⟩
  rw [Expr.texts_eq_map, length_map]
  exact h p hp

/-- The statements of an accumulator call only functions of some kind. -/
structure SuppliedFold (G : String → Prop) (f : Fold) : Prop where
  init : CallsOnly G f.initText
  update : CallsOnly G f.updateText
  finish : ∀ t ∈ f.finishText?, CallsOnly G t

/-- Whatever takes the places of a statement, it calls only words of awk besides. -/
def Slot.Speak (G : String → Prop) (slots : List Slot) : Prop :=
  ∀ name value delimiter, CallsOnly G name → CallsOnly G value → CallsOnly G delimiter →
    CallsOnly G (Slot.fillAll name value delimiter slots)

/-- The statements of a wording call only words of awk. -/
structure Wording.Speaks (G : String → Prop) (w : Wording) : Prop where
  init : Slot.Speak G w.init
  update : Slot.Speak G w.update
  finish : ∀ slots ∈ w.finish, Slot.Speak G slots

/-- An accumulator as aggregates make them, with arguments that call only functions of some kind. -/
structure Accumulates (G : String → Prop) (a : Accumulator) (args : List Expr) : Prop where
  name : isName a.name = true
  used : (templatesOf a).Used
  args : ∀ x ∈ args, CallsOnly G x.text

section

variable {G : String → Prop} {f : Fold} {w : Wording} {d : String}

theorem Slot.speak_of_speaks (hG : ∀ g ∈ statementWords, G g) {slots : List Slot}
    (hs : speaks (slots.flatMap Slot.pieces) = true) : Slot.Speak G slots :=
  fun _ _ _ hn hv hd => (Slot.takes_fillAll hn hv hd slots).callsOnly hG hs

/-- The update of a sample, with its limit in the place of a delimiter. -/
def sampleUpdate : List Slot :=
  [.text "if (!(", .value, .text " in ", .accumulator, .text "_heap) && ", .accumulator,
    .text "_cnt<", .delimiter, .text ") ", .text "\x7b", .accumulator, .text "_heap[", .value,
    .text "]=\"\"; ", .accumulator, .text "_cnt += 1;\x7d"]

theorem callsOnly_toString (limit : Int) : CallsOnly G (toString limit) := by
  have hchar {c : Char} (hc : c ∈ (toString limit).toList) : c ≠ '\x00' ∧ c ≠ '"' ∧ c ≠ '(' := by
    have h := Wording.mem_toString hc
    refine ⟨?_, ?_, ?_⟩
    all_goals
      rintro rfl
      exact absurd h (by decide)
  exact Awk.callsOnly_of_not_mem
    (Awk.balanced_of_unquoted fun c hc => ⟨(hchar hc).1, (hchar hc).2.1⟩)
    fun hm => (hchar hm).2.2 rfl

namespace Wording

/-- Whether the statements of a wording call only words of awk. -/
def isSpoken (w : Wording) : Bool :=
  speaks (w.init.flatMap Slot.pieces) && speaks (w.update.flatMap Slot.pieces) &&
    w.finish.all fun slots => speaks (slots.flatMap Slot.pieces)

theorem speaks_of_isSpoken (hG : ∀ g ∈ statementWords, G g) (h : w.isSpoken = true) :
    w.Speaks G := by
  rw [isSpoken, Bool.and_eq_true, Bool.and_eq_true] at h
  obtain ⟨⟨hinit, hupdate⟩, hfinish⟩ := h
  refine ⟨Slot.speak_of_speaks hG hinit, Slot.speak_of_speaks hG hupdate, fun slots hs => ?_⟩
  exact Slot.speak_of_speaks hG ((Option.all_eq_true _ _).1 hfinish slots hs)

theorem isSpoken_joining :
    ∀ w ∈ [concat, concatUniq, concatSorted, chainConcatUniq, concatSample 0],
      w.isSpoken = true := by
  decide +kernel

theorem speaks_concatSample (hG : ∀ g ∈ statementWords, G g) (limit : Int) :
    (concatSample limit).Speaks G := by
  -- but for the update, the statements are the same for all limits
  obtain ⟨hinit, -, hfinish⟩ := speaks_of_isSpoken hG (isSpoken_joining (concatSample 0) (by simp))
  have hsample : Slot.Speak G sampleUpdate := Slot.speak_of_speaks hG (by decide +kernel)
  exact ⟨hinit, fun name value _ hn hv _ =>
    hsample name value (toString limit) hn hv (callsOnly_toString limit), hfinish⟩

end Wording

/-- A delimiter that is kept stands in the statements of a wording as a string. -/
theorem Accumulates.exists_fillAll (hk : KeepsDelimiter f)
    (hd : (templatesOf f.accumulator).JoinedBy d) :
    ∃ v, ∀ slots, Slot.areSolid slots = true →
      f.expand (Slot.fillAll Templates.self Templates.arg0 (stringText d) slots)
        = Slot.fillAll f.accumulator.name ((Expr.texts f.args).getD 0 Templates.arg0)
            (stringText v) slots := by
  obtain ⟨v, hv⟩ := hk d hd
  have hl : (stringText d).toList = '"' :: d.toList.flatMap Awk.escapeChar ++ ['"'] := by
    unfold stringText
    exact String.toList_ofList
  refine ⟨v, fun slots hs => ?_⟩
  rw [Fold.expand, Slot.expand_fillAll hl hs, hv]

theorem Accumulates.callsOnly_value (h : Accumulates G f.accumulator f.args) :
    CallsOnly G ((Expr.texts f.args).getD 0 Templates.arg0) := by
  rw [getD_eq_getElem?_getD]
  cases hi : (Expr.texts f.args)[0]? with
  | none => exact Awk.callsOnly_of_not_mem (by decide) (by decide)
  | some t => exact callsOnly_texts h.args t (mem_of_getElem? hi)

/-- The statements of a wording call what their places call. -/
theorem Accumulates.wording (h : Accumulates G f.accumulator f.args) (hk : KeepsDelimiter f)
    (hw : w.Solid) (hs : w.Speaks G) (hd : (w.templates (stringText d)).JoinedBy d)
    (ht : templatesOf f.accumulator = w.templates (stringText d)) : SuppliedFold G f := by
  obtain ⟨v, hv⟩ := Accumulates.exists_fillAll hk (ht ▸ hd)
  have filled {slots : List Slot} (hsolid : Slot.areSolid slots = true)
      (hspeak : Slot.Speak G slots) :
      CallsOnly G (f.expand (Slot.fillAll Templates.self Templates.arg0 (stringText d) slots)) := by
    rw [hv slots hsolid]
    exact hspeak _ _ _ (Awk.callsOnly_name h.name) h.callsOnly_value (Awk.callsOnly_stringText v)
  obtain ⟨hinit, hupdate, hfinish⟩ := Templates.mk.inj ht
  refine ⟨?_, ?_, fun t hm => ?_⟩
  · rw [Fold.initText, hinit]
    exact filled hw.init hs.init
  · rw [Fold.updateText, hupdate]
    exact filled hw.update hs.update
  · rw [Fold.finishText?, hfinish, Option.map_map] at hm
    obtain ⟨slots, hslots, rfl⟩ := Option.map_eq_some_iff.1 hm
    exact filled (hw.finish slots hslots) (hs.finish slots hslots)

/-- The fixed templates call only words of awk. -/
theorem speaks_fixed : ∀ t ∈ [Templates.ifBest "10^1000000" "<", .ifBest "-10^1000000" ">",
    .best "<", .best ">", .sum, .product, .count, .median, .firstValue, .lastValue],
    speaks ((parts t.init.toList).map partPiece) = true ∧
      speaks ((parts t.update.toList).map partPiece) = true ∧
      t.finish.all (fun finish => speaks ((parts finish.toList).map partPiece)) = true := by
  decide +kernel

/-- Statements of accumulators call what their arguments call, and words of awk. -/
theorem Accumulates.supplied (h : Accumulates G f.accumulator f.args)
    (hG : ∀ g ∈ statementWords, G g) (hk : KeepsDelimiter f) : SuppliedFold G f := by
  generalize ht : templatesOf f.accumulator = t at h
  have hused := h.used
  rw [ht] at hused
  cases hused with
  | fixed hm =>
    obtain ⟨hinit, hupdate, hfinish⟩ := speaks_fixed t hm
    have filled {template : String} (hs : speaks ((parts template.toList).map partPiece) = true) :
        CallsOnly G (f.expand template) :=
      callsOnly_expand hG (Awk.callsOnly_name h.name) (callsOnly_texts h.args) hs
    subst ht
    refine ⟨filled hinit, filled hupdate, fun text hm => ?_⟩
    obtain ⟨finish, hf, rfl⟩ := Option.map_eq_some_iff.1 hm
    exact filled ((Option.all_eq_true _ _).1 hfinish finish hf)
  | joined d hm =>
    have hd := Templates.JoinedBy.joined (d := d) hm
    have spoken {w : Wording} (hw : w ∈ [Wording.concat, .concatUniq, .concatSorted, .chainConcatUniq,
        .concatSample 0]) : w.Speaks G :=
      Wording.speaks_of_isSpoken hG (Wording.isSpoken_joining w hw)
    simp only [mem_cons, not_mem_nil, or_false] at hm
    rcases hm with rfl | rfl | rfl | rfl
    · rw [← Wording.templates_concat] at ht hd
      exact h.wording hk Wording.solid_concat (spoken (by simp)) hd ht
    · rw [← Wording.templates_concatUniq] at ht hd
      exact h.wording hk Wording.solid_concatUniq (spoken (by simp)) hd ht
    · rw [← Wording.templates_concatSorted] at ht hd
      exact h.wording hk Wording.solid_concatSorted (spoken (by simp)) hd ht
    · rw [← Wording.templates_chainConcatUniq] at ht hd
      exact h.wording hk Wording.solid_chainConcatUniq (spoken (by simp)) hd ht
  | sample limit d =>
    have hd := Templates.JoinedBy.sample (d := d) limit
    rw [← Wording.templates_concatSample] at ht hd
    exact h.wording hk (Wording.solid_concatSample limit) (Wording.speaks_concatSample hG limit) hd ht

end

/-! ### Expressions -/

/-- Whether an expression stands for what another statement computes. -/
def isReference : Expr → Bool
  | .var .. | .aggregate .. => true
  | _ => false

/-- A node whose reference, if it is one, is to a name, and to an accumulator as aggregates make
    them. -/
structure SoundNode (routines : List Routine) (x : Expr) : Prop where
  var : ∀ n b, x = .var n b → isName n = true
  aggregate : ∀ a args, x = .aggregate a args → Accumulates (Provided routines) a args

/-- The text of an expression calls only what is provided, and its nodes are sound. -/
structure Supplied (routines : List Routine) (e : Expr) : Prop where
  text : CallsOnly (Provided routines) e.text
  nodes : e.EveryNode (SoundNode routines)

/-- What a binding computes and prints calls only what is provided. -/
structure SuppliedBinding (routines : List Routine) (b : String × Expr) : Prop where
  nodes : b.2.EveryNode (SoundNode routines)
  value : CallsOnly (Provided routines) b.2.boundValue.text
  statement : isName b.1 = true → CallsOnly (Provided routines) b.2.text

section

variable {routines more : List Routine} {e x : Expr} {b : String × Expr}

theorem soundNode_plain (h : isReference x = false) : SoundNode routines x := by
  constructor
  · rintro n b rfl
    cases h
  · rintro a args rfl
    cases h

variable {args : List Expr} {n : String}

theorem Accumulates.mono {a : Accumulator} (h : Accumulates (Provided routines) a args)
    (hm : routines ⊆ more) : Accumulates (Provided more) a args :=
  ⟨h.name, h.used, fun x hx => (h.args x hx).imp fun _ hf => hf.mono hm⟩

theorem SoundNode.mono (h : SoundNode routines x) (hm : routines ⊆ more) : SoundNode more x :=
  ⟨h.var, fun a args hx => (h.aggregate a args hx).mono hm⟩

theorem isName_of_mem_varNames (h : e.EveryNode (SoundNode routines)) (hn : n ∈ e.varNames) :
    isName n = true := by
  obtain ⟨b, hb⟩ := mem_varNames.1 hn
  exact (h _ hb).var n b rfl

theorem Supplied.mono (h : Supplied routines e) (hm : routines ⊆ more) : Supplied more e :=
  ⟨h.text.imp fun _ hf => hf.mono hm, fun x hx => (h.nodes x hx).mono hm⟩

theorem SuppliedBinding.mono (h : SuppliedBinding routines b) (hm : routines ⊆ more) :
    SuppliedBinding more b :=
  ⟨fun x hx => (h.nodes x hx).mono hm, h.value.imp fun _ hf => hf.mono hm,
    fun hn => (h.statement hn).imp fun _ hf => hf.mono hm⟩

theorem Supplied.assign (h : Supplied routines e) (name : String) :
    SuppliedBinding routines (name, .assign name e) :=
  ⟨everyNode_assign.2 ⟨soundNode_plain rfl, h.nodes⟩, h.text,
    fun hn => callsOnly_assign hn h.text⟩

theorem supplied_var (hn : isName n = true) (he : e.EveryNode (SoundNode routines)) :
    Supplied routines (.var n e) := by
  refine ⟨Awk.callsOnly_name hn, everyNode_var ⟨?_, ?_⟩ he⟩
  · rintro m d ⟨⟩
    exact hn
  · rintro a args ⟨⟩

theorem supplied_sideEffect (hn : isName n = true) (he : e.EveryNode (SoundNode routines)) :
    Supplied routines (.sideEffect n e) :=
  ⟨Awk.callsOnly_name hn, everyNode_sideEffect.2 ⟨soundNode_plain rfl, he⟩⟩

theorem supplied_const {c : Const} (h : c.Written) : Supplied routines (.const c) :=
  ⟨Awk.callsOnly_const h, everyNode_const.2 (soundNode_plain rfl)⟩

theorem supplied_call {f : String} (hf : isName f = true) (hp : Provided routines f)
    (ha : ∀ a ∈ args, Supplied routines a) : Supplied routines (.call f args) :=
  ⟨callsOnly_call hf hp fun a h => (ha a h).text,
    everyNode_call.2 ⟨soundNode_plain rfl, fun a h => (ha a h).nodes⟩⟩

theorem supplied_op (o : Awk.Op) (ha : ∀ a ∈ args, Supplied routines a) :
    Supplied routines (.op o args) :=
  ⟨callsOnly_op o fun a h => (ha a h).text,
    everyNode_op.2 ⟨soundNode_plain rfl, fun a h => (ha a h).nodes⟩⟩

theorem supplied_subscript {base index : Expr} (hb : Supplied routines base)
    (hi : Supplied routines index) : Supplied routines (.subscript base index) :=
  ⟨callsOnly_subscript hb.text hi.text,
    everyNode_subscript.2 ⟨soundNode_plain rfl, hb.nodes, hi.nodes⟩⟩

/-- A word of awk's own, such as the sign of a pipe. -/
theorem supplied_builtin {w : String} (h : CallsOnly (Provided routines) w) :
    Supplied routines (.builtin w) :=
  ⟨h, everyNode_builtin.2 (soundNode_plain rfl)⟩

end

/-! ### Lowering -/

/-- Invariants that the growth of the routines and the naming and binding of helpers keep, and under
    which the nodes of bindings are sound. -/
structure Admitting (I : State → Prop) : Prop where
  routines : ∀ {s routines}, s.routines ⊆ routines → I s → I { s with routines }
  named : ∀ {s} stem key, I s → I (s.named stem key)
  nodes : ∀ {s n b}, I s → (n, b) ∈ s.scope.bindings → b.EveryNode (SoundNode s.routines)
  bound : ∀ {s name b}, I s → isName name = true → SuppliedBinding s.routines (name, b) →
    I (s.bound name b)

namespace Admitting

variable {I : State → Prop} {s : State}

/-- The statements of helpers call only what their parts call. -/
theorem suppliedBinding {routines : List Routine} {E : List (String × String × Nat)} {name : String}
    {b : Expr} (hb : Helper (Supplied routines) E name b) : SuppliedBinding routines (name, b) := by
  cases hb with
  | held _ _ hv => exact hv.assign _
  | split _ _ hv hd =>
    refine Supplied.assign (supplied_call (by decide) (.of_ofName? (by decide)) fun a ha => ?_) _
    simp only [mem_cons, not_mem_nil, or_false] at ha
    rcases ha with rfl | rfl | rfl
    · exact hv
    · exact supplied_builtin (Awk.callsOnly_name (isName_number (by decide) _))
    · exact hd
  | @line c i _ hc =>
    have hread : Supplied routines (reading ("_sh" ++ toString i) c) := by
      refine supplied_op _ fun a ha => ?_
      simp only [mem_cons, not_mem_nil, or_false] at ha
      rcases ha with rfl | rfl | rfl | rfl
      · exact hc
      · exact supplied_builtin (Awk.sentence_marks (by decide)).toCallsOnly
      · exact supplied_builtin (Awk.callsOnly_name (by decide))
      · exact supplied_builtin (Awk.callsOnly_name (isName_number (by decide) i))
    exact ⟨hread.nodes, hread.text, fun _ => hread.text⟩

theorem furnishes (h : Admitting I) : Furnishes I fun s e => Supplied s.routines e where
  grows hg he := he.mono hg.routines
  named key _ hi := h.named _ key hi
  bound hi _ hb := h.bound hi hb.isName (suppliedBinding hb)
  held hi hs hb := supplied_var (isName_number (mem_stems hs) _) (h.nodes hi hb)
  element {_ _ _ _ i _} hi _ _ hb hx := by
    have hcount := supplied_var (isName_number (show "_spcnt" ∈ stems by decide) i) (h.nodes hi hb)
    exact supplied_subscript (supplied_sideEffect (isName_number (by decide) _) hcount.nodes) hx
  line {_ _ _ i} hi _ hb := by
    have hname := isName_number (show "_sh" ∈ stems by decide) i
    exact supplied_sideEffect hname (supplied_var hname (h.nodes hi hb)).nodes

/-- Whatever is lowered calls only what is provided. -/
theorem closed (h : Admitting I) : Closed Literal.Spelt I fun s e => Supplied s.routines e where
  grows hg he := he.mono hg.routines
  routines := h.routines
  string := Literal.spelt_string
  digit := Literal.spelt_digit
  const hv hc := supplied_const (Lowering.written_constant? hv hc)
  field hf := by
    obtain ⟨i, type, -, rfl⟩ := Scope.field?_cases hf
    exact ⟨callsOnly_field _ _ _, everyNode_field.2 (soundNode_plain rfl)⟩
  var hi hn hm := supplied_var hn (h.nodes hi hm)
  word hw := supplied_builtin (Awk.callsOnly_name (isName_of_mem_awkVariables hw))
  call hf hp ha := supplied_call hf hp ha
  sign hf ha :=
    ⟨callsOnly_sign hf ha.text,
      everyNode_call.2 ⟨soundNode_plain rfl, forall_mem_singleton.2 ha.nodes⟩⟩
  subscript hb hi := supplied_subscript hb hi
  op _ ha := supplied_op _ ha
  conditional ht hy hn :=
    ⟨callsOnly_conditional ht.text hy.text hn.text,
      everyNode_conditional.2 ⟨soundNode_plain rfl, ht.nodes, hy.nodes, hn.nodes⟩⟩
  helper hs hs' hv := h.furnishes.helper ⟨hs, hs'⟩ hv
  split hd hv := h.furnishes.split hd hv
  shell hc := h.furnishes.shell hc

end Admitting

/-! ### Printing -/

/-- A condition calls what its test calls. -/
theorem callsOnly_if {t : String} (h : CallsOnly (Provided routines) t) :
    CallsOnly (Provided routines) ("if" ++ "(" ++ t ++ ")") := by
  have hif : Sentence (Provided routines) ("if" ++ "(") :=
    Awk.sentence_called (by decide) (.of_ofName? (by decide))
  exact ((hif.append h).marks (by decide)).toCallsOnly

namespace Projection

variable {routines : List Routine} {s : Scope}

theorem callsOnly_needed (hb : ∀ b ∈ s.bindings, SuppliedBinding routines b) {exprs : List Expr}
    (he : ∀ e ∈ exprs, e.EveryNode (SoundNode routines)) (computed : List String) :
    ∀ e ∈ needed s exprs computed, CallsOnly (Provided routines) e.text := by
  intro e hm
  obtain ⟨⟨name, statement⟩, hb', rfl⟩ := mem_map.1 hm
  obtain ⟨hmem, hwanted⟩ := mem_filter.1 hb'
  simp only [Bool.and_eq_true, contains_iff_mem] at hwanted
  obtain ⟨x, hx, hn⟩ := mem_flatMap.1 hwanted.1.2
  exact (hb _ hmem).statement (isName_of_mem_varNames (he x hx) hn)

theorem callsOnly_printed {b : String × Expr} (hb : SuppliedBinding routines b)
    {computed : List String} (hc : ∀ n ∈ computed, isName n = true) :
    CallsOnly (Provided routines) (printed computed b.1 b.2).text := by
  rw [printed]
  split
  · rename_i hm
    exact Awk.callsOnly_name (hc _ (contains_iff_mem.1 hm))
  · exact hb.value

theorem callsOnly_computeLine {statements : List Expr}
    (h : ∀ e ∈ statements, CallsOnly (Provided routines) e.text) :
    ∀ i ∈ computeLine statements, i.CallsOnly (Provided routines) := by
  intro i hi
  rw [computeLine] at hi
  split at hi
  · cases hi
  · cases mem_singleton.1 hi
    exact .line (Awk.callsOnly_intercalate (by decide) (callsOnly_texts h))

/-- What prints a scope calls only what is provided. -/
theorem callsOnly_block (hb : ∀ b ∈ s.bindings, SuppliedBinding routines b) {filter : Option Expr}
    (hf : ∀ e ∈ filter, Supplied routines e) {order : List Schema.Order} {p : Projection}
    (h : Projection.of s filter order = .ok p) : ∀ i ∈ p.block, i.CallsOnly (Provided routines) := by
  have hearly : ∀ e ∈ filter.toList, e.EveryNode (SoundNode routines) :=
    fun e he => (hf e (Option.mem_toList.1 he)).nodes
  have hall : ∀ e ∈ s.bindings.map Prod.snd, e.EveryNode (SoundNode routines) := by
    intro e he
    obtain ⟨b, hm, rfl⟩ := mem_map.1 he
    exact (hb b hm).nodes
  have hcomputed : ∀ n ∈ (filter.toList ++ s.bindings.map Prod.snd).flatMap Expr.varNames,
      isName n = true := by
    intro n hn
    obtain ⟨e, he, hn⟩ := mem_flatMap.1 hn
    exact isName_of_mem_varNames (forall_mem_append.2 ⟨hearly, hall⟩ e he) hn
  rw [Projection.of] at h
  split at h
  · cases h
  cases h
  have hprint : Awk.CallsOnly (Provided routines) (Line.print ((outputs s).map fun b =>
      printed ((filter.toList ++ s.bindings.map Prod.snd).flatMap Expr.varNames) b.1 b.2)).text := by
    refine callsOnly_enclosed (a := "print" ++ "(") ?_ (by decide) fun x hx => ?_
    · exact Awk.sentence_called (by decide) (.of_ofName? (by decide))
    · obtain ⟨b, hm, rfl⟩ := mem_map.1 hx
      exact callsOnly_printed (hb b (mem_of_mem_filter hm)) hcomputed
  have hbody := forall_mem_append.2 ⟨callsOnly_computeLine (callsOnly_needed hb hall
    (filter.toList.flatMap Expr.varNames)), forall_mem_singleton.2 (.line hprint)⟩
  refine forall_mem_append.2 ⟨callsOnly_computeLine (callsOnly_needed hb hearly []), ?_⟩
  cases filter with
  | none => exact hbody
  | some test =>
    exact forall_mem_singleton.2 (.head (callsOnly_if (hf test rfl).text) hbody)

end Projection

/-! ### Row programs -/

/-- What the bindings of a state compute and print calls only what is provided. -/
def Supplying (s : State) : Prop := ∀ b ∈ s.scope.bindings, SuppliedBinding s.routines b

theorem admitting_supplying : Admitting Supplying where
  routines hr h b hb := (h b hb).mono hr
  named _ _ h := h
  nodes h hm := (h _ hm).nodes
  bound h _ hb := forall_mem_append.2 ⟨h, forall_mem_singleton.2 hb⟩

theorem binds_supplying :
    RowProgram.Binds Supplying (fun s e => Supplied s.routines e) fun _ => True :=
  fun _ name _ _ _ hv hi =>
    forall_mem_append.2 ⟨hi, forall_mem_singleton.2 (hv.assign name)⟩

/-- The lines of a compiled row program call only what is provided. -/
theorem RowProgram.callsOnly_items {schema : Schema} {filters maps : List String} {c : Compiled}
    (h : compile schema filters maps = .ok c) :
    c.program.routines = Routine.requireAll [] (requirements (calls schema filters maps)) ∧
      ∀ i ∈ c.program.start ++ c.program.row ++ c.program.finish,
        i.CallsOnly (Provided c.program.routines) := by
  obtain ⟨filter, state, projection, derived, hl, hp, -, rfl⟩ := compile_eq_ok h
  have hstart : Supplying (.start schema) := by
    rintro b ⟨⟩
  obtain ⟨hs, -, hf⟩ := binds_supplying.lowerAll admitting_supplying.closed
    (fun _ _ => trivial) hstart filter state hl
  refine ⟨routines_lowerAll hl, forall_mem_append.2 ⟨forall_mem_append.2 ⟨?_, ?_⟩, ?_⟩⟩
  · refine forall_mem_singleton.2 (.line ?_)
    exact Awk.callsOnly_of_not_mem (t := "OFS=\"\\t\"") (by decide) (by decide)
  · exact Projection.callsOnly_block hs hf hp
  · rintro i ⟨⟩

/-! ### Group programs -/

/-- All bindings of a scope have names, and call only what is provided. -/
def Scope.Supplied (routines : List Routine) (s : Scope) : Prop :=
  ∀ b ∈ s.bindings, isName b.1 = true ∧ SuppliedBinding routines b

theorem Scope.Supplied.mono {more : List Routine} {s : Scope} (h : s.Supplied routines)
    (hm : routines ⊆ more) : s.Supplied more :=
  fun b hb => ⟨(h b hb).1, (h b hb).2.mono hm⟩

namespace GroupProgram

/-- Both scopes of a state are supplied. -/
structure Stocked (s : State) : Prop where
  scope : s.scope.Supplied s.routines
  rows : s.rows.Supplied s.routines

theorem Stocked.flip (s : State) : Stocked s ↔ Stocked s.flip :=
  ⟨fun h => ⟨h.rows, h.scope⟩, fun h => ⟨h.rows, h.scope⟩⟩

theorem admitting_stocked : Admitting Stocked where
  routines hr h := ⟨h.scope.mono hr, h.rows.mono hr⟩
  named _ _ h := ⟨h.scope, h.rows⟩
  nodes h hm := (h.scope _ hm).2.nodes
  bound h hn hb :=
    ⟨forall_mem_append.2 ⟨h.scope, forall_mem_singleton.2 ⟨hn, hb⟩⟩, h.rows⟩

/-- Aggregates make accumulators whose arguments call only what is provided. -/
theorem closedRows_stocked (c : Category) :
    ClosedRows Literal.Spelt Stocked Stocked (fun s e => Supplied s.routines e)
      (fun s e => Supplied s.routines e) c where
  rows := admitting_stocked.closed
  flip := Stocked.flip
  accumulate {s a t args} ht ha := by
    have hstem : c.stem ∈ stems := by cases c <;> decide
    refine (lands_nameFor (admitting_stocked.named _ _)).bind fun name s₁ hg _ hn =>
      lands_pure fun _ => ?_
    obtain ⟨i, rfl, -⟩ := hn
    have hn := isName_number hstem i
    refine ⟨Awk.callsOnly_name hn, everyNode_aggregate.2 ⟨?_, ?_⟩⟩
    · rintro n b ⟨⟩
    · rintro b bs ⟨⟩
      exact ⟨hn, ht, fun x hx => ((ha x hx).mono hg.routines).text⟩

/-! ### Drafts -/

variable {stmt : Stmt} {name : String} {schema : Schema} {key : Option String}
variable {aggregates : List (Category × String)} {options : Options}

theorem isName_boundName? (hw : stmt.WellFormed Literal.Spelt) (h : boundName? stmt = some name) :
    isName name = true := by
  cases stmt with
  | assign target e =>
    cases h
    exact hw.1
  | value e =>
    cases e with
    | name span n =>
      cases h
      exact hw
    | _ => cases h

theorem isName_keyName? {outputAll : Bool} (hw : stmt.WellFormed Literal.Spelt)
    (h : keyName? outputAll stmt = some name) : isName name = true := by
  refine isName_boundName? hw ?_
  cases stmt with
  | assign target e => exact h
  | value e =>
    cases outputAll with
    | false => cases h
    | true => exact h

namespace Draft

variable {d d' : Draft} {stmt : Stmt}

/-- All scopes of a draft are supplied by its routines, and so are its keys. -/
structure Stocked (d : Draft) : Prop where
  key : d.keyScope.Supplied d.routines
  row : d.rowScope.Supplied d.routines
  scopes : ∀ c, (d.scopeOf c).Supplied d.routines
  out : d.outScope.Supplied d.routines
  keys : ∀ k ∈ d.keys, Supplied d.routines k.value

theorem stocked_start (schema : Schema) : (start schema).Stocked := by
  refine ⟨?_, ?_, fun c => ?_, ?_, ?_⟩
  · rintro b ⟨⟩
  · rintro b ⟨⟩
  · cases c <;> rintro b ⟨⟩
  · rintro b ⟨⟩
  · rintro k ⟨⟩

theorem Stocked.addKey (h : d.Stocked) (hw : stmt.WellFormed Literal.Spelt) {outputAll : Bool}
    (hr : addKey outputAll d stmt = .ok d') : d'.Stocked := by
  obtain ⟨value, state, i, j, hk⟩ := addKey_eq_ok hr
  obtain ⟨hs, hg, hv⟩ := admitting_stocked.closed.lowerRow (wellFormed_stmtExpr hw) d.keyState
    ⟨h.key, h.row⟩ value state hk.lower
  have hm : d.routines ⊆ d'.routines := by
    rw [hk.routines]
    exact hg.routines
  rw [← hk.routines] at hv
  have hkeyName : isName ("__key" ++ toString i) = true := isName_number (by decide) i
  obtain ⟨hscopes, hout⟩ := hk.spread
    (Q := fun p => isName p.1 = true ∧ SuppliedBinding d'.routines p)
    (fun c => (h.scopes c).mono hm) (h.out.mono hm) ⟨hkeyName, hv.assign _⟩ fun name b hn hb _ =>
      ⟨isName_keyName? hw hn, (supplied_var hkeyName hb.2.nodes).assign name⟩
  refine ⟨?_, ?_, hscopes, hout, fun k hmem => ?_⟩
  · rw [hk.key, hk.routines]
    exact hs.scope
  · rw [hk.row]
    exact h.row.mono hm
  · rcases hk.mem_keys hmem with hmem | rfl
    · exact (h.keys k hmem).mono hm
    · show Supplied _ (grouped value)
      rw [grouped]
      split
      · exact supplied_op _ (forall_mem_cons.2
          ⟨hv, forall_mem_singleton.2 (supplied_const (.str ""))⟩)
      · exact hv

theorem Stocked.addStatement (h : d.Stocked) (hw : stmt.WellFormed Literal.Spelt) {c : Category}
    {source : String} (hr : addStatement c source d stmt = .ok d') : d'.Stocked := by
  obtain ⟨name, value, state, ha⟩ := addStatement_eq_ok hr
  obtain ⟨⟨hscope, hrows⟩, hg, hv⟩ := admitting_stocked.closed.lower
    (fun x _ => closedRows_stocked x) _ (wellFormed_stmtExpr hw) (d.stateOf c)
    ⟨h.scopes c, h.row⟩ value state ha.lower
  have hm : d.routines ⊆ d'.routines := by
    rw [ha.routines]
    exact hg.routines
  rw [← ha.routines] at hv hscope hrows
  obtain ⟨hscopes, hout⟩ := ha.spread
    (Q := fun p => isName p.1 = true ∧ SuppliedBinding d'.routines p)
    (fun c => (h.scopes c).mono hm) (h.out.mono hm) hscope
    ⟨isName_boundName? hw ha.bound, hv.assign name⟩
  refine ⟨?_, ?_, hscopes, hout, fun k hk => ?_⟩
  · rw [ha.key]
    exact h.key.mono hm
  · rw [ha.row]
    exact hrows
  · rw [ha.keys] at hk
    exact (h.keys k hk).mono hm

end Draft

theorem stocked_draft {d : Draft} (h : draft schema key aggregates options = .ok d) : d.Stocked :=
  draft_induct (Q := fun d _ => d.Stocked) h (Draft.stocked_start schema)
    (fun _ hstmt _ _ _ hd hr => hd.addKey (wellFormed_of_mem_statements hstmt) hr)
    fun _ _ _ hstmt _ _ _ hd hr => hd.addStatement (wellFormed_of_mem_statements hstmt) hr

/-! ### Programs of drafts -/

section

variable {G : String → Prop}

theorem callsOnly_lines {β : Type} {l : β → Line} {bs : List β}
    (h : ∀ b ∈ bs, CallsOnly G (l b).text) :
    ∀ i ∈ bs.map fun b => Item.line (l b), i.CallsOnly G := by
  intro i hi
  obtain ⟨b, hb, rfl⟩ := mem_map.1 hi
  exact .line (h b hb)

theorem callsOnly_finishLines {folds : List Fold} (h : ∀ f ∈ folds, SuppliedFold G f) :
    ∀ i ∈ Draft.finishLines folds, i.CallsOnly G := by
  refine callsOnly_lines fun f hf => ?_
  obtain ⟨hf, hsome⟩ := mem_filter.1 hf
  obtain ⟨finish, hfinish⟩ := Option.isSome_iff_exists.1 hsome
  have htext : f.finishText? = some (f.expand finish) := by rw [Fold.finishText?, hfinish, Option.map]
  rw [Line.text, htext]
  exact (h f hf).finish _ htext

/-- Keys are compared and taken over by their names alone. -/
theorem callsOnly_changed {k : Key}
    (h : isName k.name = true ∧ isName k.rowName = true) :
    CallsOnly G k.changed ∧ CallsOnly G k.keep.text := by
  have hrow : CallsOnly G k.rowName := Awk.callsOnly_name h.2
  exact ⟨((Awk.callsOnly_name h.1).marks (by decide)).append hrow, callsOnly_assign h.1 hrow⟩

end

namespace Draft

variable {d : Draft}

/-- The accumulators that a program keeps are as aggregates make them. -/
theorem Stocked.accumulates (h : d.Stocked) {f : Fold} (hf : f ∈ d.folds) :
    Accumulates (Provided d.routines) f.accumulator f.args := by
  obtain ⟨c, hf⟩ := mem_folds.1 hf
  obtain ⟨-, b, hb, ha⟩ := mem_foldsOf hf
  exact ((h.scopes c b hb).2.nodes _ (mem_aggregates.1 ha)).aggregate _ _ rfl

theorem Stocked.callsOnly_helpers (h : d.Stocked) :
    ∀ e ∈ d.helpers, CallsOnly (Provided d.routines) e.text := by
  have statement {s : Scope} (hs : s.Supplied d.routines) {b : String × Expr}
      (hb : b ∈ s.bindings) : CallsOnly (Provided d.routines) b.2.text :=
    (hs b hb).2.statement (hs b hb).1
  intro e he
  obtain ⟨b, hb, rfl⟩ := mem_map.1 he
  rcases mem_append.1 hb with hb | hb
  · exact statement h.key hb
  · exact statement h.row (mem_of_mem_filter hb)

variable {keys : List Key} {print : Awk.Block Line Head}

/-- The names of keys are names. -/
theorem NamedKeys.isName {n : Namer} (h : NamedKeys n keys) {k : Key} (hk : k ∈ keys) :
    isName k.name = true ∧ isName k.rowName = true := by
  obtain ⟨-, i, j, hi, hj, -⟩ := h.named k hk
  rw [hi, hj]
  exact ⟨isName_number (by decide) i, isName_number (by decide) j⟩

theorem callsOnly_takeOver {G : String → Prop} {n : Namer} (h : NamedKeys n keys) :
    ∀ i ∈ keys.map fun k => Item.line (.takeOver k), i.CallsOnly G :=
  callsOnly_lines fun _ hk => (callsOnly_changed (h.isName hk)).2

/-- What happens on a row of another group calls only what is provided. -/
theorem callsOnly_change {routines : List Routine} (hn : NamedKeys d.namer d.keys)
    (hf : ∀ f ∈ d.groupFolds, SuppliedFold (Provided routines) f) (options : Options)
    (hflush : ∀ i ∈ finishLines d.folds ++ print, i.CallsOnly (Provided routines)) :
    Item.CallsOnly (Provided routines) (.head (.keyChanged d.keys) (d.change options print)) := by
  refine .head (callsOnly_if (Awk.callsOnly_intercalate (by decide) fun t ht => ?_)) ?_
  · obtain ⟨k, hk, rfl⟩ := mem_map.1 ht
    exact (callsOnly_changed (hn.isName hk)).1
  · refine forall_mem_append.2 ⟨forall_mem_append.2 ⟨?_, callsOnly_takeOver hn⟩, ?_⟩
    · split
      · exact forall_mem_nil _
      · exact hflush
    · exact callsOnly_lines fun f hm => (hf f hm).init

/-- The lines of a program call only what is provided, if the accumulators keep their delimiters. -/
theorem Stocked.callsOnly_items (h : d.Stocked) (hn : NamedKeys d.namer d.keys)
    (hk : ∀ f ∈ d.folds, KeepsDelimiter f) (options : Options)
    (hp : ∀ i ∈ print, i.CallsOnly (Provided d.routines)) :
    ∀ i ∈ (d.program options print).start ++ (d.program options print).row ++
      (d.program options print).finish, i.CallsOnly (Provided d.routines) := by
  have hfold (f : Fold) (hf : f ∈ d.folds) : SuppliedFold (Provided d.routines) f :=
    (h.accumulates hf).supplied provided_statementWords (hk f hf)
  have hgroup (f : Fold) (hf : f ∈ d.groupFolds) := hfold f (mem_append_left _ hf)
  have hstream (f : Fold) (hf : f ∈ d.streamFolds) := hfold f (mem_append_right _ hf)
  have hflush := forall_mem_append.2 ⟨callsOnly_finishLines hfold, hp⟩
  refine forall_mem_append.2 ⟨forall_mem_append.2 ⟨?start, ?row⟩, ?finish⟩
  case start =>
    have hseparator : CallsOnly (Provided d.routines) "OFS=\"\\t\"" :=
      Awk.callsOnly_of_not_mem (by decide) (by decide)
    refine forall_mem_append.2 ⟨forall_mem_append.2 ⟨?_, ?_⟩, ?_⟩
    · exact forall_mem_singleton.2 (.line hseparator)
    · exact callsOnly_lines fun f hf => (hgroup f hf).init
    · exact callsOnly_lines fun f hf => (hstream f hf).init
  case row =>
    have hfirst : CallsOnly (Provided d.routines) Head.firstRow.text :=
      callsOnly_if (Awk.callsOnly_of_not_mem (t := "NR==1") (by decide) (by decide))
    have hlater : CallsOnly (Provided d.routines) Head.laterRow.text :=
      Awk.callsOnly_name (t := "else") (by decide)
    refine forall_mem_append.2 ⟨forall_mem_append.2 ⟨forall_mem_append.2
      ⟨forall_mem_append.2 ⟨forall_mem_append.2 ⟨?_, ?_⟩, ?_⟩, ?_⟩, ?_⟩, ?_⟩
    · exact callsOnly_lines h.callsOnly_helpers
    · exact callsOnly_lines fun k hk =>
        callsOnly_assign (hn.isName hk).2 (h.keys k hk).text
    · exact forall_mem_cons.2 ⟨.head hfirst (callsOnly_takeOver hn),
        forall_mem_singleton.2 (.head hlater
          (forall_mem_singleton.2 (callsOnly_change hn hgroup options hflush)))⟩
    · exact callsOnly_lines fun f hf => (hgroup f hf).update
    · exact callsOnly_lines fun f hf => (hstream f hf).update
    · split
      · exact hflush
      · exact forall_mem_nil _
  case finish =>
    have hany : CallsOnly (Provided d.routines) Head.anyRow.text :=
      callsOnly_if (Awk.callsOnly_of_not_mem (t := "NR!=0") (by decide) (by decide))
    change ∀ i ∈ (if options.exposeGroups then [] else [Item.head Head.anyRow _]), _
    split
    · exact forall_mem_nil _
    · exact forall_mem_singleton.2 (.head hany hflush)

end Draft

/-- The lines of a compiled group program call only what is provided, if its accumulators keep their
    delimiters. -/
theorem callsOnly_items {c : Compiled} (h : compile schema key aggregates options = .ok c) :
    c.program.routines
        = Routine.requireAll [] (requirements (calls schema key aggregates options)) ∧
      ((∀ f ∈ c.program.start.gather Line.inits, KeepsDelimiter f) →
        ∀ i ∈ c.program.start ++ c.program.row ++ c.program.finish,
          i.CallsOnly (Provided c.program.routines)) := by
  obtain ⟨d, projection, derived, hd, hp, -, rfl⟩ := compile_eq_ok h
  have hstocked := stocked_draft hd
  have hfilter : ∀ e ∈ (none : Option Expr), Supplied d.routines e := by
    rintro e ⟨⟩
  have hprint := Projection.callsOnly_block (fun b hb => (hstocked.out b hb).2) hfilter hp
  refine ⟨routines_draft hd, fun hk => ?_⟩
  rw [(d.inits_start options projection.block).2] at hk
  exact hstocked.callsOnly_items (lawful_draft hd).1.keys hk options hprint

end GroupProgram

end RowAwk.Compile
