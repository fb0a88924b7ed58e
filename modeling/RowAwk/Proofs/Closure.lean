import RowAwk.Proofs.Traces

/-!
One induction over everything that lowering can build.

A property of lowered expressions, together with an invariant of states, is closed if it holds of
the leaves, passes from parts to the whole, and is kept by the three ways in which the function
library binds variables: holding a value, splitting a text, reading a line. Then it holds of
whatever is lowered from a well formed tree. Calls of functions that are not part of awk come with
the routines that define them.

    Closed I K   ──▶   I s,  lower e from s gives (x, s')   ──▶   I s' and K s' x
-/

open List

namespace RowAwk.Compile

open Awk (Aggregate Category Expr)
open Syntax (Literal Stmt isName)

variable {P : Literal → Prop}

/-- How many arguments an operator has where lowering uses it. -/
def Fits : Awk.Op → Nat → Prop
  | .concat, n => 1 ≤ n
  | .and, n | .or, n => 2 ≤ n
  | .juxtapose, _ => False
  | _, n => n = 2

/-- If the library has a function that is a routine under this name, the routine is among those that
    a program brings along, together with the routines that it calls. -/
def Provided (routines : List Awk.Routine) (f : String) : Prop :=
  ∀ r : Awk.Routine, r.name = f → (Function.ofName? f).isSome = true →
    r ∈ routines ∧ r.dependencies ⊆ routines

/-- A property `K` of lowered expressions that, with the invariant `I` of states, is closed under
    all that lowering does with literals of the kind `P`. -/
structure Closed (P : Literal → Prop) (I : State → Prop) (K : State → Expr → Prop) : Prop where
  grows : ∀ {s s' e}, s.Grows s' → K s e → K s' e
  routines : ∀ {s routines}, s.routines ⊆ routines → I s → I { s with routines }
  string : ∀ v, P (.string v)
  digit : ∀ d ∈ ["0", "1", "2"], P (.number d)
  const : ∀ {s v c}, P v → Lowering.constant? v = some c → K s (.const c)
  field : ∀ {s n e}, s.scope.field? n = some e → K s e
  var : ∀ {s n b}, I s → isName n → (n, b) ∈ s.scope.bindings → K s (.var n b)
  word : ∀ {s n}, n ∈ awkVariables → K s (.builtin n)
  call : ∀ {s f args}, isName f → Provided s.routines f → (∀ a ∈ args, K s a) →
    K s (.call f args)
  sign : ∀ {s f a}, f ∈ ["-", "!"] → K s a → K s (.call f [a])
  subscript : ∀ {s base index}, K s base → K s index → K s (.subscript base index)
  op : ∀ {s o args}, Fits o args.length → (∀ a ∈ args, K s a) → K s (.op o args)
  conditional : ∀ {s test yes no}, K s test → K s yes → K s no → K s (.conditional test yes no)
  helper : ∀ {s stem v}, stem ∈ libraryStems → stem ∉ ["_sh", "_spcnt", "_split"] → K s v →
    Lands I s (Lower.helper stem v) K
  split : ∀ {s delim v}, K s delim → K s v →
    Lands I s (Library.split delim v) fun s p => K s p.2 ∧ ∀ i, K s i → K s (.subscript p.1 i)
  shell : ∀ {s c}, K s c → Lands I s (Library.shell c) K

/-- The templates that aggregates have. -/
inductive Templates.Used : Templates → Prop
  | fixed {t} : t ∈ [Templates.ifBest "10^1000000" "<", .ifBest "-10^1000000" ">", .best "<",
      .best ">", .sum, .product, .count, .median, .firstValue, .lastValue] → Used t
  | joined {t} (d : String) : t ∈ [Templates.concat, .concatUniq, .concatSorted,
      .chainConcatUniq] → Used (t (Awk.stringText d))
  | sample (limit : Int) (d : String) : Used (.concatSample limit (Awk.stringText d))

/-- The same for aggregates. Their arguments belong to the rows, where another invariant `J` and
    another property `L` may be closed. -/
structure ClosedRows (P : Literal → Prop) (I J : State → Prop) (K L : State → Expr → Prop)
    (category : Category) : Prop where
  rows : Closed P J L
  flip : ∀ s, I s ↔ J s.flip
  accumulate : ∀ {s a t args}, Templates.Used t → (∀ x ∈ args, L s.flip x) →
    Lands I s (Aggregation.accumulate category a t args) K

variable {I J : State → Prop} {K L : State → Expr → Prop}

/-- Two closed properties are closed together. -/
theorem Closed.both (hK : Closed P I K) (hL : Closed P J L) :
    Closed P (fun s => I s ∧ J s) fun s e => K s e ∧ L s e where
  grows hg h := ⟨hK.grows hg h.1, hL.grows hg h.2⟩
  routines hr h := ⟨hK.routines hr h.1, hL.routines hr h.2⟩
  string := hK.string
  digit := hK.digit
  const hv hc := ⟨hK.const hv hc, hL.const hv hc⟩
  field hf := ⟨hK.field hf, hL.field hf⟩
  var hi hn hm := ⟨hK.var hi.1 hn hm, hL.var hi.2 hn hm⟩
  word hw := ⟨hK.word hw, hL.word hw⟩
  call hf hp ha := ⟨hK.call hf hp fun a h => (ha a h).1, hL.call hf hp fun a h => (ha a h).2⟩
  sign hf ha := ⟨hK.sign hf ha.1, hL.sign hf ha.2⟩
  subscript hb hi := ⟨hK.subscript hb.1 hi.1, hL.subscript hb.2 hi.2⟩
  op ho ha := ⟨hK.op ho fun a h => (ha a h).1, hL.op ho fun a h => (ha a h).2⟩
  conditional ht hy hn := ⟨hK.conditional ht.1 hy.1 hn.1, hL.conditional ht.2 hy.2 hn.2⟩
  helper hs hs' hv := (hK.helper hs hs' hv.1).both (hL.helper hs hs' hv.2)
  split hd hv := by
    refine ((hK.split hd.1 hv.1).both (hL.split hd.2 hv.2)).imp fun p s' _ _ h => ?_
    exact ⟨⟨h.1.1, h.2.1⟩, fun i hi => ⟨h.1.2 i hi.1, h.2.2 i hi.2⟩⟩
  shell hc := (hK.shell hc.1).both (hL.shell hc.2)

/-! ### Helpers -/

/-- Stems of variables that hold a value. -/
abbrev Closed.Holds (stem : String) : Prop := stem ∈ libraryStems ∧ stem ∉ ["_sh", "_spcnt", "_split"]

open Closed (Holds)

/-- Splits a text into an array and counts its parts. -/
def splitting (count array : String) (value delim : Expr) : Expr :=
  .assign count (.call "split" [value, .builtin array, delim])

/-- Reads the first line that a command prints into a name. -/
def reading (name : String) (command : Expr) : Expr :=
  .op .juxtapose [command, .builtin "|", .builtin "getline", .builtin name]

/-- A helper of the compiler's own: its name, and the statement made for the texts that it was named
    for, over parts with the property `K`. -/
inductive Helper (K : Expr → Prop) (E : List (String × String × Nat)) : String → Expr → Prop
  | held {stem v} {i : Nat} : Holds stem → (stem, v.text, i) ∈ E → K v →
      Helper K E (stem ++ toString i) (.assign (stem ++ toString i) v)
  | split {v d} {i j : Nat} : ("_spcnt", Namer.keyOf [v.text, d.text], i) ∈ E →
      ("_split", Namer.keyOf [v.text, d.text], j) ∈ E → K v → K d →
      Helper K E ("_spcnt" ++ toString i)
        (splitting ("_spcnt" ++ toString i) ("_split" ++ toString j) v d)
  | line {c} {i : Nat} : ("_sh", c.text, i) ∈ E → K c →
      Helper K E ("_sh" ++ toString i) (reading ("_sh" ++ toString i) c)

/-- An invariant that naming keys for the library keeps, and binding helpers that are made of parts
    with the property `K`. -/
structure Hosts (I : State → Prop) (K : State → Expr → Prop) : Prop where
  grows : ∀ {s s' e}, s.Grows s' → K s e → K s' e
  named : ∀ {s stem} key, stem ∈ libraryStems → I s → I (s.named stem key)
  bound : ∀ {s name b}, I s → s.scope.binding? name = none →
    Helper (K s) s.namer.entries name b → I (s.bound name b)

/-- Such an invariant under which all references to helpers have the property as well. -/
structure Furnishes (I : State → Prop) (K : State → Expr → Prop) : Prop extends Hosts I K where
  held : ∀ {s stem b} {i : Nat}, I s → stem ∈ libraryStems →
    (stem ++ toString i, b) ∈ s.scope.bindings → K s (.var (stem ++ toString i) b)
  element : ∀ {s key b x} {i j : Nat}, I s → ("_spcnt", key, i) ∈ s.namer.entries →
    ("_split", key, j) ∈ s.namer.entries → ("_spcnt" ++ toString i, b) ∈ s.scope.bindings → K s x →
    K s (.subscript (.sideEffect ("_split" ++ toString j) (.var ("_spcnt" ++ toString i) b)) x)
  line : ∀ {s key b} {i : Nat}, I s → ("_sh", key, i) ∈ s.namer.entries →
    ("_sh" ++ toString i, b) ∈ s.scope.bindings →
    K s (.sideEffect ("_sh" ++ toString i) (.var ("_sh" ++ toString i) b))

section

variable {I : State → Prop} {K : State → Expr → Prop} {s : State} {stem : String} {v d c : Expr}

/-- Whoever asks to hold a value gets the value, if it is a column, or a helper named for it. -/
theorem Hosts.hold (h : Hosts I K) (hs : Holds stem) (hv : K s v) :
    Lands I s (Lower.helper stem v) fun s e => v.isField = true ∧ e = v ∨
      v.isField = false ∧ ∃ (i : Nat) (b : Expr), (stem, v.text, i) ∈ s.namer.entries ∧
        s.scope.binding? (stem ++ toString i) = some b ∧ e = .var (stem ++ toString i) b := by
  rw [Lower.helper]
  split
  · rename_i hf
    exact lands_pure fun _ => .inl ⟨hf, rfl⟩
  · rename_i hf
    refine (lands_nameFor (h.named _ hs.1)).bind fun name s₁ hg₁ _ hname => ?_
    obtain ⟨i, rfl, hi⟩ := hname
    refine (lands_bindHelper fun hI hn => h.bound hI hn (.held hs hi (h.grows hg₁ hv))).imp
      fun e s₂ hg₂ _ he => ?_
    obtain ⟨b, rfl, hb⟩ := he
    exact .inr ⟨Bool.eq_false_iff.2 hf, i, b, hg₂.namer.subset hi, hb, rfl⟩

/-- Whoever asks to split a value gets a helper for the number of parts, and an array. -/
theorem Hosts.part (h : Hosts I K) (hd : K s d) (hv : K s v) :
    Lands I s (Library.split d v) fun s p => ∃ (i j : Nat) (b : Expr),
      ("_spcnt", Namer.keyOf [v.text, d.text], i) ∈ s.namer.entries ∧
      ("_split", Namer.keyOf [v.text, d.text], j) ∈ s.namer.entries ∧
      s.scope.binding? ("_spcnt" ++ toString i) = some b ∧
      p = (.sideEffect ("_split" ++ toString j) (.var ("_spcnt" ++ toString i) b),
        .var ("_spcnt" ++ toString i) b) := by
  refine (lands_nameFor (h.named _ (by decide))).bind fun count s₁ hg₁ _ hcount => ?_
  refine (lands_nameFor (h.named _ (by decide))).bind fun array s₂ hg₂ _ harray => ?_
  obtain ⟨i, rfl, hi⟩ := hcount
  obtain ⟨j, rfl, hj⟩ := harray
  have hi := hg₂.namer.subset hi
  have hg := hg₁.trans hg₂
  refine (lands_bindHelper fun hI hn =>
    h.bound hI hn (.split hi hj (h.grows hg hv) (h.grows hg hd))).bind fun e s₃ hg₃ _ he => ?_
  obtain ⟨b, rfl, hb⟩ := he
  exact lands_pure fun _ => ⟨i, j, b, hg₃.namer.subset hi, hg₃.namer.subset hj, hb, rfl⟩

/-- Whoever asks for the line of a command gets a name that the line is read into. -/
theorem Hosts.fetch (h : Hosts I K) (hc : K s c) :
    Lands I s (Library.shell c) fun s e => ∃ (i : Nat) (b : Expr),
      ("_sh", c.text, i) ∈ s.namer.entries ∧ s.scope.binding? ("_sh" ++ toString i) = some b ∧
      e = .sideEffect ("_sh" ++ toString i) (.var ("_sh" ++ toString i) b) := by
  refine (lands_nameFor (h.named _ (by decide))).bind fun name s₁ hg₁ _ hname => ?_
  obtain ⟨i, rfl, hi⟩ := hname
  refine (lands_bindHelper fun hI hn => h.bound hI hn (.line hi (h.grows hg₁ hc))).bind
    fun e s₂ hg₂ _ he => ?_
  obtain ⟨b, rfl, hb⟩ := he
  exact lands_pure fun _ => ⟨i, b, hg₂.namer.subset hi, hb, rfl⟩

theorem Furnishes.helper (h : Furnishes I K) (hs : Holds stem) (hv : K s v) :
    Lands I s (Lower.helper stem v) K := by
  intro hi e s' hr
  obtain ⟨hi', hg, ⟨-, rfl⟩ | ⟨-, i, b, -, hb, rfl⟩⟩ := h.hold hs hv hi e s' hr
  · exact ⟨hi', hg, h.grows hg hv⟩
  · exact ⟨hi', hg, h.held hi' hs.1 (Scope.mem_of_binding? hb)⟩

theorem Furnishes.split (h : Furnishes I K) (hd : K s d) (hv : K s v) :
    Lands I s (Library.split d v) fun s p =>
      K s p.2 ∧ ∀ x, K s x → K s (.subscript p.1 x) := by
  intro hi p s' hr
  obtain ⟨hi', hg, i, j, b, hcount, harray, hb, rfl⟩ := h.part hd hv hi p s' hr
  have hb := Scope.mem_of_binding? hb
  exact ⟨hi', hg, h.held hi' (by decide) hb, fun x => h.element hi' hcount harray hb⟩

theorem Furnishes.shell (h : Furnishes I K) (hc : K s c) : Lands I s (Library.shell c) K := by
  intro hi e s' hr
  obtain ⟨hi', hg, i, b, hline, hb, rfl⟩ := h.fetch hc hi e s' hr
  exact ⟨hi', hg, h.line hi' hline (Scope.mem_of_binding? hb)⟩

end

/-! ### Arguments of calls -/

namespace Signature

variable {α : Type} {P : α → Prop}

/-- The arguments that parameters have got so far all have a property. -/
def AllFilled (P : α → Prop) (slots : List (Slot α)) : Prop :=
  ∀ p v, (p, some v) ∈ slots → P v

theorem allFilled_slots : ∀ {ps : List String} {es : List α}, (∀ e ∈ es, P e) →
    AllFilled P (slots ps es)
  | [], _, _ => fun _ _ h => by cases h
  | p :: ps, [], he => by
    intro q v h
    rcases mem_cons.1 h with h | h
    · cases h
    · exact allFilled_slots he q v h
  | p :: ps, e :: es, he => by
    intro q v h
    rcases mem_cons.1 h with h | h
    · cases h
      exact he e mem_cons_self
    · exact allFilled_slots (fun x hx => he x (mem_cons_of_mem e hx)) q v h

theorem allFilled_fill {name : String} {value : α} (hv : P value) :
    ∀ {slots filled : List (Slot α)}, AllFilled P slots → fill name value slots = .ok filled →
      AllFilled P filled
  | [], _, _, h => by cases h
  | (p, v) :: rest, filled, hs, h => by
    have hrest : AllFilled P rest := fun q w hw => hs q w (mem_cons_of_mem _ hw)
    unfold fill at h
    split at h
    · split at h
      · cases h
      · cases h
        intro q w hw
        rcases mem_cons.1 hw with hw | hw
        · cases hw
          exact hv
        · exact hrest q w hw
    · obtain ⟨filled', hf, rfl⟩ := except_map_eq_ok.1 h
      intro q w hw
      rcases mem_cons.1 hw with hw | hw
      · exact hs q w (hw ▸ mem_cons_self)
      · exact allFilled_fill hv hrest hf q w hw

theorem allFilled_fillAll : ∀ {named : List (String × α)} {slots filled : List (Slot α)},
    (∀ p ∈ named, P p.2) → AllFilled P slots → fillAll named slots = .ok filled →
      AllFilled P filled
  | [], _, _, _, hs, h => by
    cases h
    exact hs
  | (name, value) :: rest, slots, filled, hn, hs, h => by
    rw [fillAll] at h
    obtain ⟨one, hf, h⟩ := except_bind_eq_ok.1 h
    have hone := allFilled_fill (hn (name, value) mem_cons_self) hs hf
    exact allFilled_fillAll (fun p hp => hn p (mem_cons_of_mem _ hp)) hone h

theorem forall_collect : ∀ {slots : List (Slot α)} {values : List α}, AllFilled P slots →
    collect slots = .ok values → ∀ v ∈ values, P v
  | [], _, _, h => by
    cases h
    intro v hv
    cases hv
  | (_, none) :: _, _, _, h => by cases h
  | (p, some value) :: rest, values, hs, h => by
    obtain ⟨values', hc, rfl⟩ := except_map_eq_ok.1 h
    intro v hv
    rcases mem_cons.1 hv with rfl | hv
    · exact hs p v mem_cons_self
    · exact forall_collect (fun q w hw => hs q w (mem_cons_of_mem _ hw)) hc v hv

/-- Matching arguments to parameters makes nothing up. -/
theorem forall_bind {s : Signature} {positional : List α} {named : List (String × α)} {b : Bound α}
    (hp : ∀ e ∈ positional, P e) (hn : ∀ p ∈ named, P p.2)
    (h : s.bind positional named = .ok b) : (∀ v ∈ b.values, P v) ∧ ∀ v ∈ b.rest, P v := by
  rw [bind] at h
  split at h
  · cases h
  · split at h
    · cases h
    · rename_i filled hf
      split at h
      · cases h
      · rename_i values hc
        cases h
        refine ⟨forall_collect (allFilled_fillAll hn (allFilled_slots hp) hf) hc, fun v hv => ?_⟩
        exact hp v (mem_of_mem_drop hv)

end Signature

/-! ### The function library -/

namespace Provided

variable {routines more : List Awk.Routine} {f : String}

theorem mono (h : Provided routines f) (hm : routines ⊆ more) : Provided more f := by
  intro r hr hf
  obtain ⟨hmem, hdeps⟩ := h r hr hf
  exact ⟨hm hmem, fun d hd => hm (hdeps hd)⟩

theorem of_ofName? (h : Function.ofName? f = none) : Provided routines f := by
  intro r _ hf
  rw [h] at hf
  cases hf

theorem of_mem {r : Awk.Routine} (hr : r ∈ routines) (hd : r.dependencies ⊆ routines) :
    Provided routines r.name := by
  intro q hq _
  have hinj : ∀ q r : Awk.Routine, q.name = r.name → q = r := by
    intro q r
    cases q <;> cases r <;> decide
  obtain rfl := hinj q r hq
  exact ⟨hr, hd⟩

theorem required (r : Awk.Routine) : Provided (r.require routines) r.name :=
  of_mem (Awk.Routine.mem_require.2 (.inr (.inl rfl)))
    fun _ hd => Awk.Routine.mem_require.2 (.inr (.inr hd))

end Provided

namespace Closed

variable {P : Literal → Prop} {I : State → Prop} {K : State → Expr → Prop}
variable {s : State}

theorem constString (h : Closed P I K) (s : State) (v : String) : K s (.string v) :=
  h.const (h.string v) rfl

theorem constInt (h : Closed P I K) (s : State) (d : String) {n : Int} (hd : d ∈ ["0", "1", "2"])
    (hc : Lowering.constant? (.number d) = some (.int n)) : K s (.int n) :=
  h.const (h.digit d hd) hc

theorem op₂ (h : Closed P I K) {o : Awk.Op} (ho : Fits o 2) {a b : Expr} (ha : K s a) (hb : K s b) :
    K s (.op o [a, b]) :=
  h.op ho (by simp [ha, hb])

variable {b : Bound Expr} {args : List Expr} {delim : Expr}

/-- A call of a function that the library does not have. -/
theorem plainCall (h : Closed P I K) {f : String} (hf : isName f) (hn : Function.ofName? f = none)
    (ha : ∀ a ∈ args, K s a) : K s (.call f args) :=
  h.call hf (.of_ofName? hn) ha

/-- A call that rewrites a text by a pattern. -/
theorem gensub (h : Closed P I K) (pattern replacement how : String) {x : Expr} (hx : K s x) :
    K s (.call "gensub" [.string pattern, .string replacement, .string how, x]) :=
  h.plainCall (by decide) (by decide) (by simp [h.constString s, hx])

theorem arg (h : Closed P I K) (hv : ∀ v ∈ b.values, K s v) (i : Nat) : K s (Library.arg b i) := by
  rw [Library.arg, getD_eq_getElem?_getD]
  cases hi : b.values[i]? with
  | none => exact h.constString s ""
  | some v => exact hv v (mem_of_getElem? hi)

theorem comparisonTree (h : Closed P I K) {f : Function} {o : Awk.Op} (hf : Holds ("_" ++ f.name))
    (ho : Fits o 2) (values : List Expr) (s : State) (hv : ∀ v ∈ values, K s v) :
    Lands I s (Library.comparisonTree f o values) K := by
  induction values using Library.comparisonTree.induct generalizing s with
  | case1 =>
    rw [Library.comparisonTree]
    exact lands_fail
  | case2 value =>
    rw [Library.comparisonTree]
    exact h.helper hf.1 hf.2 (hv value mem_cons_self)
  | case3 a b more half ihl ihr =>
    rw [Library.comparisonTree]
    refine (ihl s fun v hm => hv v (mem_of_mem_take hm)).bind fun left s₁ hg₁ _ hl => ?_
    refine (ihr s₁ fun v hm => h.grows hg₁ (hv v (mem_of_mem_drop hm))).bind
      fun right s₂ hg₂ _ hr => ?_
    have hl := h.grows hg₂ hl
    exact lands_pure fun _ => h.conditional (h.op₂ ho hl hr) hl hr

theorem absolute (h : Closed P I K) {v : Expr} (hv : K s v) : Lands I s (Library.absolute v) K := by
  refine (h.helper (by decide) (by decide) hv).bind fun x s' _ _ hx => ?_
  refine lands_pure fun _ => h.conditional ?_ (h.sign (by decide) hx) hx
  exact h.op₂ (o := .less) rfl hx (h.constInt s' "0" (by decide) (by decide))

theorem require (h : Closed P I K) (r : Awk.Routine) (s : State) :
    Lands I s (Lower.require r) fun s _ => Provided s.routines r.name := by
  intro hi u s' hr
  obtain rfl := Lower.require_eq_ok.1 hr
  have hg := s.grows_required r
  exact ⟨h.routines hg.routines hi, hg, .required r⟩

theorem lookUp (h : Closed P I K) {r : Awk.Routine} (hn : isName r.name)
    (hr : Holds ("_" ++ r.name)) (ha : ∀ a ∈ args, K s a) :
    Lands I s (Library.lookUp r args) K := by
  refine (h.require r s).bind fun _ s₁ hg _ hp => ?_
  have held : Lands I s₁ (args.mapM (Lower.helper ("_" ++ r.name)))
      fun s held => held.length = args.length ∧ ∀ a ∈ held, K s a :=
    lands_mapM (P := K) (Q := K) (fun _ _ _ hg => h.grows hg) (fun _ _ _ hg => h.grows hg)
      (fun _ _ _ ha => h.helper hr.1 hr.2 ha) fun a hm => h.grows hg (ha a hm)
  exact held.bind fun held s₂ hg₂ _ hheld =>
    lands_pure fun _ => h.call hn (hp.mono hg₂.routines) hheld.2

theorem strip (h : Closed P I K) {v : Expr} (hv : K s v) : Lands I s (Library.strip v) K := by
  refine (h.helper (by decide) (by decide) hv).bind fun x s' _ _ hx => ?_
  exact lands_pure fun _ => h.gensub _ _ _ hx

theorem mem_of_mem_intersperse {a : Expr} : ∀ {values : List Expr},
    a ∈ values.intersperse delim → a = delim ∨ a ∈ values
  | [], h => by cases h
  | [_], h => .inr h
  | v :: w :: vs, h => by
    rw [intersperse_cons_cons] at h
    rcases mem_cons.1 h with rfl | h
    · exact .inr mem_cons_self
    · rcases mem_cons.1 h with rfl | h
      · exact .inl rfl
      · exact (mem_of_mem_intersperse h).imp_right (mem_cons_of_mem v)

theorem join (h : Closed P I K) {values : List Expr} (hd : K s delim) (hv : ∀ v ∈ values, K s v) :
    K s (Library.join delim values) := by
  rw [Library.join]
  split
  · exact h.constString s ""
  · rename_i hne
    cases values with
    | nil => exact absurd rfl hne
    | cons v vs =>
      refine h.op ?_ fun a ha => ?_
      · cases vs <;> simp [Fits, List.intersperse]
      · rcases mem_of_mem_intersperse ha with rfl | ha
        · exact hd
        · exact hv a ha

theorem strptime (h : Closed P I K) (format : Expr) {time : Expr} (ht : K s time) :
    Lands I s (Library.strptime format time) K := by
  rw [Library.strptime]
  split
  · exact lands_fail
  · split
    · exact lands_fail
    · refine lands_pure fun _ => h.plainCall (by decide) (by decide) fun a ha => ?_
      cases mem_singleton.1 ha
      exact h.gensub _ _ _ ht

/-- A call of the library gives a lowered expression if its arguments are lowered. -/
theorem expand (h : Closed P I K) (f : Function) (hv : ∀ v ∈ b.values, K s v)
    (hr : ∀ v ∈ b.rest, K s v) : Lands I s (Library.expand f b) K := by
  have harg := h.arg hv
  cases f with
  | abs => exact h.absolute (harg 0)
  | crc32 | isInFile | mapFromFile => exact h.lookUp (by decide) (by decide) (by simp [harg])
  | domain | netlocator => exact lands_pure fun _ => h.gensub _ _ _ (harg 0)
  | join => exact lands_pure fun _ => h.join (harg 0) hr
  | max => exact h.comparisonTree (o := .greater) (by decide) rfl b.rest s hr
  | min => exact h.comparisonTree (o := .less) (by decide) rfl b.rest s hr
  | shell => exact h.shell (harg 0)
  | strip => exact h.strip (harg 0)
  | strptime => exact h.strptime _ (harg 1)
  | uniq =>
    refine (h.require .uniq s).bind fun _ s₁ hg₁ _ hp => ?_
    refine (h.helper (by decide) (by decide) (h.grows hg₁ (harg 1))).bind fun x s₂ hg₂ _ hx => ?_
    have hd := h.grows (hg₁.trans hg₂) (harg 0)
    exact lands_pure fun _ => h.call (by decide) (hp.mono hg₂.routines) (by simp [hd, hx])
  | unjoin =>
    refine (h.split (harg 0) (harg 1)).bind fun p s₁ hg₁ _ hp => ?_
    have hi := h.grows hg₁ (harg 2)
    refine lands_pure fun _ => hp.2 _ (h.op₂ (o := .add) rfl hi ?_)
    exact h.constInt s₁ "1" (by decide) (by decide)
  | unjoinCount =>
    refine (h.split (harg 0) (harg 1)).bind fun p s₁ _ _ hp => ?_
    exact lands_pure fun _ => hp.1

end Closed

/-! ### Aggregates -/

/-- How aggregates come about: `T` holds of their templates, `L` of the arguments, and `K` of all
    that is made from accumulators. -/
structure Accumulating (I : State → Prop) (K L : State → Expr → Prop) (T : Templates → Prop)
    (category : Category) : Prop where
  fixed : ∀ t ∈ [Templates.ifBest "10^1000000" "<", .ifBest "-10^1000000" ">", .best "<", .best ">",
    .sum, .product, .count, .median, .firstValue, .lastValue], T t
  joined : ∀ d, ∀ t ∈ [Templates.concat, .concatUniq, .concatSorted, .chainConcatUniq],
    T (t (Awk.stringText d))
  sample : ∀ limit d, T (.concatSample limit (Awk.stringText d))
  accumulate : ∀ {s a t args}, T t → (∀ x ∈ args, L s x) →
    Lands I s (Aggregation.accumulate category a t args) K
  grows : ∀ {s s' e}, s.Grows s' → K s e → K s' e
  growsArg : ∀ {s s' e}, s.Grows s' → L s e → L s' e
  square : ∀ {s x}, L s x → L s (.op .pow [x, .int 2])
  two : ∀ s, K s (.int 2)
  op₂ : ∀ {s o x y}, o ∈ [Awk.Op.div, .sub, .pow] → K s x → K s y → K s (.op o [x, y])

namespace Accumulating

variable {I : State → Prop} {K L : State → Expr → Prop} {T : Templates → Prop} {c : Category}
variable {s : State} {args : List Expr}

theorem expectArgs (a : Aggregate) (args : List Expr) (count : Nat) :
    Lands I s (Aggregation.expectArgs a args count) fun _ _ => True := by
  rw [Aggregation.expectArgs]
  split
  · exact lands_pure fun _ => trivial
  · exact lands_fail

theorem delimited (a : Aggregate) (args : List Expr) (required : Nat) :
    Lands I s (Aggregation.delimited a args required) fun _ p =>
      (∀ x ∈ p.1, x ∈ args) ∧ ∃ d, p.2 = Awk.stringText d := by
  rw [Aggregation.delimited]
  split
  · exact lands_pure fun _ => ⟨fun x hx => hx, _, rfl⟩
  · split
    · split
      · exact lands_pure fun _ => ⟨fun x hx => hx, _, rfl⟩
      · split
        · exact lands_pure fun _ => ⟨fun x hx => mem_of_mem_dropLast hx, _, rfl⟩
        · exact lands_fail
    · exact lands_fail

/-- An aggregate with so many arguments and fixed templates. -/
theorem plain (h : Accumulating I K L T c) (a : Aggregate) (count : Nat) {t : Templates} (ht : T t)
    (ha : ∀ x ∈ args, L s x) :
    Lands I s (do
      Aggregation.expectArgs a args count
      Aggregation.accumulate c a t args) K := by
  refine (expectArgs a args count).bind fun _ s₁ hg _ _ => ?_
  exact h.accumulate ht fun x hx => h.growsArg hg (ha x hx)

/-- An aggregate whose templates have a delimiter. -/
theorem joining (h : Accumulating I K L T c) (a : Aggregate) {t : String → Templates}
    (ht : t ∈ [Templates.concat, .concatUniq, .concatSorted, .chainConcatUniq])
    (ha : ∀ x ∈ args, L s x) :
    Lands I s (do
      let (args, delim) ← Aggregation.delimited a args 1
      Aggregation.accumulate c a (t delim) args) K := by
  refine (delimited a args 1).bind fun ⟨more, delim⟩ s₁ hg _ hp => ?_
  obtain ⟨hmore, d, rfl⟩ := hp
  exact h.accumulate (h.joined d t ht) fun x hx => h.growsArg hg (ha x (hmore x hx))

theorem expand (h : Accumulating I K L T c) (a : Aggregate) (ha : ∀ x ∈ args, L s x) :
    Lands I s (Aggregation.expand c a args) K := by
  cases a with
  | ifMin | ifMax | min | max | sum | product | median | first | last =>
    exact h.plain _ _ (h.fixed _ (by simp)) ha
  | cnt =>
    refine (expectArgs _ args 0).bind fun _ s₁ _ _ _ => ?_
    exact h.accumulate (h.fixed _ (by simp)) fun x hx => by cases hx
  | concat | concatUniq | concatSorted | chainConcatUniq => exact h.joining _ (by simp) ha
  | avg =>
    refine (expectArgs _ args 1).bind fun _ s₁ hg₁ _ _ => ?_
    refine (h.accumulate (h.fixed _ (by simp)) fun x hx => h.growsArg hg₁ (ha x hx)).bind
      fun sum s₂ hg₂ _ hsum => ?_
    refine (h.accumulate (h.fixed _ (by simp)) fun x hx => by cases hx).bind
      fun count s₃ hg₃ _ hcount => ?_
    exact lands_pure fun _ => h.op₂ (by simp) (h.grows hg₃ hsum) hcount
  | var =>
    refine (expectArgs _ args 1).bind fun _ s₁ hg₁ _ _ => ?_
    have squared : ∀ x ∈ args.map fun x => Expr.op .pow [x, .int 2], L s₁ x := by
      intro y hy
      obtain ⟨x, hx, rfl⟩ := mem_map.1 hy
      exact h.square (h.growsArg hg₁ (ha x hx))
    refine (h.accumulate (h.fixed _ (by simp)) squared).bind fun squares s₂ hg₂ _ hsq => ?_
    refine (h.accumulate (h.fixed _ (by simp)) fun x hx =>
      h.growsArg (hg₁.trans hg₂) (ha x hx)).bind fun sum s₃ hg₃ _ hsum => ?_
    refine (h.accumulate (h.fixed _ (by simp)) fun x hx => by cases hx).bind
      fun count s₄ hg₄ _ hcount => ?_
    have hmean := h.op₂ (o := .div) (by simp) (h.grows hg₄ hsum) hcount
    refine lands_pure fun _ => h.op₂ (by simp) ?_ (h.op₂ (by simp) hmean (h.two s₄))
    exact h.op₂ (by simp) (h.grows (hg₃.trans hg₄) hsq) hcount
  | concatSample =>
    refine (delimited _ args 2).bind fun ⟨more, delim⟩ s₁ hg _ hp => ?_
    obtain ⟨hmore, d, rfl⟩ := hp
    dsimp only
    split
    · exact h.accumulate (h.sample _ d) fun x hx =>
        h.growsArg hg (ha x (hmore x (mem_of_mem_dropLast hx)))
    · exact lands_fail

end Accumulating

namespace ClosedRows

variable {P : Literal → Prop} {I J : State → Prop} {K L : State → Expr → Prop} {c : Category}
variable {s : State} {args : List Expr}

theorem accumulating (h : Closed P I K) (hr : ClosedRows P I J K L c) :
    Accumulating I K (fun s x => L s.flip x) Templates.Used c where
  fixed _ ht := .fixed ht
  joined d _ ht := .joined d ht
  sample := .sample
  accumulate ht ha := hr.accumulate ht ha
  grows hg hx := h.grows hg hx
  growsArg hg hx := hr.rows.grows hg.flip hx
  square hx := hr.rows.op₂ (o := .pow) rfl hx (hr.rows.constInt _ "2" (by decide) (by decide))
  two s := h.constInt s "2" (by decide) (by decide)
  op₂ {s o x y} ho hx hy := h.op₂ (by fin_cases ho <;> rfl) hx hy

theorem expand (h : Closed P I K) (hr : ClosedRows P I J K L c) (a : Aggregate)
    (ha : ∀ x ∈ args, L s.flip x) : Lands I s (Aggregation.expand c a args) K :=
  (hr.accumulating h).expand a ha

end ClosedRows

/-! ### Lowering -/

theorem wellFormed_parseSource {source : String} {stmts : List Stmt}
    (h : parseSource source = .ok stmts) : ∀ s ∈ stmts, s.WellFormed Syntax.Literal.Spelt := by
  rw [parseSource] at h
  split at h
  · rename_i hp
    cases h
    exact Syntax.wellFormed_parseAll hp
  · cases h

namespace Closed

variable {P : Literal → Prop} {I : State → Prop} {K : State → Expr → Prop}
variable {s : State} {x : Expr}

theorem resolve (h : Closed P I K) {n : String} (hn : isName n) :
    Lands I s (Lowering.resolve n) K := by
  intro hi e s' hr
  obtain ⟨rfl, ⟨hf, -⟩ | ⟨-, b, hb, rfl⟩ | ⟨-, -, hw, rfl⟩⟩ := Lower.resolve_cases hr
  · exact ⟨hi, .refl _, h.field hf⟩
  · exact ⟨hi, .refl _, h.var hi hn (Scope.mem_of_binding? hb)⟩
  · exact ⟨hi, .refl _, h.word hw⟩

theorem unary (h : Closed P I K) (op : Syntax.UnaryOp) (hx : K s x) :
    K s (Lowering.unary op x) := by
  cases op with
  | negate | not => exact h.sign (by decide) hx
  | complement => exact h.plainCall (by decide) (by decide) (by simp [hx])

theorem binary (h : Closed P I K) (op : Syntax.BinaryOp) {y : Expr} (hx : K s x) (hy : K s y) :
    K s (Lowering.binary op x y) := by
  cases op with
  | add | sub | mul | div | mod | pow => exact h.op₂ (by rfl) hx hy
  | floorDiv =>
    exact h.plainCall (by decide) (by decide) (by simp [h.op₂ (o := .div) rfl hx hy])
  | bitAnd | bitOr | shiftLeft | shiftRight =>
    exact h.plainCall (by decide) (by decide) (by simp [hx, hy])

theorem comparison (h : Closed P I K) {op : Syntax.CompareOp} {o : Awk.Op}
    (ho : Lowering.comparison? op = some o) {y : Expr} (hx : K s x) (hy : K s y) :
    K s (.op o [x, y]) := by
  refine h.op₂ ?_ hx hy
  cases op <;> cases ho <;> rfl

theorem membership (h : Closed P I K) (op : Syntax.CompareOp) (hx : K s x) {items : List Expr}
    (hi : ∀ i ∈ items, K s i) (hne : items ≠ []) : K s (Lowering.membership op x items) := by
  unfold Lowering.membership
  split
  rename_i test glue heq
  have hfits : Fits test 2 ∧ ∀ n, 2 ≤ n → Fits glue n := by
    cases op <;> cases heq <;> exact ⟨rfl, fun _ hn => hn⟩
  have htests : ∀ t ∈ items.map (fun item => Expr.op test [x, item]), K s t := by
    intro t ht
    obtain ⟨i, hm, rfl⟩ := mem_map.1 ht
    exact h.op₂ hfits.1 hx (hi i hm)
  split
  · rename_i single hsingle
    exact htests single (hsingle ▸ mem_cons_self)
  · rename_i hmore
    refine h.op (hfits.2 _ ?_) htests
    rw [length_map]
    cases items with
    | nil => exact absurd rfl hne
    | cons i rest =>
      cases rest with
      | nil => exact absurd rfl (hmore _)
      | cons j rest => simp

end Closed

/-! ### Along a lowering -/

/-- All of some calls have a property in a state. -/
def AllCalls (G : Namer → Call → Prop) (cs : List Call) (s : State) : Prop :=
  ∀ c ∈ cs, G s.namer c

/-- A property of calls that the growth of a namer keeps, and that expanding a call of the library
    gives from the invariant `I` and arguments with the property `K`. -/
structure Observed (I : State → Prop) (K : State → Expr → Prop) (G : Namer → Call → Prop) :
    Prop where
  grows : ∀ n n' c, n.entries <+: n'.entries → G n c → G n' c
  library : ∀ {s f b}, (∀ v ∈ b.values, K s v) → (∀ v ∈ b.rest, K s v) →
    Lands I s (Library.expand f b) fun s' x => G s'.namer (.library f b x s')

/-- The same for aggregates, whose arguments belong to the rows. -/
structure ObservedRows (I J : State → Prop) (L : State → Expr → Prop) (G : Namer → Call → Prop)
    (category : Category) : Prop where
  rows : Observed J L G
  aggregate : ∀ {s a args}, (∀ v ∈ args, L s.flip v) →
    Lands I s (Aggregation.expand category a args) fun s' x =>
      G s'.namer (.aggregate category a args x s')

/-- Nothing is to be observed. -/
theorem Closed.observed (h : Closed P I K) : Observed I K fun _ _ => True where
  grows _ _ _ _ _ := trivial
  library hv hr := (h.expand _ hv hr).imp fun _ _ _ _ _ => trivial

theorem ClosedRows.observed {c : Category} (h : Closed P I K) (hr : ClosedRows P I J K L c) :
    ObservedRows I J L (fun _ _ => True) c where
  rows := hr.rows.observed
  aggregate ha := (ClosedRows.expand h hr _ ha).imp fun _ _ _ _ _ => trivial

theorem allWellFormed_keywords :
    ∀ {ks : List (Syntax.KeywordArg Syntax.Expr)}, Syntax.Expr.KeywordsWellFormed P ks →
      Syntax.Expr.AllWellFormed P (ks.map Syntax.KeywordArg.value)
  | [], _ => trivial
  | ⟨_, _⟩ :: _, h => ⟨h.1, allWellFormed_keywords h.2⟩

/-- Whatever is lowered from well formed trees has a closed property, and the calls on the way have
    an observed one. -/
theorem Lowering.Lowers.closed {G : Namer → Call → Prop} {category : Option Category}
    {es : List Syntax.Expr} {s t : State} {xs : List Expr} {cs : List Call}
    {I J : State → Prop} {K L : State → Expr → Prop} (hl : Lowers category es s xs t cs)
    (h : Closed P I K) (hr : ∀ c, category = some c → ClosedRows P I J K L c)
    (ho : Observed I K G) (hor : ∀ c, category = some c → ObservedRows I J L G c)
    (he : Syntax.Expr.AllWellFormed P es) (hi : I s) :
    I t ∧ s.Grows t ∧ xs.length = es.length ∧ (∀ x ∈ xs, K t x) ∧ AllCalls G cs t := by
  induction hl generalizing I J K L with
  | nil =>
    exact ⟨hi, .refl _, rfl, forall_mem_nil _, forall_mem_nil _⟩
  | cons _ _ ihx ihxs =>
    obtain ⟨hi, hg, -, hx, hcs⟩ := ihx h hr ho hor ⟨he.1, trivial⟩ hi
    obtain ⟨hi, hg', hlen, hxs, hds⟩ := ihxs h hr ho hor he.2 hi
    refine ⟨hi, hg.trans hg', by simp [hlen], forall_mem_cons.2 ⟨?_, hxs⟩,
      forall_mem_append.2 ⟨fun c hc => ho.grows _ _ c hg'.namer (hcs c hc), hds⟩⟩
    exact h.grows hg' (hx _ mem_cons_self)
  | literal hk =>
    exact ⟨hi, .refl _, rfl, forall_mem_singleton.2 (h.const he.1 hk), forall_mem_nil _⟩
  | name hx =>
    obtain ⟨hi, hg, hx⟩ := h.resolve he.1 hi _ _ hx
    exact ⟨hi, hg, rfl, forall_mem_singleton.2 hx, forall_mem_nil _⟩
  | tuple hne _ ih =>
    obtain ⟨hi, hg, hlen, hxs, hcs⟩ := ih h hr ho hor he.1 hi
    refine ⟨hi, hg, rfl, forall_mem_singleton.2 (h.op ?_ hxs), hcs⟩
    rw [hlen]
    exact length_pos_iff.2 hne
  | @aggregate c _ _ a _ _ _ _ x u _ _ _ hx ih =>
    have hrows := hr c rfl
    obtain ⟨hj, hg, -, hxs, hcs⟩ := ih (J := J) (L := L) hrows.rows (fun _ hc => by cases hc)
      (hor c rfl).rows (fun _ hc => by cases hc) he.1.2.1 ((hrows.flip _).1 hi)
    have hi := (hrows.flip _).2 hj
    obtain ⟨-, -, hcall⟩ := (hor c rfl).aggregate hxs hi x u hx
    obtain ⟨hi, hg', hx⟩ := ClosedRows.expand h hrows a hxs hi x u hx
    refine ⟨hi, hg.flip.trans hg', rfl, forall_mem_singleton.2 hx, forall_mem_append.2
      ⟨fun c hc => ho.grows _ _ c hg'.namer (hcs c hc), forall_mem_singleton.2 hcall⟩⟩
  | plain hf _ ih =>
    obtain ⟨hi, hg, -, hxs, hcs⟩ := ih h hr ho hor he.1.2.1 hi
    exact ⟨hi, hg, rfl, forall_mem_singleton.2 (h.plainCall he.1.1 hf hxs), hcs⟩
  | @library _ _ _ f _ _ _ _ _ _ _ b x v _ _ _ _ _ hb hx ihxs ihys =>
    obtain ⟨hi, hg, -, hxs, hcs⟩ := ihxs h hr ho hor he.1.2.1 hi
    obtain ⟨hi, hg', -, hys, hds⟩ := ihys h hr ho hor (allWellFormed_keywords he.1.2.2) hi
    obtain ⟨hv, hrest⟩ := Signature.forall_bind (fun x hx => h.grows hg' (hxs x hx))
      (fun p hp => hys p.2 (of_mem_zip hp).2) hb
    obtain ⟨-, -, hcall⟩ := ho.library hv hrest hi x v hx
    obtain ⟨hi, hg'', hx⟩ := h.expand f hv hrest hi x v hx
    refine ⟨hi, (hg.trans hg').trans hg'', rfl, forall_mem_singleton.2 hx,
      forall_mem_append.2 ⟨fun c hc => ?_, forall_mem_append.2 ⟨fun c hc => ?_,
        forall_mem_singleton.2 hcall⟩⟩⟩
    · exact ho.grows _ _ c (hg'.trans hg'').namer (hcs c hc)
    · exact ho.grows _ _ c hg''.namer (hds c hc)
  | subscript _ hk ih =>
    obtain ⟨hi, hg, -, hx, hcs⟩ := ih h hr ho hor ⟨he.1.1, trivial⟩ hi
    have hindex := h.subscript (hx _ mem_cons_self) (h.const he.1.2 hk)
    exact ⟨hi, hg, rfl, forall_mem_singleton.2 hindex, hcs⟩
  | unary _ ih =>
    obtain ⟨hi, hg, -, hx, hcs⟩ := ih h hr ho hor he hi
    exact ⟨hi, hg, rfl, forall_mem_singleton.2 (h.unary _ (hx _ mem_cons_self)), hcs⟩
  | binary _ ih =>
    obtain ⟨hi, hg, -, hxs, hcs⟩ := ih h hr ho hor ⟨he.1.1, he.1.2, trivial⟩ hi
    rw [forall_mem_cons, forall_mem_singleton] at hxs
    exact ⟨hi, hg, rfl, forall_mem_singleton.2 (h.binary _ hxs.1 hxs.2), hcs⟩
  | @boolean _ _ op _ _ _ _ _ _ ih =>
    obtain ⟨hi, hg, hlen, hxs, hcs⟩ := ih h hr ho hor he.1.2 hi
    refine ⟨hi, hg, rfl, forall_mem_singleton.2 (h.op ?_ hxs), hcs⟩
    rw [hlen]
    cases op <;> exact he.1.1
  | comparison ho' _ ih =>
    obtain ⟨hi, hg, -, hxs, hcs⟩ := ih h hr ho hor ⟨he.1.1, he.1.2, trivial⟩ hi
    rw [forall_mem_cons, forall_mem_singleton] at hxs
    exact ⟨hi, hg, rfl, forall_mem_singleton.2 (h.comparison ho' hxs.1 hxs.2), hcs⟩
  | @membership _ _ _ _ _ _ items _ _ _ _ _ _ hrhs hne _ ih =>
    have hitems : Syntax.Expr.AllWellFormed P items := by
      rcases mem_pair.1 hrhs with rfl | rfl
      · exact he.1.2
      · exact he.1.2
    obtain ⟨hi, hg, hlen, hxs, hcs⟩ := ih h hr ho hor ⟨he.1.1, hitems⟩ hi
    rw [forall_mem_cons] at hxs
    refine ⟨hi, hg, rfl, forall_mem_singleton.2 (h.membership _ hxs.1 hxs.2 ?_), hcs⟩
    rintro rfl
    exact hne (length_eq_zero_iff.1 (Nat.succ.inj hlen).symm)
  | conditional _ ih =>
    obtain ⟨hi, hg, -, hxs, hcs⟩ := ih h hr ho hor ⟨he.1.1, he.1.2.1, he.1.2.2, trivial⟩ hi
    rw [forall_mem_cons, forall_mem_cons, forall_mem_singleton] at hxs
    exact ⟨hi, hg, rfl, forall_mem_singleton.2 (h.conditional hxs.1 hxs.2.1 hxs.2.2), hcs⟩

namespace Closed

variable {P : Literal → Prop} {I J : State → Prop} {K L : State → Expr → Prop}
  {category : Option Category}

theorem lower (h : Closed P I K) (hr : ∀ c, category = some c → ClosedRows P I J K L c)
    (e : Syntax.Expr) (he : e.WellFormed P) (s : State) :
    Lands I s (Lowering.lower category e) K := by
  intro hi x t hx
  obtain ⟨hi', hg, -, hx, -⟩ := (Lowering.lowers_lower hx).closed h hr h.observed
    (fun c hc => (hr c hc).observed h) ⟨he, trivial⟩ hi
  exact ⟨hi', hg, hx x mem_cons_self⟩

/-- Without a category there are no aggregates. -/
theorem lowerRow (h : Closed P I K) {e : Syntax.Expr} (he : e.WellFormed P) (s : State) :
    Lands I s (Lowering.lower none e) K :=
  h.lower (J := I) (L := K) (fun _ hc => by cases hc) e he s

/-- A statement binds its name to what its expression lowers to. -/
theorem binding {stmt : Stmt} (hw : stmt.WellFormed P) {s : State}
    (hl : ∀ e : Syntax.Expr, e.WellFormed P → Lands I s (Lowering.lower category e) K) :
    Lands I s (Lowering.binding category stmt) fun s p =>
      ∃ name v, p = (name, .assign name v) ∧ boundName? stmt = some name ∧ K s v := by
  intro hi p t hp
  obtain ⟨name, x, hname, rfl, hx⟩ := Lowering.binding_eq_ok hp
  obtain ⟨hi', hg, hx⟩ := hl _ (wellFormed_stmtExpr hw) hi x t hx
  exact ⟨hi', hg, name, x, rfl, hname, hx⟩

end Closed

end RowAwk.Compile
