import RowAwk.Proofs.Flush
import RowAwk.Proofs.Ways

/-!
What lowered expressions look up, and what the bindings of a scope set.

A lowered expression looks up names that are bound in its scope, and arrays that are filled along
with the number of their parts. Bindings stand in the order in which they were made, so what one of
them looks up is set by those before it. If those that are computed refer to no others, running them
in order finds everything.

    _spcnt0 = split($1, _split0, ",");   x = _split0[1];   y = (x + _spcnt0)
    sets _spcnt0, _split0                looks up _split0  looks up x, _spcnt0

A name alone tells what goes with it, whatever it is bound to: arrays are numbered together with the
sizes beside them.
-/

open List

namespace RowAwk.Compile

open Awk (Accumulator Category Const Expr Sure There)
open Awk.Expr (downward_nodes mem_lookupsAll mem_nodes_call mem_nodes_op mem_nodes_self mem_varNames)
open Syntax (Literal Stmt isInternal)

/-! ### What goes with a name -/

/-- The names that are set where a name is computed: itself, and an array beside the number of its
    parts. -/
inductive Goes (E : List (String × String × Nat)) : String → String → Prop
  | self {n} : Goes E n n
  | array {key} {i j : Nat} : ("_spcnt", key, i) ∈ E → ("_split", key, j) ∈ E →
      Goes E ("_spcnt" ++ toString i) ("_split" ++ toString j)

theorem mem_writes_assign (target : String) (value : Expr) :
    target ∈ writes (.assign target value) := by
  rw [writes]
  cases value.splitting? <;> simp

section

variable {C : Const → Prop} {U : String → Prop} {n : Namer} {name x : String} {b : Expr}
variable {E : List (String × String × Nat)}

theorem Goes.mono {E' : List (String × String × Nat)} (h : Goes E name x) (hE : E ⊆ E') :
    Goes E' name x := by
  cases h with
  | self => exact .self
  | array hi hj => exact .array (hE hi) (hE hj)

theorem Helper.mem_writes {K : Expr → Prop} (h : Helper K E name b) : name ∈ Compile.writes b := by
  cases h with
  | held | split => exact mem_writes_assign _ _
  | line => exact mem_cons_self

/-- A binding sets what goes with its name, unless a source has bound the name of a size. -/
theorem Entry.sets (hn : n.Sound) (h : Entry C U n.entries name b)
    (hg : Goes n.entries name x) :
    x ∈ writes b ∨ ∃ i j : Nat, x = "_split" ++ toString j ∧ U ("_spcnt" ++ toString i) := by
  cases hg with
  | self =>
    cases h with
    | source _ _ => exact .inl (mem_writes_assign _ _)
    | helper hb => exact .inl hb.mem_writes
  | @array key i j hi hj =>
    cases h with
    | source hu _ => exact .inr ⟨i, j, rfl, hu⟩
    | helper hb =>
      obtain ⟨v, d, rfl, -⟩ := hb.of_split hn hi hj
      rw [writes_splitting (not_mem_awkVariables (by decide) j)]
      exact .inl (by simp)

theorem Origin.goes {B : List (String × Expr)} (h : Origin n.entries B name b)
    (hx : x ∈ Compile.writes b) : Goes n.entries name x := by
  rcases h.writes hx with rfl | ⟨key, i, j, rfl, rfl, hi, hj⟩
  · exact .self
  · exact .array hi hj

end

/-! ### What expressions look up -/

/-- What an expression may look up: a name in `X`, an accumulator of the kind `A` in the expression,
    or what goes with one of its variables, if that is bound in `N`. -/
inductive Backed (A : Accumulator → Prop) (X : String → Prop) (E : List (String × String × Nat))
    (N : List String) (e : Expr) (x : String) : Prop
  | given : X x → Backed A X E N e x
  | accumulated {a args} : .aggregate a args ∈ e.nodes → A a → a.name = x → Backed A X E N e x
  | bound {n} : n ∈ e.varNames → n ∈ N → isInternal n = false → Goes E n x →
      Backed A X E N e x

/-- All that an expression looks up is backed. -/
def Refers (A : Accumulator → Prop) (X : String → Prop) (E : List (String × String × Nat))
    (N : List String) (e : Expr) : Prop :=
  ∀ x ∈ e.lookups, Backed A X E N e x

/-- Each binding looks up what the bindings before it and the names `N` back. Those of the
    compiler's own machinery are not computed. -/
def Laid (A : Accumulator → Prop) (X : String → Prop) (E : List (String × String × Nat)) :
    List String → List (String × Expr) → Prop
  | _, [] => True
  | N, (name, b) :: rest =>
    (isInternal name = false → Refers A X E N b) ∧ Laid A X E (N ++ [name]) rest

section

variable {A : Accumulator → Prop} {X X' : String → Prop} {E E' : List (String × String × Nat)}
variable {N N' : List String} {B B' : List (String × Expr)} {e b : Expr} {name x : String}

theorem Backed.mono (h : Backed A X E N e x) (hX : ∀ x, X x → X' x) (hE : E ⊆ E') (hN : N ⊆ N') :
    Backed A X' E' N' e x := by
  cases h with
  | given hx => exact .given (hX x hx)
  | accumulated hm ha hn => exact .accumulated hm ha hn
  | bound hv hn hi hg => exact .bound hv (hN hn) hi (hg.mono hE)

theorem Backed.below (h : Backed A X E N b x) (hb : b ∈ e.nodes) : Backed A X E N e x := by
  cases h with
  | given hx => exact .given hx
  | accumulated hm ha hn => exact .accumulated (downward_nodes e b hb hm) ha hn
  | bound hv hn hi hg => exact .bound (Awk.Expr.varNames_of_mem hb hv) hn hi hg

theorem Refers.mono (h : Refers A X E N e) (hX : ∀ x, X x → X' x) (hE : E ⊆ E') (hN : N ⊆ N') :
    Refers A X' E' N' e :=
  fun x hx => (h x hx).mono hX hE hN

/-- An expression looks up what its parts look up. -/
theorem Refers.of_parts (parts : List Expr) (h : ∀ p ∈ parts, Refers A X E N p)
    (hp : ∀ p ∈ parts, p ∈ e.nodes) (hl : ∀ x ∈ e.lookups, ∃ p ∈ parts, x ∈ p.lookups) :
    Refers A X E N e := by
  intro x hx
  obtain ⟨p, hm, hx⟩ := hl x hx
  exact (h p hm x hx).below (hp p hm)

variable {args : List Expr}

theorem refers_call {f : String} (h : ∀ a ∈ args, Refers A X E N a) :
    Refers A X E N (.call f args) :=
  .of_parts args h (fun _ => mem_nodes_call) fun _ hx => mem_lookupsAll.1 hx

theorem refers_op {o : Awk.Op} (h : ∀ a ∈ args, Refers A X E N a) : Refers A X E N (.op o args) :=
  .of_parts args h (fun _ => mem_nodes_op) fun _ hx => mem_lookupsAll.1 hx

theorem refers_subscript {base index : Expr} (hb : Refers A X E N base)
    (hi : Refers A X E N index) : Refers A X E N (.subscript base index) := by
  refine .of_parts [base, index] (by simpa using ⟨hb, hi⟩) ?_ ?_
  · simp [Awk.Expr.nodes, mem_nodes_self]
  · simp [Awk.Expr.lookups]

theorem refers_conditional {test yes no : Expr} (ht : Refers A X E N test)
    (hy : Refers A X E N yes) (hn : Refers A X E N no) :
    Refers A X E N (.conditional test yes no) := by
  refine .of_parts [test, yes, no] (by simpa using ⟨ht, hy, hn⟩) ?_ ?_
  · simp [Awk.Expr.nodes, mem_nodes_self]
  · simp [Awk.Expr.lookups]

theorem refers_assign (h : Refers A X E N e) : Refers A X E N (.assign name e) := by
  refine .of_parts [e] (by simpa using h) ?_ ?_
  · simp [Awk.Expr.nodes, mem_nodes_self]
  · simp [Awk.Expr.lookups]

theorem refers_word : Refers A X E N (.builtin name) := nofun

/-- A split or a read looks up what its parts look up. -/
theorem refers_splitting {count array : String} {v d : Expr} (hv : Refers A X E N v)
    (hd : Refers A X E N d) : Refers A X E N (splitting count array v d) :=
  refers_assign (refers_call (by simpa using ⟨hv, refers_word, hd⟩))

theorem refers_reading {c : Expr} (hc : Refers A X E N c) : Refers A X E N (reading name c) :=
  refers_op (by simpa using ⟨hc, refers_word, refers_word, refers_word⟩)

/-- A variable looks up its own name, if that is bound. -/
theorem refers_var (hn : name ∈ N) (hX : isInternal name = true → X name) :
    Refers A X E N (.var name b) := by
  intro x hx
  obtain rfl := mem_singleton.1 hx
  cases hi : isInternal x with
  | true => exact .given (hX hi)
  | false => exact .bound (mem_varNames.2 ⟨b, mem_nodes_self _⟩) hn hi .self

/-- A name that a variable sets on the side is looked up by its own name. -/
theorem refers_sideEffect {n : String} (hn : n ∈ N) (hi : isInternal n = false)
    (hg : Goes E n name) : Refers A X E N (.sideEffect name (.var n b)) := by
  intro x hx
  obtain rfl := mem_singleton.1 hx
  refine .bound (mem_varNames.2 ⟨b, ?_⟩) hn hi hg
  rw [Awk.Expr.nodes]
  exact mem_cons_of_mem _ (mem_nodes_self _)

theorem Laid.mono (h : Laid A X E N B) (hX : ∀ x, X x → X' x) (hE : E ⊆ E') (hN : N ⊆ N') :
    Laid A X' E' N' B := by
  induction B generalizing N N' with
  | nil => trivial
  | cons p B ih =>
    refine ⟨fun hi => (h.1 hi).mono hX hE hN, ih h.2 ?_⟩
    exact append_subset.2 ⟨subset_append_of_subset_left _ hN, subset_append_right _ _⟩

theorem laid_append :
    Laid A X E N (B ++ B') ↔ Laid A X E N B ∧ Laid A X E (N ++ B.map Prod.fst) B' := by
  induction B generalizing N with
  | nil => simp [Laid]
  | cons p B ih =>
    rw [cons_append, Laid, Laid, ih, and_assoc, map_cons, append_assoc, singleton_append]

theorem Laid.snoc (h : Laid A X E N B)
    (hb : isInternal name = false → Refers A X E (N ++ B.map Prod.fst) b) :
    Laid A X E N (B ++ [(name, b)]) :=
  laid_append.2 ⟨h, hb, trivial⟩

/-- A binding that refers to none may stand anywhere. -/
theorem Laid.insert (h : Laid A X E N (B ++ B')) (hb : Refers A X E [] b) :
    Laid A X E N (B ++ (name, b) :: B') := by
  obtain ⟨hB, hB'⟩ := laid_append.1 h
  have hnil {N : List String} : [] ⊆ N := nil_subset N
  refine laid_append.2 ⟨hB, fun _ => hb.mono (fun _ h => h) (List.Subset.refl _) hnil, ?_⟩
  exact hB'.mono (fun _ h => h) (List.Subset.refl _) (subset_append_left _ _)

theorem Laid.refers (h : Laid A X E N B) (hm : (name, b) ∈ B)
    (hi : isInternal name = false) : Refers A X E (N ++ B.map Prod.fst) b := by
  obtain ⟨pre, post, rfl⟩ := append_of_mem hm
  obtain ⟨-, hb, -⟩ := laid_append.1 h
  refine (hb hi).mono (fun _ h => h) (List.Subset.refl _) ?_
  rw [map_append, ← append_assoc]
  exact subset_append_left _ _

end

/-! ### Lowering keeps the order -/

/-- A state whose scope has grown from some bindings, each new one backed by those before it. -/
structure Arranged (A : Accumulator → Prop) (X : String → Prop) (old : List (String × Expr))
    (s : State) : Prop where
  laid : ∃ new, s.scope.bindings = old ++ new ∧
    Laid A X s.namer.entries (old.map Prod.fst) new
  names : ∀ n ∈ s.scope.names, isInternal n = true → X n

namespace Arranged

variable {A : Accumulator → Prop} {X : String → Prop} {old : List (String × Expr)} {s : State}
variable {name : String} {b : Expr}

theorem named (h : Arranged A X old s) (stem key : String) :
    Arranged A X old (s.named stem key) := by
  obtain ⟨new, heq, hl⟩ := h.laid
  refine ⟨⟨new, heq, ?_⟩, h.names⟩
  exact hl.mono (fun _ h => h) (s.grows_named stem key).namer.subset (List.Subset.refl _)

theorem bound (h : Arranged A X old s) (hb : Refers A X s.namer.entries s.scope.names b)
    (hn : isInternal name = true → X name) : Arranged A X old (s.bound name b) := by
  obtain ⟨new, heq, hl⟩ := h.laid
  refine ⟨⟨new ++ [(name, b)], ?_, hl.snoc fun _ => ?_⟩, fun n hm => ?_⟩
  · rw [State.bound, heq, append_assoc]
  · rw [Scope.names, heq, map_append] at hb
    exact hb
  · rw [Scope.names, State.bound, map_append, mem_append] at hm
    rcases hm with hm | hm
    · exact h.names n hm
    · obtain rfl := mem_singleton.1 hm
      exact hn

theorem refers_var (h : Arranged A X old s) (hm : name ∈ s.scope.names) :
    Refers A X s.namer.entries s.scope.names (.var name b) :=
  Compile.refers_var hm (h.names name hm)

end Arranged

section

variable {A : Accumulator → Prop} {X : String → Prop} {old : List (String × Expr)}

theorem refers_grows {s s' : State} {e : Expr} (hg : s.Grows s')
    (h : Refers A X s.namer.entries s.scope.names e) :
    Refers A X s'.namer.entries s'.scope.names e :=
  h.mono (fun _ h => h) hg.namer.subset (map_subset _ hg.scope.subset)

/-- Helpers look up names of their scope, and are looked up by the names that go with them. -/
theorem Arranged.furnishes : Furnishes (Arranged A X old) fun s e =>
    Refers A X s.namer.entries s.scope.names e where
  grows := refers_grows
  named key _ hi := hi.named _ key
  bound hi _ hb := by
    refine hi.bound ?_ fun hn => ?_
    · cases hb with
      | held _ _ hv => exact refers_assign hv
      | split _ _ hv hd => exact refers_splitting hv hd
      | line _ hc => exact refers_reading hc
    · rw [isInternal_of_isGenerated hb.isGenerated] at hn
      cases hn
  held hi _ hb := hi.refers_var (mem_map.2 ⟨_, hb, rfl⟩)
  element {_ _ _ _ i _} _ hcount harray hb hx := by
    have hsize := isInternal_number (show "_spcnt" ∈ libraryStems by decide) i
    exact refers_subscript (refers_sideEffect (mem_map.2 ⟨_, hb, rfl⟩) hsize
      (.array hcount harray)) hx
  line {_ _ _ i} _ _ hb :=
    refers_sideEffect (mem_map.2 ⟨_, hb, rfl⟩) (isInternal_number (by decide) i) .self

/-- What is lowered looks up names of its scope only. -/
theorem closed_arranged {P : Literal → Prop} (hstring : ∀ v, P (.string v))
    (hdigit : ∀ d ∈ ["0", "1", "2"], P (.number d)) :
    Closed P (Arranged A X old) fun s e => Refers A X s.namer.entries s.scope.names e where
  grows := refers_grows
  routines _ h := ⟨h.laid, h.names⟩
  string := hstring
  digit := hdigit
  const _ _ := nofun
  field hf := by
    obtain ⟨i, type, -, rfl⟩ := Scope.field?_cases hf
    exact nofun
  var hi _ hm := hi.refers_var (mem_map.2 ⟨_, hm, rfl⟩)
  word _ := refers_word
  call _ _ ha := refers_call ha
  sign _ ha := refers_call (by simpa using ha)
  subscript hb hi := refers_subscript hb hi
  op _ ha := refers_op ha
  conditional ht hy hn := refers_conditional ht hy hn
  helper hs hs' hv := Arranged.furnishes.helper ⟨hs, hs'⟩ hv
  split hd hv := Arranged.furnishes.split hd hv
  shell hc := Arranged.furnishes.shell hc

/-- An aggregate looks up its accumulator; what its arguments bind is bound among the rows. -/
theorem closedRows_arranged (hA : ∀ a, A a) (c : Category) :
    ClosedRows Literal.Spelt (Arranged A X old) (fun s => Arranged A X old s.flip)
      (fun s e => Refers A X s.namer.entries s.scope.names e) (fun _ _ => True) c where
  rows := by
    refine closed_kept Literal.spelt_string Literal.spelt_digit (fun h => ⟨h.laid, h.names⟩)
      (fun s stem key _ h => ?_) fun s name b h => ⟨h.laid, h.names⟩
    exact h.named stem key
  flip _ := Iff.rfl
  accumulate := by
    intro s a t args _ _
    refine (lands_nameFor fun h => h.named _ _).bind fun name s₁ _ _ _ => lands_pure fun _ => ?_
    intro x hx
    exact .accumulated (mem_nodes_self _) (hA _) (mem_singleton.1 hx).symm

end

/-! ### Scopes of helpers -/

section

variable {n : Namer} {B : List (String × Expr)} {e b : Expr} {name : String}

/-- No accumulators at all. -/
def NoAccumulator (_ : Accumulator) : Prop := False

theorem Value.refers (h : Value B e) (hB : Ordered n.entries B) :
    Refers NoAccumulator Nobody n.entries (B.map Prod.fst) e := by
  have named {m : String} {c : Expr} (hm : (m, c) ∈ B) : m ∈ B.map Prod.fst :=
    mem_map.2 ⟨_, hm, rfl⟩
  have plain {m : String} {c : Expr} (hm : (m, c) ∈ B) : isInternal m = false :=
    (hB.origin hm).notInternal
  induction h with
  | const | field => exact nofun
  | word => exact refers_word
  | var hm => exact refers_var (named hm) fun h => by rw [plain hm] at h; cases h
  | array ha hm =>
    refine refers_sideEffect (named hm) (plain hm) ((hB.origin hm).goes ?_)
    rw [writes_splitting ha]
    simp
  | line hm => exact refers_sideEffect (named hm) (plain hm) .self
  | call _ ih => exact refers_call ih
  | subscript _ _ ihb ihi => exact refers_subscript ihb ihi
  | op _ _ ih => exact refers_op ih
  | conditional _ _ _ iht ihy ihn => exact refers_conditional iht ihy ihn

theorem Ordered.laid (h : Ordered n.entries B) : Laid NoAccumulator Nobody n.entries [] B := by
  induction h with
  | nil => trivial
  | snoc hB _ ho ih =>
    refine ih.snoc fun _ => ?_
    rw [nil_append]
    rcases ho.parts with ⟨v, rfl, hv⟩ | ⟨array, v, d, -, -, rfl, hv, hd⟩ | ⟨c, rfl, hc⟩
    · exact refers_assign (hv.refers hB)
    · exact refers_splitting (hv.refers hB) (hd.refers hB)
    · exact refers_reading (hc.refers hB)

end

/-! ### Computing bindings -/

section

variable {A : Accumulator → Prop} {X K : String → Prop} {E : List (String × String × Nat)}
variable {N : List String} {B : List (String × Expr)} {e b : Expr} {name x : String}

/-- The steps that compute those bindings that are chosen. -/
def computes (chosen : String → Bool) (B : List (String × Expr)) : List Awk.Step :=
  ((B.filter fun p => chosen p.1).map Prod.snd).map Awk.Step.of

/-- What an expression looks up is there if its variables are. -/
theorem Refers.there (h : Refers A X E N e) (hX : ∀ x, X x → K x)
    (hA : ∀ a args, .aggregate a args ∈ e.nodes → A a → K a.name)
    (hN : ∀ n ∈ N, n ∈ e.varNames → isInternal n = false → ∀ x, Goes E n x → K x) :
    ∀ x ∈ e.lookups, K x := by
  intro x hx
  cases h x hx with
  | given hx => exact hX x hx
  | accumulated hm ha hn => exact hn ▸ hA _ _ hm ha
  | bound hv hn hi hg => exact hN _ hn hv hi x hg

variable {chosen : String → Bool}

/-- Bindings in order find what they look up, if those that are computed refer only to such and to
    names that were there before. -/
theorem Laid.sure (before : String → Prop) (h : Laid A X E N B) (hX : ∀ x, X x → K x)
    (hA : ∀ p ∈ B, ∀ a args, .aggregate a args ∈ p.2.nodes → A a → K a.name)
    (hsets : ∀ p ∈ B, ∀ x, Goes E p.1 x → x ∈ writes p.2 ∨ X x)
    (hchosen : ∀ p ∈ B, chosen p.1 = true → isInternal p.1 = false)
    (hclosed : ∀ p ∈ B, chosen p.1 = true → ∀ n ∈ p.2.varNames, isInternal n = false →
      chosen n = true ∨ before n) (hbefore : ∀ p ∈ B, before p.1 → ∀ x, Goes E p.1 x → K x)
    (hN : ∀ n ∈ N, chosen n = true ∨ before n → ∀ x, Goes E n x → K x) :
    Sure K (computes chosen B) := by
  induction B generalizing N K with
  | nil => trivial
  | cons p B ih =>
    obtain ⟨name, b⟩ := p
    obtain ⟨hb, hB⟩ := h
    have later {q : String × Expr} (hq : q ∈ B) : q ∈ (name, b) :: B := mem_cons_of_mem _ hq
    cases hc : chosen name with
    | false =>
      have same : computes chosen ((name, b) :: B) = computes chosen B := by simp [computes, hc]
      rw [same]
      refine ih hB hX (fun q hq => hA q (later hq)) (fun q hq => hsets q (later hq))
        (fun q hq => hchosen q (later hq)) (fun q hq => hclosed q (later hq))
        (fun q hq => hbefore q (later hq)) fun n hn => ?_
      rcases mem_append.1 hn with hn | hn
      · exact hN n hn
      · obtain rfl := mem_singleton.1 hn
        rw [hc]
        rintro (h | h)
        · cases h
        · exact hbefore _ mem_cons_self h
    | true =>
      have next : computes chosen ((name, b) :: B) = Awk.Step.of b :: computes chosen B := by
        simp [computes, hc]
      rw [next]
      have hi := hchosen _ mem_cons_self hc
      refine ⟨(hb hi).there hX (hA _ mem_cons_self) fun n hn hv hi => ?_, ?_⟩
      · exact hN n hn (hclosed _ mem_cons_self hc n hv hi)
      · refine ih hB (fun x hx => .inl (hX x hx)) (fun q hq a args hm ha => .inl ?_)
          (fun q hq => hsets q (later hq)) (fun q hq => hchosen q (later hq))
          (fun q hq => hclosed q (later hq))
          (fun q hq hq' x hx => .inl (hbefore q (later hq) hq' x hx)) fun n hn hn' x hx => ?_
        · exact hA q (later hq) a args hm ha
        · rcases mem_append.1 hn with hn | hn
          · exact .inl (hN n hn hn' x hx)
          · obtain rfl := mem_singleton.1 hn
            exact (hsets _ mem_cons_self x hx).symm.imp_left (hX x)

/-- What goes with a binding that has been computed is there. -/
theorem there_computes (hX : ∀ x, X x → K x)
    (hsets : ∀ p ∈ B, ∀ x, Goes E p.1 x → x ∈ writes p.2 ∨ X x) (hm : (name, b) ∈ B)
    (hc : chosen name = true) (hx : Goes E name x) : There K (computes chosen B) x := by
  rcases hsets _ hm x hx with hw | hx
  · refine .inr ⟨Awk.Step.of b, ?_, hw⟩
    exact mem_map_of_mem (mem_map.2 ⟨_, mem_filter.2 ⟨hm, hc⟩, rfl⟩)
  · exact .inl (hX x hx)

end

end RowAwk.Compile
