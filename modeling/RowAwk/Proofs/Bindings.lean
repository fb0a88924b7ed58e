import RowAwk.Proofs.Closure

/-!
How the bindings of a scope come about.

Lowering a row expression binds names in an order in which each statement refers only to names
bound before it. A name that a source binds is assigned a value; the compiler's own names hold a
value, split a text into an array beside its size, or read the first line of a command. `Origin`
lists these four, `Ordered` is the order, and `Value` says what expressions may refer to.

    x = $1 * 2                             x            assigned by a source
    _spcnt0 = split(x, _split0, ",")       _spcnt0      splits, and fills _split0
    y = _split0[1]                         y            refers to what is bound above
-/

namespace RowAwk.Compile

open Awk (Expr)
open Closed (Holds)

/-- A name that a source may bind without touching the compiler's or awk's own. -/
structure Plain (name : String) : Prop where
  notInternal : Syntax.isInternal name = false
  notAwk : name ∉ awkVariables
  notGenerated : isGenerated name = false

instance (name : String) : Decidable (Plain name) :=
  decidable_of_iff (Syntax.isInternal name = false ∧ name ∉ awkVariables ∧ isGenerated name = false)
    ⟨fun ⟨h₁, h₂, h₃⟩ => ⟨h₁, h₂, h₃⟩, fun ⟨h₁, h₂, h₃⟩ => ⟨h₁, h₂, h₃⟩⟩

/-- The expressions that compute a value from columns, constants and some bindings. -/
inductive Value (B : List (String × Expr)) : Expr → Prop
  | const {c} : Value B (.const c)
  | field {name position type} : Value B (.field name position type)
  | word {name} : name ∈ awkVariables → Value B (.builtin name)
  | var {name b} : (name, b) ∈ B → Value B (.var name b)
  | array {count array value delim} : array ∉ awkVariables →
      (count, splitting count array value delim) ∈ B →
      Value B (.sideEffect array (.var count (splitting count array value delim)))
  | line {name command} : (name, reading name command) ∈ B →
      Value B (.sideEffect name (.var name (reading name command)))
  | call {f args} : (∀ a ∈ args, Value B a) → Value B (.call f args)
  | subscript {base index} : Value B base → Value B index → Value B (.subscript base index)
  | op {o args} : o ≠ .juxtapose → (∀ a ∈ args, Value B a) → Value B (.op o args)
  | conditional {test yes no} : Value B test → Value B yes → Value B no →
      Value B (.conditional test yes no)

/-- How a name comes to be bound to a statement, over earlier bindings and with what has been
    named. -/
inductive Origin (E : List (String × String × Nat)) (B : List (String × Expr)) :
    String → Expr → Prop
  | source {name v} : Plain name → Value B v → Origin E B name (.assign name v)
  | held {stem v} {i : Nat} : Holds stem → (stem, v.text, i) ∈ E → Value B v →
      Origin E B (stem ++ toString i) (.assign (stem ++ toString i) v)
  | split {v d} {i j : Nat} : ("_spcnt", Namer.keyOf [v.text, d.text], i) ∈ E →
      ("_split", Namer.keyOf [v.text, d.text], j) ∈ E → Value B v → Value B d →
      Origin E B ("_spcnt" ++ toString i)
        (splitting ("_spcnt" ++ toString i) ("_split" ++ toString j) v d)
  | line {c} {i : Nat} : ("_sh", c.text, i) ∈ E → Value B c →
      Origin E B ("_sh" ++ toString i) (reading ("_sh" ++ toString i) c)

/-- Bindings in the order in which they were made, each of a name of its own. -/
inductive Ordered (E : List (String × String × Nat)) : List (String × Expr) → Prop
  | nil : Ordered E []
  | snoc {B name b} : Ordered E B → name ∉ B.map Prod.fst → Origin E B name b →
      Ordered E (B ++ [(name, b)])

/-! ### Growing -/

section

variable {E E' : List (String × String × Nat)} {B B' : List (String × Expr)} {e b : Expr}
variable {name : String}

theorem Value.mono (h : Value B e) (hB : B ⊆ B') : Value B' e := by
  induction h with
  | const => exact .const
  | field => exact .field
  | word hw => exact .word hw
  | var hm => exact .var (hB hm)
  | array ha hm => exact .array ha (hB hm)
  | line hm => exact .line (hB hm)
  | call _ ih => exact .call ih
  | subscript _ _ ihb ihi => exact .subscript ihb ihi
  | op ho _ ih => exact .op ho ih
  | conditional _ _ _ iht ihy ihn => exact .conditional iht ihy ihn

theorem Origin.mono (h : Origin E B name b) (hE : E ⊆ E') (hB : B ⊆ B') : Origin E' B' name b := by
  cases h with
  | source hn hv => exact .source hn (hv.mono hB)
  | held hs hk hv => exact .held hs (hE hk) (hv.mono hB)
  | split hc ha hv hd => exact .split (hE hc) (hE ha) (hv.mono hB) (hd.mono hB)
  | line hk hc => exact .line (hE hk) (hc.mono hB)

theorem Ordered.mono (h : Ordered E B) (hE : E ⊆ E') : Ordered E' B := by
  induction h with
  | nil => exact .nil
  | snoc _ hn ho ih => exact .snoc ih hn (ho.mono hE (List.Subset.refl _))

theorem Ordered.origin (h : Ordered E B) (hm : (name, b) ∈ B) : Origin E B name b := by
  induction h with
  | nil => cases hm
  | @snoc B n c _ _ ho ih =>
    have hB : B ⊆ B ++ [(n, c)] := List.subset_append_left _ _
    rcases List.mem_append.1 hm with hm | hm
    · exact (ih hm).mono (List.Subset.refl _) hB
    · cases List.mem_singleton.1 hm
      exact ho.mono (List.Subset.refl _) hB

theorem Ordered.nodup (h : Ordered E B) : (B.map Prod.fst).Nodup := by
  induction h with
  | nil => exact List.nodup_nil
  | snoc _ hn _ ih =>
    rw [List.map_append, List.nodup_append']
    refine ⟨ih, List.nodup_singleton _, ?_⟩
    intro m hm hm'
    cases List.mem_singleton.1 hm'
    exact hn hm

/-- A name has one binding. -/
theorem Ordered.eq_of_mem (h : Ordered E B) {c : Expr} (hb : (name, b) ∈ B) (hc : (name, c) ∈ B) :
    b = c := by
  have := List.inj_on_of_nodup_map h.nodup hb hc rfl
  exact (Prod.mk.inj this).2

end

/-! ### Origins told by names -/

section

variable {E : List (String × String × Nat)} {B : List (String × Expr)} {b : Expr}
variable {name : String}
variable {stem key : String} {i : Nat}

theorem not_mem_awkVariables (hs : stem ∈ libraryStems) (i : Nat) :
    stem ++ toString i ∉ awkVariables := by
  intro hm
  have key : ∀ w ∈ awkVariables, isGenerated w = false := by decide
  have := key _ hm
  rw [isGenerated_number hs] at this
  cases this

theorem Plain.ne_generated (h : Plain name) (hs : stem ∈ libraryStems) (i : Nat) :
    name ≠ stem ++ toString i := by
  rintro rfl
  have := h.notGenerated
  rw [isGenerated_number hs] at this
  cases this

/-- A name is bound by a source or to a statement of the compiler's own. -/
theorem Origin.source_or_helper (h : Origin E B name b) :
    (Plain name ∧ ∃ v, b = .assign name v ∧ Value B v) ∨ Helper (Value B) E name b := by
  cases h with
  | source hp hv => exact .inl ⟨hp, _, rfl, hv⟩
  | held hs hk hv => exact .inr (.held hs hk hv)
  | split hc ha hv hd => exact .inr (.split hc ha hv hd)
  | line hk hc => exact .inr (.line hk hc)

theorem Helper.origin (h : Helper (Value B) E name b) : Origin E B name b := by
  cases h with
  | held hs hk hv => exact .held hs hk hv
  | split hc ha hv hd => exact .split hc ha hv hd
  | line hk hc => exact .line hk hc

/-- A name of the compiler's own is bound to a statement of the compiler's own. -/
theorem Origin.helper (h : Origin E B name b) (hn : isGenerated name = true) :
    Helper (Value B) E name b := by
  rcases h.source_or_helper with ⟨hp, -⟩ | h
  · rw [hp.notGenerated] at hn
    cases hn
  · exact h

variable {n : Namer} {K : Expr → Prop}

theorem Helper.isGenerated (h : Helper K E name b) : isGenerated name = true := by
  cases h with
  | held hs _ _ => exact isGenerated_number hs.1 _
  | split | line => exact isGenerated_number (by decide) _

theorem Helper.imp {L : Expr → Prop} (h : Helper K E name b) (hK : ∀ e, K e → L e) :
    Helper L E name b := by
  cases h with
  | held hs hk hv => exact .held hs hk (hK _ hv)
  | split hc ha hv hd => exact .split hc ha (hK _ hv) (hK _ hd)
  | line hk hc => exact .line hk (hK _ hc)

theorem Helper.mono {E' : List (String × String × Nat)} (h : Helper K E name b) (hE : E ⊆ E') :
    Helper K E' name b := by
  cases h with
  | held hs hk hv => exact .held hs (hE hk) hv
  | split hc ha hv hd => exact .split (hE hc) (hE ha) hv hd
  | line hk hc => exact .line (hE hk) hc

theorem Helper.of_held (hn : n.Sound) (hs : Holds stem) (hk : (stem, key, i) ∈ n.entries)
    (h : Helper K n.entries (stem ++ toString i) b) :
    ∃ v, b = .assign (stem ++ toString i) v ∧ v.text = key ∧ K v := by
  generalize hname : stem ++ toString i = name at h
  cases h with
  | held hs' hk' hv =>
    obtain ⟨rfl, rfl⟩ := stem_number_inj (mem_stems hs.1) (mem_stems hs'.1) hname
    exact ⟨_, rfl, hn.key_inj hk' hk, hv⟩
  | split | line =>
    obtain ⟨rfl, -⟩ := stem_number_inj (mem_stems hs.1) (by decide) hname
    exact absurd (by decide) hs.2

theorem Helper.of_split {j : Nat} (hn : n.Sound) (hc : ("_spcnt", key, i) ∈ n.entries)
    (ha : ("_split", key, j) ∈ n.entries) (h : Helper K n.entries ("_spcnt" ++ toString i) b) :
    ∃ v d, b = splitting ("_spcnt" ++ toString i) ("_split" ++ toString j) v d ∧
      Namer.keyOf [v.text, d.text] = key ∧ K v ∧ K d := by
  generalize hname : "_spcnt" ++ toString i = name at h
  cases h with
  | held hs _ _ =>
    obtain ⟨rfl, -⟩ := stem_number_inj (by decide) (mem_stems hs.1) hname
    exact absurd (by decide) hs.2
  | split hc' ha' hv hd =>
    obtain ⟨-, rfl⟩ := stem_number_inj (by decide) (by decide) hname
    have hkey := hn.key_inj hc' hc
    obtain rfl := hn.number_inj (hkey ▸ ha') ha
    exact ⟨_, _, rfl, hkey, hv, hd⟩
  | line =>
    obtain ⟨hs, -⟩ := stem_number_inj (by decide) (by decide) hname
    exact absurd hs (by decide)

theorem Helper.of_line (hn : n.Sound) (hk : ("_sh", key, i) ∈ n.entries)
    (h : Helper K n.entries ("_sh" ++ toString i) b) :
    ∃ c, b = reading ("_sh" ++ toString i) c ∧ c.text = key ∧ K c := by
  generalize hname : "_sh" ++ toString i = name at h
  cases h with
  | held hs _ _ =>
    obtain ⟨rfl, -⟩ := stem_number_inj (by decide) (mem_stems hs.1) hname
    exact absurd (by decide) hs.2
  | split =>
    obtain ⟨hs, -⟩ := stem_number_inj (by decide) (by decide) hname
    exact absurd hs (by decide)
  | line hk' hc =>
    obtain ⟨-, rfl⟩ := stem_number_inj (by decide) (by decide) hname
    exact ⟨_, rfl, hn.key_inj hk' hk, hc⟩

end

/-! ### Lowering keeps the order -/

/-- A state in which everything is bound in order. -/
structure Scoped (s : State) : Prop where
  namer : s.namer.Sound
  bindings : Ordered s.namer.entries s.scope.bindings

namespace Scoped

variable {s : State}

theorem start (schema : Schema) : Scoped (.start schema) := ⟨Namer.sound_empty, .nil⟩

theorem named (h : Scoped s) (stem key : String) : Scoped (s.named stem key) :=
  ⟨h.namer.nameFor stem key, h.bindings.mono (s.grows_named stem key).namer.subset⟩

theorem bound (h : Scoped s) {name : String} {b : Expr} (hn : s.scope.binding? name = none)
    (ho : Origin s.namer.entries s.scope.bindings name b) : Scoped (s.bound name b) :=
  ⟨h.namer, h.bindings.snoc (Scope.not_mem_of_binding? hn) ho⟩

/-- What is bound under the name of a helper is a helper. -/
theorem helper (h : Scoped s) {stem : String} {i : Nat} {b : Expr} (hs : stem ∈ libraryStems)
    (hb : (stem ++ toString i, b) ∈ s.scope.bindings) :
    Helper (Value s.scope.bindings) s.namer.entries (stem ++ toString i) b :=
  (h.bindings.origin hb).helper (isGenerated_number hs i)

theorem furnishes : Furnishes Scoped fun s e => Value s.scope.bindings e where
  grows hg hv := hv.mono hg.scope.subset
  named key _ hi := hi.named _ key
  bound hi hn hb := hi.bound hn hb.origin
  held _ _ hb := .var hb
  element {_ _ _ _ i j} hi hcount harray hb hx := by
    obtain ⟨v, d, rfl, -⟩ := (hi.helper (by decide) hb).of_split hi.namer hcount harray
    exact .subscript (.array (not_mem_awkVariables (by decide) j) hb) hx
  line hi hline hb := by
    obtain ⟨c, rfl, -⟩ := (hi.helper (by decide) hb).of_line hi.namer hline
    exact .line hb

end Scoped

/-- Values over the bindings of the scope are all that lowering builds. -/
theorem closed_value {P : Syntax.Literal → Prop} (hstring : ∀ v, P (.string v))
    (hdigit : ∀ d ∈ ["0", "1", "2"], P (.number d)) :
    Closed P Scoped fun s e => Value s.scope.bindings e where
  grows hg hv := hv.mono hg.scope.subset
  routines _ hi := ⟨hi.namer, hi.bindings⟩
  string := hstring
  digit := hdigit
  const _ _ := .const
  field hf := by
    obtain ⟨i, type, -, rfl⟩ := Scope.field?_cases hf
    exact .field
  var _ _ hm := .var hm
  word hw := .word hw
  call _ _ ha := .call ha
  sign _ ha := .call (by simpa using ha)
  subscript hb hi := .subscript hb hi
  op ho ha := .op (by rintro rfl; exact ho) ha
  conditional ht hy hn := .conditional ht hy hn
  helper hs hs' hv := Scoped.furnishes.helper ⟨hs, hs'⟩ hv
  split hd hv := Scoped.furnishes.split hd hv
  shell hc := Scoped.furnishes.shell hc

end RowAwk.Compile
