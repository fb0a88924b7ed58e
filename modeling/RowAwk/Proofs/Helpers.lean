import RowAwk.Proofs.Bindings
import RowAwk.Proofs.Keys

/-!
What calls of the function library refer to.

A function that uses a value more than once asks for a helper, a variable that holds it. The helper
may have been bound before, for another expression with the same text. `Expansion` says for every
function what its call becomes and which statements its helpers are bound to:

    abs(x)           ((h < 0)?-(h):h)       h      bound to  h = x
    unjoin(d, x, i)  a[(i + 1)]             a      filled by  n = split(x, a, d)

This holds as long as no source binds a name of the form that helpers have: then whatever is bound
under such a name is a helper, and the scope is `Hygienic`.
-/

namespace RowAwk.Compile

open Awk (Category Const Expr)
open Closed (Holds)
open Syntax (Literal isName)

/-! ### Scopes with helpers -/

/-- What a scope may bind: a helper over lowered expressions, or a name that `U` allows to a lowered
    expression. -/
inductive Entry (C : Const → Prop) (U : String → Prop) (E : List (String × String × Nat)) :
    String → Expr → Prop
  | source {name v} : U name → v.Lowered C → Entry C U E name (.assign name v)
  | helper {name b} : Helper (Expr.Lowered C) E name b → Entry C U E name b

/-- All bindings of a scope are entries. -/
def Scope.Hygienic (C : Const → Prop) (U : String → Prop) (E : List (String × String × Nat))
    (sc : Scope) : Prop :=
  ∀ name b, (name, b) ∈ sc.bindings → Entry C U E name b

/-- Both scopes of a state are hygienic. -/
structure Hygienic (C : Const → Prop) (U V : String → Prop) (s : State) : Prop where
  namer : s.namer.Sound
  scope : s.scope.Hygienic C U s.namer.entries
  rows : s.rows.Hygienic C V s.namer.entries

section

variable {C : Const → Prop} {U : String → Prop} {E E' : List (String × String × Nat)}
variable {name : String} {b : Expr}

theorem Entry.mono (h : Entry C U E name b) (hE : E ⊆ E') : Entry C U E' name b := by
  cases h with
  | source hn hv => exact .source hn hv
  | helper hb => exact .helper (hb.mono hE)

/-- Under a name of the compiler's own stands a helper. -/
theorem Entry.of_isGenerated (h : Entry C U E name b) (hU : ∀ n, U n → isGenerated n = false)
    (hn : isGenerated name = true) : Helper (Expr.Lowered C) E name b := by
  cases h with
  | source hu _ =>
    rw [hU name hu] at hn
    cases hn
  | helper hb => exact hb

theorem Scope.Hygienic.mono {sc : Scope} (h : sc.Hygienic C U E) (hE : E ⊆ E') :
    sc.Hygienic C U E' :=
  fun name b hm => (h name b hm).mono hE

end

variable {name stem : String} {b : Expr} {sc' : Scope}

theorem State.binding?_bound_of_ne {s : State} {n : String} (h : name ≠ n) :
    (s.bound name b).scope.binding? n = s.scope.binding? n := by
  ext c
  rw [State.bound, Scope.binding?_append]
  simp [h]

/-- What a scope has bound stays bound. -/
theorem Scope.binding?_of_grows {sc : Scope} (h : sc.bindings <+: sc'.bindings)
    (hb : sc.binding? name = some b) : sc'.binding? name = some b := by
  obtain ⟨more, hmore⟩ := h
  rw [binding?] at hb ⊢
  obtain ⟨p, hp, rfl⟩ := Option.map_eq_some_iff.1 hb
  rw [← hmore, List.find?_append, hp]
  rfl

/-! ### References to helpers -/

/-- A reference for a value: the value itself if it is a column, else a helper of the stem that is
    bound to an assignment of the same text. -/
inductive Held (sc : Scope) (stem : String) (v : Expr) : Expr → Prop
  | column : v.isField = true → Held sc stem v v
  | var {w} {i : Nat} : v.isField = false →
      sc.binding? (stem ++ toString i) = some (.assign (stem ++ toString i) w) → w.text = v.text →
      Held sc stem v (.var (stem ++ toString i) (.assign (stem ++ toString i) w))

/-- References for a value that is split: the number of its parts is bound to a statement that
    splits the same text at the same delimiter, and the array is filled by it. -/
inductive Parted (sc : Scope) (delim v : Expr) : Expr × Expr → Prop
  | intro {w d} {i j : Nat} :
      sc.binding? ("_spcnt" ++ toString i)
        = some (splitting ("_spcnt" ++ toString i) ("_split" ++ toString j) w d) →
      w.text = v.text → d.text = delim.text →
      Parted sc delim v
        (.sideEffect ("_split" ++ toString j) (.var ("_spcnt" ++ toString i)
            (splitting ("_spcnt" ++ toString i) ("_split" ++ toString j) w d)),
          .var ("_spcnt" ++ toString i)
            (splitting ("_spcnt" ++ toString i) ("_split" ++ toString j) w d))

/-- A reference for the first line of a command: a name that is bound to reading it. -/
inductive Fetched (sc : Scope) (command : Expr) : Expr → Prop
  | intro {c} {i : Nat} :
      sc.binding? ("_sh" ++ toString i) = some (reading ("_sh" ++ toString i) c) →
      c.text = command.text →
      Fetched sc command
        (.sideEffect ("_sh" ++ toString i)
          (.var ("_sh" ++ toString i) (reading ("_sh" ++ toString i) c)))

/-- A choice among values: each node takes the left side if the comparison holds. -/
inductive Compared (o : Awk.Op) : List Expr → Expr → Prop
  | one {x} : Compared o [x] x
  | node {xs ys left right} : Compared o xs left → Compared o ys right →
      Compared o (xs ++ ys) (.conditional (.op o [left, right]) left right)

open Library (arg host) in
/-- What a call of a function becomes. -/
inductive Expansion (sc : Scope) (b : Bound Expr) : Function → Expr → Prop
  | abs {h} : Held sc "_abs" (arg b 0) h →
      Expansion sc b .abs (.conditional (.op .less [h, .int 0]) (.call "-" [h]) h)
  | crc32 {h} : Held sc "_crc32" (arg b 0) h → Expansion sc b .crc32 (.call "crc32" [h])
  | isInFile {file key} : Held sc "_is_in_file" (arg b 0) file →
      Held sc "_is_in_file" (arg b 1) key →
      Expansion sc b .isInFile (.call "is_in_file" [file, key])
  | mapFromFile {file key default} : Held sc "_map_from_file" (arg b 0) file →
      Held sc "_map_from_file" (arg b 1) key → Held sc "_map_from_file" (arg b 2) default →
      Expansion sc b .mapFromFile (.call "map_from_file" [file, key, default])
  | max {held x} : List.Forall₂ (Held sc "_max") b.rest held → Compared .greater held x →
      Expansion sc b .max x
  | min {held x} : List.Forall₂ (Held sc "_min") b.rest held → Compared .less held x →
      Expansion sc b .min x
  | strip {h} : Held sc "_strip" (arg b 0) h →
      Expansion sc b .strip (.call "gensub"
        [.string "^[[:space:]]+|[[:space:]]+$", .string "", .string "G", h])
  | uniq {h} : Held sc "_uniq" (arg b 1) h → Expansion sc b .uniq (.call "uniq" [arg b 0, h])
  | unjoin {array count} : Parted sc (arg b 0) (arg b 1) (array, count) →
      Expansion sc b .unjoin (.subscript array (.op .add [arg b 2, .int 1]))
  | unjoinCount {array count} : Parted sc (arg b 0) (arg b 1) (array, count) →
      Expansion sc b .unjoinCount count
  | shell {x} : Fetched sc (arg b 0) x → Expansion sc b .shell x
  | domain : Expansion sc b .domain (host "^https?://([^/?:#]+).*$" (arg b 0))
  | netlocator : Expansion sc b .netlocator (host "^https?://([^/?#]+).*$" (arg b 0))
  | join : Expansion sc b .join (Library.join (arg b 0) b.rest)
  | strptime {format ps} : (arg b 0).asString? = some format →
      TimeFormat.pieces format format.toList = .ok ps →
      Expansion sc b .strptime (.call "mktime" [.call "gensub"
        [.string (TimeFormat.pattern ps), .string (TimeFormat.replacement ps), .string "",
          arg b 1]])

theorem Held.mono {sc : Scope} {v e : Expr} (h : Held sc stem v e)
    (hg : sc.bindings <+: sc'.bindings) : Held sc' stem v e := by
  cases h with
  | column hv => exact .column hv
  | var hv hb ht => exact .var hv (Scope.binding?_of_grows hg hb) ht

/-! ### Naming and binding -/

theorem isName_append {a b : String} (ha : isName a = true)
    (hb : ∀ c ∈ b.toList, Syntax.isNamePart c = true) : isName (a ++ b) = true := by
  rw [isName] at ha ⊢
  rw [String.toList_append]
  cases hl : a.toList with
  | nil => simp [hl] at ha
  | cons c cs =>
    simp only [hl, List.cons_append, Bool.and_eq_true, List.all_eq_true, List.mem_append] at ha ⊢
    refine ⟨ha.1, fun d hd => ?_⟩
    rcases hd with hd | hd
    · exact ha.2 d hd
    · exact hb d hd

theorem isName_number (hs : stem ∈ stems) (i : Nat) : isName (stem ++ toString i) = true := by
  have key : ∀ stem ∈ stems, isName stem = true := by decide
  refine isName_append (key stem hs) fun c hc => ?_
  rw [Syntax.isNamePart, Char.isAlphanum, Number.isDigit_toString i c hc, Bool.or_true,
    Bool.true_or]

theorem Helper.isName {K : Expr → Prop} {E : List (String × String × Nat)} (h : Helper K E name b) :
    isName name = true := by
  cases h with
  | held hs => exact isName_number (mem_stems hs.1) _
  | split | line => exact isName_number (by decide) _

section

variable {C : Const → Prop} {I : State → Prop} {s : State}

/-- Invariants that naming keys and binding helpers keep. -/
structure Tolerant (C : Const → Prop) (I : State → Prop) : Prop where
  routines : ∀ {s routines}, I s → I { s with routines }
  named : ∀ {s} stem key, I s → I (s.named stem key)
  bound : ∀ {s name b}, I s → Helper (Expr.Lowered C) s.namer.entries name b → I (s.bound name b)

theorem tolerant_sound : Tolerant C fun s => s.namer.Sound where
  routines h := h
  named stem key h := h.nameFor stem key
  bound h _ := h

theorem Tolerant.hosts (hI : Tolerant C I) : Hosts I fun _ e => e.Lowered C where
  grows _ h := h
  named key _ h := hI.named _ key h
  bound h _ hb := hI.bound h hb

end

/-- Literals of the kind `P` write constants of the kind `C`, among them those that the library
    writes itself. -/
structure Admits (P : Literal → Prop) (C : Const → Prop) : Prop where
  string : ∀ v, P (.string v)
  digit : ∀ d ∈ ["0", "1", "2"], P (.number d)
  const : ∀ {v c}, P v → Lowering.constant? v = some c → C c
  written : ∀ c, C c → c.Written

theorem admits_spelt : Admits Literal.Spelt Const.Written where
  string := Literal.spelt_string
  digit := Literal.spelt_digit
  const := Lowering.written_constant?
  written _ h := h

/-! ### Asking for helpers -/

section

variable {C : Const → Prop} {U V : String → Prop} {s : State}

namespace Hygienic

theorem flip (s : State) : Hygienic C U V s ↔ Hygienic C V U s.flip :=
  ⟨fun h => ⟨h.namer, h.rows, h.scope⟩, fun h => ⟨h.namer, h.rows, h.scope⟩⟩

theorem named (h : Hygienic C U V s) (stem key : String) : Hygienic C U V (s.named stem key) :=
  have hE := (s.grows_named stem key).namer.subset
  ⟨h.namer.nameFor stem key, h.scope.mono hE, h.rows.mono hE⟩

theorem bound (h : Hygienic C U V s) {name : String} {b : Expr}
    (hb : Entry C U s.namer.entries name b) : Hygienic C U V (s.bound name b) := by
  refine ⟨h.namer, fun n c hm => ?_, h.rows⟩
  rcases List.mem_append.1 hm with hm | hm
  · exact h.scope n c hm
  · cases List.mem_singleton.1 hm
    exact hb

theorem tolerant : Tolerant C (Hygienic C U V) where
  routines h := ⟨h.namer, h.scope, h.rows⟩
  named stem key h := h.named stem key
  bound h hb := h.bound (.helper hb)

variable {stem : String}

/-- What is bound under the name of a helper is a helper. -/
theorem helper (h : Hygienic C U V s) (hU : ∀ n, U n → isGenerated n = false)
    (hs : stem ∈ libraryStems) {i : Nat} {b : Expr}
    (hb : s.scope.binding? (stem ++ toString i) = some b) :
    Helper (Expr.Lowered C) s.namer.entries (stem ++ toString i) b :=
  (h.scope _ b (Scope.mem_of_binding? hb)).of_isGenerated hU (isGenerated_number hs i)

theorem require (r : Awk.Routine) : Lands (Hygienic C U V) s (Lower.require r) fun _ _ => True := by
  intro hi u s' hr
  obtain rfl := Lower.require_eq_ok.1 hr
  exact ⟨⟨hi.namer, hi.scope, hi.rows⟩, s.grows_required r, trivial⟩

/-- Whoever asks to hold a value gets a reference for that value. -/
theorem hold (hU : ∀ n, U n → isGenerated n = false) (hs : Holds stem) {v : Expr}
    (hv : v.Lowered C) :
    Lands (Hygienic C U V) s (Lower.helper stem v) fun s e => Held s.scope stem v e := by
  refine (tolerant.hosts.hold hs hv).imp fun e s' _ hi he => ?_
  rcases he with ⟨hf, rfl⟩ | ⟨hf, i, b, hk, hb, rfl⟩
  · exact .column hf
  · obtain ⟨w, rfl, hw, -⟩ := (hi.helper hU hs.1 hb).of_held hi.namer hs hk
    exact .var hf hb hw

/-- Whoever asks to split a value gets references for its parts. -/
theorem split (hC : ∀ c, C c → c.Written) (hU : ∀ n, U n → isGenerated n = false) {delim v : Expr}
    (hd : delim.Lowered C) (hv : v.Lowered C) :
    Lands (Hygienic C U V) s (Library.split delim v) fun s p => Parted s.scope delim v p := by
  refine (tolerant.hosts.part hd hv).imp fun p s' _ hi he => ?_
  obtain ⟨i, j, b, hcount, harray, hb, rfl⟩ := he
  obtain ⟨w, d, rfl, hkey, hw, hd'⟩ := (hi.helper hU (by decide) hb).of_split hi.namer hcount harray
  have hparts := Namer.keyOf_inj (by simp) (by simp) (by simp [hw.balanced hC, hd'.balanced hC])
    (by simp [hv.balanced hC, hd.balanced hC]) hkey
  simp only [List.cons.injEq, and_true] at hparts
  exact .intro hb hparts.1 hparts.2

/-- Whoever asks for the line of a command gets a reference for that line. -/
theorem fetch (hU : ∀ n, U n → isGenerated n = false) {command : Expr}
    (hc : command.Lowered C) :
    Lands (Hygienic C U V) s (Library.shell command) fun s e => Fetched s.scope command e := by
  refine (tolerant.hosts.fetch hc).imp fun e s' _ hi he => ?_
  obtain ⟨i, b, hk, hb, rfl⟩ := he
  obtain ⟨c, rfl, hc', -⟩ := (hi.helper hU (by decide) hb).of_line hi.namer hk
  exact .intro hb hc'

/-! ### Calls of the library -/

/-- Values along a list are held one by one. -/
theorem holdAll (hU : ∀ n, U n → isGenerated n = false) (hs : Holds stem) :
    ∀ {values : List Expr} {s : State}, (∀ v ∈ values, v.Lowered C) →
      Lands (Hygienic C U V) s (values.mapM (Lower.helper stem)) fun s held =>
        List.Forall₂ (Held s.scope stem) values held
  | [], s, _ => by
    rw [List.mapM_nil]
    exact lands_pure fun _ => .nil
  | v :: values, s, hv => by
    rw [List.mapM_cons]
    refine (hold hU hs (hv v List.mem_cons_self)).bind fun x s₁ _ _ hx => ?_
    refine (holdAll hU hs fun w hw => hv w (List.mem_cons_of_mem v hw)).bind
      fun held s₂ hg _ hheld => lands_pure fun _ => ?_
    exact .cons (hx.mono hg.scope) hheld

theorem lookUp (hU : ∀ n, U n → isGenerated n = false) {r : Awk.Routine} (hs : Holds ("_" ++ r.name))
    {args : List Expr} (ha : ∀ a ∈ args, a.Lowered C) :
    Lands (Hygienic C U V) s (Library.lookUp r args) fun s x =>
      ∃ held, List.Forall₂ (Held s.scope ("_" ++ r.name)) args held ∧ x = .call r.name held := by
  refine (require r).bind fun _ s₁ _ _ _ => ?_
  refine (holdAll hU hs ha).bind fun held s₂ _ _ hheld => lands_pure fun _ => ?_
  exact ⟨held, hheld, rfl⟩

/-- The tree of comparisons holds every value. -/
theorem comparisonTree (hU : ∀ n, U n → isGenerated n = false) {f : Function} {o : Awk.Op}
    (hs : Holds ("_" ++ f.name)) (values : List Expr) (s : State) (hv : ∀ v ∈ values, v.Lowered C) :
    Lands (Hygienic C U V) s (Library.comparisonTree f o values) fun s x =>
      ∃ held, List.Forall₂ (Held s.scope ("_" ++ f.name)) values held ∧ Compared o held x := by
  induction values using Library.comparisonTree.induct generalizing s with
  | case1 =>
    rw [Library.comparisonTree]
    exact lands_fail
  | case2 v =>
    rw [Library.comparisonTree]
    refine (hold hU hs (hv v List.mem_cons_self)).imp fun x s' _ _ hx => ?_
    exact ⟨[x], .cons hx .nil, .one⟩
  | case3 a b more half ihl ihr =>
    rw [Library.comparisonTree]
    refine (ihl s fun v hm => hv v (List.mem_of_mem_take hm)).bind fun left s₁ _ _ hl => ?_
    refine (ihr s₁ fun v hm => hv v (List.mem_of_mem_drop hm)).bind fun right s₂ hg _ hr => ?_
    obtain ⟨xs, hxs, hleft⟩ := hl
    obtain ⟨ys, hys, hright⟩ := hr
    refine lands_pure fun _ => ⟨xs ++ ys, ?_, .node hleft hright⟩
    rw [← List.take_append_drop half (a :: b :: more)]
    exact List.rel_append (hxs.imp fun _ _ h => h.mono hg.scope) hys

end Hygienic

/-! ### Everything lowering does -/

variable {P : Literal → Prop} {I : State → Prop}

theorem Tolerant.furnishes (hI : Tolerant C I) : Furnishes I fun _ e => e.Lowered C where
  toHosts := hI.hosts
  held _ hs _ := .var (isName_number (mem_stems hs) _)
  element _ _ _ _ hx := .subscript (.sideEffect (isName_number (by decide) _)) hx
  line _ _ _ := .sideEffect (isName_number (by decide) _)

/-- Lowering builds lowered expressions, whatever the scopes have bound. -/
theorem closed_lowered (hI : Tolerant C I) (hP : Admits P C) :
    Closed P I fun _ e => e.Lowered C where
  grows _ he := he
  routines _ hi := hI.routines hi
  string := hP.string
  digit := hP.digit
  const hv hc := .const (hP.const hv hc)
  field hf := by
    obtain ⟨i, type, -, rfl⟩ := Scope.field?_cases hf
    exact .field
  var _ hn _ := .var hn
  word hw := .builtin hw
  call hf _ ha := .call hf ha
  sign hf ha := .sign hf ha
  subscript hb hi := .subscript hb hi
  op ho ha := .op ho ha
  conditional ht hy hn := .conditional ht hy hn
  helper hs hs' hv := hI.furnishes.helper ⟨hs, hs'⟩ hv
  split hd hv := hI.furnishes.split hd hv
  shell hc := hI.furnishes.shell hc

theorem closedRows_lowered {J : State → Prop} (hI : Tolerant C I) (hJ : Tolerant C J)
    (hP : Admits P C) (hflip : ∀ s, I s ↔ J s.flip) (category : Category) :
    ClosedRows P I J (fun _ e => e.Lowered C) (fun _ e => e.Lowered C) category where
  rows := closed_lowered hJ hP
  flip := hflip
  accumulate _ _ := by
    refine (lands_nameFor (hI.named _ _)).bind fun name s₁ _ _ hname => lands_pure fun _ => ?_
    obtain ⟨i, rfl, -⟩ := hname
    refine .aggregate (isName_number ?_ i)
    cases category <;> decide

/-- A call of the library becomes what `Expansion` says. -/
theorem lands_expand (hP : Admits P C) (hU : ∀ n, U n → isGenerated n = false) (f : Function)
    {b : Bound Expr} (hv : ∀ v ∈ b.values, v.Lowered C) (hr : ∀ v ∈ b.rest, v.Lowered C) :
    Lands (Hygienic C U V) s (Library.expand f b) fun s x => Expansion s.scope b f x := by
  have harg : ∀ i, (Library.arg b i).Lowered C :=
    (closed_lowered (I := Hygienic C U V) Hygienic.tolerant hP).arg (s := s) hv
  cases f with
  | abs =>
    refine (Hygienic.hold hU (by decide) (harg 0)).bind fun x s' _ _ hx => ?_
    exact lands_pure fun _ => .abs hx
  | crc32 =>
    refine (Hygienic.lookUp hU (by decide) (by simpa using harg 0)).imp fun x s' _ _ hx => ?_
    obtain ⟨_, _ | ⟨h₀, _ | _⟩, rfl⟩ := hx
    exact .crc32 h₀
  | domain => exact lands_pure fun _ => .domain
  | isInFile =>
    refine (Hygienic.lookUp hU (by decide) (by simp [harg])).imp fun x s' _ _ hx => ?_
    obtain ⟨_, _ | ⟨h₀, _ | ⟨h₁, _ | _⟩⟩, rfl⟩ := hx
    exact .isInFile h₀ h₁
  | join => exact lands_pure fun _ => .join
  | mapFromFile =>
    refine (Hygienic.lookUp hU (by decide) (by simp [harg])).imp fun x s' _ _ hx => ?_
    obtain ⟨_, _ | ⟨h₀, _ | ⟨h₁, _ | ⟨h₂, _ | _⟩⟩⟩, rfl⟩ := hx
    exact .mapFromFile h₀ h₁ h₂
  | max =>
    refine (Hygienic.comparisonTree hU (by decide) b.rest s hr).imp fun x s' _ _ hx => ?_
    obtain ⟨held, hheld, hx⟩ := hx
    exact .max hheld hx
  | min =>
    refine (Hygienic.comparisonTree hU (by decide) b.rest s hr).imp fun x s' _ _ hx => ?_
    obtain ⟨held, hheld, hx⟩ := hx
    exact .min hheld hx
  | netlocator => exact lands_pure fun _ => .netlocator
  | shell => exact (Hygienic.fetch hU (harg 0)).imp fun x s' _ _ hx => .shell hx
  | strip =>
    refine (Hygienic.hold hU (by decide) (harg 0)).bind fun x s' _ _ hx => ?_
    exact lands_pure fun _ => .strip hx
  | strptime =>
    rw [Library.expand, Library.strptime]
    split
    · exact lands_fail
    · rename_i format hf
      split
      · exact lands_fail
      · rename_i ps hps
        exact lands_pure fun _ => .strptime hf hps
  | uniq =>
    refine (Hygienic.require _).bind fun _ s₁ _ _ _ => ?_
    refine (Hygienic.hold hU (by decide) (harg 1)).bind fun x s₂ _ _ hx => ?_
    exact lands_pure fun _ => .uniq hx
  | unjoin =>
    refine (Hygienic.split hP.written hU (harg 0) (harg 1)).bind fun p s₁ _ _ hp => ?_
    exact lands_pure fun _ => .unjoin hp
  | unjoinCount =>
    refine (Hygienic.split hP.written hU (harg 0) (harg 1)).bind fun p s₁ _ _ hp => ?_
    exact lands_pure fun _ => .unjoinCount hp

end

end RowAwk.Compile
