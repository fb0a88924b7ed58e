import RowAwk.Compile.GroupProgram
import RowAwk.Proofs.Materialization

/-!
Ways through a program, and whether they find what they look up.

A line looks up variables and then sets some. Which blocks run depends on the row, so there are many
ways through a program; on each of them the lines stand one after the other. A way is `Sure` if
every step looks up only what is there: what was there at the start, or has been set since.

    y = x + 1;      if(y > 0)      { z = y }      print(z)
    looks up x      looks up y     may not run    sure on one of two ways, if x is there

A program goes through its parts in passes: once before the rows, once for each row, once at the
end. What a pass sets is taken to be lost with it, except for accumulators and the keys of the
current group.
-/

open List

namespace RowAwk.Awk

/-! ### Steps -/

namespace Expr

mutual

/-- The variables that evaluating an expression looks up. Words of awk are not among them. -/
def lookups : Expr → List String
  | .const _ => []
  | .field _ _ _ => []
  | .var name _ => [name]
  | .builtin _ => []
  | .sideEffect name _ => [name]
  | .call _ args => lookupsAll args
  | .subscript base index => lookups base ++ lookups index
  | .op _ args => lookupsAll args
  | .conditional test yes no => lookups test ++ (lookups yes ++ lookups no)
  | .assign _ value => lookups value
  | .aggregate accumulator _ => [accumulator.name]

def lookupsAll : List Expr → List String
  | [] => []
  | e :: es => lookups e ++ lookupsAll es

end

theorem mem_lookupsAll {x : String} :
    ∀ {es : List Expr}, x ∈ lookupsAll es ↔ ∃ e ∈ es, x ∈ lookups e
  | [] => by simp [lookupsAll]
  | e :: es => by simp [lookupsAll, @mem_lookupsAll x es]

theorem lookups_boundValue (e : Expr) : e.boundValue.lookups = e.lookups := by
  cases e <;> rfl

end Expr

/-- The variables that a statement or a test looks up, and those that it sets then. -/
structure Step where
  lookups : List String
  sets : List String

def Step.of (statement : Expr) : Step := ⟨statement.lookups, Compile.writes statement⟩

/-- What a line does, one step after the other. An accumulator is there once it has been set up:
    its templates keep what they need in variables beside it. -/
def Line.steps : Line → List Step
  | .separator => [⟨[], ["OFS"]⟩]
  | .prepare statement => [.of statement]
  | .rowKey key => [.of key.compute]
  | .takeOver key => [.of key.keep]
  | .compute statements => statements.map .of
  | .print values => [⟨Expr.lookupsAll values, []⟩]
  | .init fold => [⟨[], [fold.accumulator.name]⟩]
  | .update fold =>
    [⟨fold.accumulator.name :: Expr.lookupsAll fold.args, [fold.accumulator.name]⟩]
  | .finish fold => [⟨[fold.accumulator.name], [fold.accumulator.name]⟩]

namespace Head

def lookups : Head → List String
  | .holds test => test.lookups
  | .keyChanged keys => keys.flatMap fun k => [k.name, k.rowName]
  | .firstRow => []
  | .laterRow => []
  | .anyRow => []

/-- Whether a block may run once `nr` rows have been read. A program may set `NR` itself, so little
    is taken for granted: the first row is the first, and without rows there is none. -/
def MayRun (nr : Nat) : Head → Prop
  | .laterRow => nr ≠ 1
  | .anyRow => nr ≠ 0
  | .firstRow => True
  | .holds _ => True
  | .keyChanged _ => True

/-- Whether a block may be skipped. -/
def MaySkip (nr : Nat) : Head → Prop
  | .firstRow => nr ≠ 1
  | .laterRow => True
  | .anyRow => True
  | .holds _ => True
  | .keyChanged _ => True

theorem mayRun_or_maySkip (nr : Nat) : ∀ h : Head, h.MayRun nr ∨ h.MaySkip nr
  | .firstRow => .inl trivial
  | .laterRow => .inr trivial
  | .anyRow => .inr trivial
  | .holds _ => .inl trivial
  | .keyChanged _ => .inl trivial

end Head

/-! ### Ways -/

/-- The steps of a block, on one of the ways through it. -/
inductive Way (nr : Nat) : Block Line Head → List Step → Prop
  | nil : Way nr [] []
  | line {l rest path} : Way nr rest path → Way nr (.line l :: rest) (l.steps ++ path)
  | block {items rest inner path} : Way nr items inner → Way nr rest path →
      Way nr (.block items :: rest) (inner ++ path)
  | run {h items rest inner path} : h.MayRun nr → Way nr items inner → Way nr rest path →
      Way nr (.head h items :: rest) (⟨h.lookups, []⟩ :: (inner ++ path))
  | skip {h items rest path} : h.MaySkip nr → Way nr rest path →
      Way nr (.head h items :: rest) (⟨h.lookups, []⟩ :: path)

theorem exists_way (nr : Nat) : ∀ block : Block Line Head, ∃ path, Way nr block path
  | [] => ⟨[], .nil⟩
  | .line l :: rest => by
    obtain ⟨path, h⟩ := exists_way nr rest
    exact ⟨_, .line h⟩
  | .block items :: rest => by
    obtain ⟨inner, hi⟩ := exists_way nr items
    obtain ⟨path, h⟩ := exists_way nr rest
    exact ⟨_, .block hi h⟩
  | .head head items :: rest => by
    obtain ⟨inner, hi⟩ := exists_way nr items
    obtain ⟨path, h⟩ := exists_way nr rest
    rcases head.mayRun_or_maySkip nr with hr | hs
    · exact ⟨_, .run hr hi h⟩
    · exact ⟨_, .skip hs h⟩

theorem Way.append {nr : Nat} {a b : Block Line Head} {path : List Step} (h : Way nr (a ++ b) path) :
    ∃ p q, path = p ++ q ∧ Way nr a p ∧ Way nr b q := by
  induction a generalizing path with
  | nil => exact ⟨[], path, rfl, .nil, h⟩
  | cons item items ih =>
    cases h with
    | line h =>
      obtain ⟨p, q, rfl, hp, hq⟩ := ih h
      exact ⟨_, q, by simp, .line hp, hq⟩
    | block hi h =>
      obtain ⟨p, q, rfl, hp, hq⟩ := ih h
      exact ⟨_, q, by simp, .block hi hp, hq⟩
    | run hr hi h =>
      obtain ⟨p, q, rfl, hp, hq⟩ := ih h
      exact ⟨_, q, by simp, .run hr hi hp, hq⟩
    | skip hs h =>
      obtain ⟨p, q, rfl, hp, hq⟩ := ih h
      exact ⟨_, q, by simp, .skip hs hp, hq⟩

theorem Way.lines {nr : Nat} {α : Type} {line : α → Line} {as : List α} {path : List Step}
    (h : Way nr (as.map fun a => .line (line a)) path) :
    path = as.flatMap fun a => (line a).steps := by
  induction as generalizing path with
  | nil =>
    cases h
    rfl
  | cons a as ih =>
    cases h with
    | line h => rw [flatMap_cons, ih h]

/-! ### Sure ways -/

/-- Every step looks up only what is there: what `K` has, or an earlier step has set. -/
def Sure (K : String → Prop) : List Step → Prop
  | [] => True
  | s :: rest => (∀ x ∈ s.lookups, K x) ∧ Sure (fun x => K x ∨ x ∈ s.sets) rest

/-- What is there after some steps. -/
def There (K : String → Prop) (path : List Step) (x : String) : Prop :=
  K x ∨ ∃ s ∈ path, x ∈ s.sets

section

variable {K L : String → Prop} {path p q : List Step} {x : String}

theorem Sure.mono (h : Sure K path) (hK : ∀ x, K x → L x) : Sure L path := by
  induction path generalizing K L with
  | nil => trivial
  | cons s rest ih =>
    exact ⟨fun x hx => hK x (h.1 x hx), ih h.2 fun x hx => hx.imp_left (hK x)⟩

theorem There.mono (h : There K path x) (hK : ∀ x, K x → L x) : There L path x :=
  h.imp_left (hK x)

theorem there_append : There K (p ++ q) x ↔ There (There K p) q x := by
  simp only [There, mem_append, or_and_right, exists_or, or_assoc]

theorem there_cons {s : Step} : There K (s :: p) x ↔ There (fun x => K x ∨ x ∈ s.sets) p x := by
  simp only [There, mem_cons, or_and_right, exists_or, exists_eq_left, or_assoc]

theorem sure_append : Sure K (p ++ q) ↔ Sure K p ∧ Sure (There K p) q := by
  induction p generalizing K with
  | nil =>
    have hnil : There K [] = K := by
      funext x
      simp [There]
    rw [hnil]
    simp [Sure]
  | cons s rest ih =>
    have hcons : There K (s :: rest) = There (fun x => K x ∨ x ∈ s.sets) rest := by
      funext x
      exact propext there_cons
    rw [cons_append, Sure, Sure, ih, hcons, and_assoc]

/-- Steps that each look up what is there at the start. -/
theorem sure_of_forall (h : ∀ s ∈ path, ∀ x ∈ s.lookups, K x) : Sure K path := by
  induction path generalizing K with
  | nil => trivial
  | cons s rest ih =>
    refine ⟨h s mem_cons_self, ih fun t ht x hx => .inl ?_⟩
    exact h t (mem_cons_of_mem s ht) x hx

end

/-! ### What a block secures -/

/-- Where `K` is there, every way through a block is sure, and at its end `T` is there. -/
def Secures (nr : Nat) (K : String → Prop) (block : Block Line Head) (T : String → Prop) : Prop :=
  ∀ path, Way nr block path → Sure K path ∧ ∀ x, T x → There K path x

namespace Secures

variable {nr : Nat} {K K' M T T' : String → Prop} {a b : Block Line Head}

theorem imp (h : Secures nr K a T) (hK : ∀ x, K x → K' x) (hT : ∀ x, T' x → T x) :
    Secures nr K' a T' := by
  intro path hw
  obtain ⟨hs, ht⟩ := h path hw
  exact ⟨hs.mono hK, fun x hx => (ht x (hT x hx)).mono hK⟩

theorem nil (h : ∀ x, T x → K x) : Secures nr K [] T := by
  intro path hw
  cases hw
  exact ⟨trivial, fun x hx => .inl (h x hx)⟩

theorem append (ha : Secures nr K a M) (hb : Secures nr M b T) : Secures nr K (a ++ b) T := by
  intro path hw
  obtain ⟨p, q, rfl, hp, hq⟩ := hw.append
  obtain ⟨hsp, hM⟩ := ha p hp
  obtain ⟨hsq, hT⟩ := hb q hq
  exact ⟨sure_append.2 ⟨hsp, hsq.mono hM⟩, fun x hx => there_append.2 ((hT x hx).mono hM)⟩

theorem line {l : Line} (hs : Sure K l.steps) (hT : ∀ x, T x → There K l.steps x) :
    Secures nr K [.line l] T := by
  intro path hw
  cases hw with
  | line hw =>
    cases hw
    rw [append_nil]
    exact ⟨hs, hT⟩

/-- Lines that each look up what is there at the start. -/
theorem lines {α : Type} (line : α → Line) {as : List α}
    (h : ∀ a ∈ as, ∀ s ∈ (line a).steps, ∀ x ∈ s.lookups, K x) :
    Secures nr K (as.map fun a => .line (line a)) fun x =>
      K x ∨ ∃ a ∈ as, ∃ s ∈ (line a).steps, x ∈ s.sets := by
  intro path hw
  rw [hw.lines]
  refine ⟨sure_of_forall fun s hs => ?_, fun x hx => hx.imp_right ?_⟩
  · obtain ⟨a, ha, hs⟩ := mem_flatMap.1 hs
    exact h a ha s hs
  · rintro ⟨a, ha, s, hs, hx⟩
    exact ⟨s, mem_flatMap.2 ⟨a, ha, hs⟩, hx⟩

/-- A block under a head secures what it secures if it runs, and what was there if it may be
    skipped. -/
theorem head {h : Head} (hl : ∀ x ∈ h.lookups, K x) (hrun : h.MayRun nr → Secures nr K a T)
    (hskip : h.MaySkip nr → ∀ x, T x → K x) : Secures nr K [.head h a] T := by
  intro path hw
  cases hw with
  | @run _ _ _ inner path hr hi hrest =>
    cases hrest
    obtain ⟨hs, hT⟩ := hrun hr inner hi
    rw [append_nil]
    refine ⟨⟨hl, hs.mono fun x hx => .inl hx⟩, fun x hx => there_cons.2 ?_⟩
    exact (hT x hx).mono fun x hx => .inl hx
  | skip hk hrest =>
    cases hrest
    exact ⟨⟨hl, trivial⟩, fun x hx => .inl (hskip hk x hx)⟩

end Secures

/-! ### Passes -/

namespace Program

/-- The passes of a run: before the rows, for each of them, and at the end. -/
def Run (p : Program Line Head) (passes : List (List Step)) : Prop :=
  ∃ start rows finish, passes = start :: (rows ++ [finish]) ∧ Way 0 p.start start ∧
    (∀ i row, rows[i]? = some row → Way (i + 1) p.row row) ∧ Way rows.length p.finish finish

/-- A program has a run for any number of rows. -/
theorem exists_run (p : Program Line Head) (n : Nat) :
    ∃ passes, p.Run passes ∧ passes.length = n + 2 := by
  obtain ⟨start, hs⟩ := exists_way 0 p.start
  obtain ⟨finish, hf⟩ := exists_way n p.finish
  choose row hr using fun i => exists_way (i + 1) p.row
  refine ⟨start :: ((List.range n).map row ++ [finish]), ⟨start, _, finish, rfl, hs, ?_, ?_⟩, ?_⟩
  · intro i path hi
    obtain ⟨j, hj, rfl⟩ := Option.map_eq_some_iff.1 (List.getElem?_map .. ▸ hi)
    obtain ⟨-, rfl⟩ := List.getElem?_eq_some_iff.1 hj
    simpa using hr i
  · simpa using hf
  · simp

/-- Names that outlast a pass: accumulators, and the keys of the current group. -/
def Lasting (name : String) : Prop :=
  ∃ stem ∈ ["__grp_", "__acc_", "__key"], ∃ i : Nat, name = stem ++ toString i

/-- In every run, each variable that is looked up has been set before in the same pass, or lasts and
    has been set in an earlier one; `E` are exceptions. -/
def Defines (E : String → Prop) (p : Program Line Head) : Prop :=
  ∀ passes, p.Run passes → ∀ before pass after, passes = before ++ pass :: after →
    Sure (fun x => E x ∨ Lasting x ∧ ∃ q ∈ before, ∃ s ∈ q, x ∈ s.sets) pass

/-- A program defines what it looks up if the names `G` are set before the rows, `H` on the first
    row, and each pass needs nothing else from the others. -/
theorem defines_of_secures {p : Program Line Head} {E G H : String → Prop}
    (hstart : Secures 0 E p.start G)
    (hrow : ∀ nr, Secures (nr + 1) (fun x => E x ∨ G x ∨ nr ≠ 0 ∧ H x) p.row H)
    (hfinish : ∀ nr, Secures nr (fun x => E x ∨ G x ∨ nr ≠ 0 ∧ H x) p.finish fun _ => False)
    (hlast : ∀ x, G x ∨ H x → Lasting x) : p.Defines E := by
  rintro passes ⟨start, rows, finish, rfl, hs, hr, hf⟩ before pass after heq
  obtain ⟨hsure, hG⟩ := hstart start hs
  cases before with
  | nil =>
    cases heq
    exact hsure.mono fun x hx => .inl hx
  | cons first before =>
    rw [cons_append, List.cons.injEq] at heq
    obtain ⟨rfl, heq⟩ := heq
    -- what the passes before this one have set
    have there : ∀ x, E x ∨ G x ∨ before.length ≠ 0 ∧ H x →
        E x ∨ Lasting x ∧ ∃ q ∈ start :: before, ∃ s ∈ q, x ∈ s.sets := by
      have given {x : String} (hx : G x) :
          E x ∨ Lasting x ∧ ∃ q ∈ start :: before, ∃ s ∈ q, x ∈ s.sets :=
        (hG x hx).imp_right fun hset => ⟨hlast x (.inl hx), start, mem_cons_self, hset⟩
      rintro x (hx | hx | ⟨hne, hx⟩)
      · exact .inl hx
      · exact given hx
      · cases before with
        | nil => exact absurd rfl hne
        | cons row before =>
          have hfirst : (rows ++ [finish])[0]? = some row := by rw [heq]; rfl
          cases rows with
          | nil => simp at heq
          | cons row' rows =>
            cases hfirst
            rcases (hrow 0 row (hr 0 row rfl)).2 x hx with (hE | hg | ⟨h0, -⟩) | hset
            · exact .inl hE
            · exact given hg
            · exact absurd rfl h0
            · exact .inr ⟨hlast x (.inr hx), row, by simp, hset⟩
    have hpass : (rows ++ [finish])[before.length]? = some pass := by
      rw [heq, List.getElem?_append_right (Nat.le_refl _), Nat.sub_self, List.getElem?_cons_zero]
    rcases Nat.lt_or_ge before.length rows.length with hlt | hge
    · rw [List.getElem?_append_left hlt] at hpass
      exact (hrow _ pass (hr _ pass hpass)).1.mono there
    · have hlen : before.length = rows.length := by
        have := congrArg List.length heq
        simp only [length_append, length_cons, length_nil] at this
        omega
      rw [hlen, List.getElem?_append_right (Nat.le_refl _), Nat.sub_self] at hpass
      cases hpass
      exact (hfinish _ finish (hlen ▸ hf)).1.mono there

end Program

end RowAwk.Awk
