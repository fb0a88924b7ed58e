import RowAwk.Proofs.Headers

/-!
Modifiers of a sort order, in any order.

The modifiers of an entry are taken one after the other, with the kind and the direction so far at
hand. A list of them is accepted if each one is known and neither the kind nor the direction is said
twice; then it does not matter which comes first:

    ctr:desc:num   ctr:num:desc        numbers that fall
    ctr:num:up:asc:desc                refused at `up`, whatever comes after it

A list that is refused has a longest accepted part at its head. The modifier after that part is the
one that the failure is about.
-/

open List

namespace RowAwk.Schema

theorem SortKind.ofName?_eq_some {name : String} {k : SortKind} :
    ofName? name = some k ↔ k.name = name := by
  constructor
  · intro h
    have hname := List.find?_some h
    exact beq_iff_eq.1 hname
  · rintro rfl
    cases k <;> rfl

namespace Order

variable {ms : List String} {name : String}

/-- Whether a modifier says how values compare. -/
def isKind (m : String) : Bool := (SortKind.ofName? m).isSome

/-- The direction that a modifier says. -/
def direction? (m : String) : Option Bool :=
  if m = "asc" then some false else if m = "desc" then some true else none

/-- Whether a modifier says a direction. -/
def isDirection (m : String) : Bool := (direction? m).isSome

/-- Modifiers that can stand together: all are known, and none says again what another has said. -/
structure Compatible (ms : List String) : Prop where
  known : ∀ m ∈ ms, isKind m = true ∨ isDirection m = true
  kinds : ms.countP isKind ≤ 1
  directions : ms.countP isDirection ≤ 1

/-- What is wrong with a modifier of `entry` after those `before` it. -/
inductive Offends (entry : String) (before : List String) (m : String) : SchemaError → Prop
  | unknown : isKind m = false → isDirection m = false → Offends entry before m (.unknownModifier m)
  | kind {first} : isKind m = true → first ∈ before → isKind first = true →
      Offends entry before m (.conflictingKinds first m)
  | direction {first} : isDirection m = true → first ∈ before → isDirection first = true →
      Offends entry before m (.ambiguousDirection entry)

/-- What the text of an entry says after the name, cut at its colons. -/
def writtenModifiers (o : Order) : List String :=
  (Text.pieces (· == ':') (o.text.toList.drop o.name.toList.length)).tail.map String.ofList

/-! ### One modifier -/

/-- A modifier says nothing, a kind or a direction, and never two of these. -/
theorem modifier_cases (m : String) :
    Modifier.ofText? m = none ∧ SortKind.ofName? m = none ∧ direction? m = none ∨
      (∃ k, Modifier.ofText? m = some (.kind k) ∧ SortKind.ofName? m = some k ∧
        direction? m = none) ∨
      ∃ d, Modifier.ofText? m = some (.direction d) ∧ SortKind.ofName? m = none ∧
        direction? m = some d := by
  cases hk : SortKind.ofName? m with
  | some k =>
    have hname := SortKind.ofName?_eq_some.1 hk
    have hdirection : direction? m = none := by
      subst hname
      cases k <;> rfl
    exact .inr (.inl ⟨k, by rw [Modifier.ofText?, hk], rfl, hdirection⟩)
  | none =>
    have htext : Modifier.ofText? m = (direction? m).map .direction := by
      simp only [Modifier.ofText?, hk, direction?]
      split
      · rfl
      · split <;> rfl
    cases hd : direction? m with
    | some d => exact .inr (.inr ⟨d, by rw [htext, hd]; rfl, rfl, rfl⟩)
    | none => exact .inl ⟨by rw [htext, hd]; rfl, rfl, rfl⟩

/-- The kinds that some modifiers say. -/
def kindsOf (ms : List String) : List SortKind := ms.filterMap SortKind.ofName?

/-- The directions that some modifiers say. -/
def directionsOf (ms : List String) : List Bool := ms.filterMap direction?

theorem length_kindsOf (ms : List String) : (kindsOf ms).length = ms.countP isKind :=
  length_filterMap_eq_countP

theorem length_directionsOf (ms : List String) : (directionsOf ms).length = ms.countP isDirection :=
  length_filterMap_eq_countP

/-! ### All modifiers -/

section

variable {entry : String} {kind : Option SortKind} {descending : Option Bool}

/-- What the modifiers before and a list of more say together, as long as they say it once. -/
theorem applyModifiers_eq_ok {r : Option SortKind × Option Bool} :
    applyModifiers entry kind descending ms = .ok r ↔
      (∀ m ∈ ms, isKind m = true ∨ isDirection m = true) ∧
        (kind.toList ++ kindsOf ms).length ≤ 1 ∧
        (descending.toList ++ directionsOf ms).length ≤ 1 ∧
        r = ((kind.toList ++ kindsOf ms).head?, (descending.toList ++ directionsOf ms).head?) := by
  induction ms generalizing kind descending with
  | nil => simp [applyModifiers, kindsOf, directionsOf, eq_comm (a := r)]
  | cons m ms ih =>
    unfold applyModifiers
    rcases modifier_cases m with ⟨ht, hk, hd⟩ | ⟨k, ht, hk, hd⟩ | ⟨d, ht, hk, hd⟩
    · simp [ht, isKind, isDirection, hk, hd]
    · cases kind with
      | some previous => simp [ht, kindsOf, hk]
      | none => simp [ht, ih, isKind, isDirection, kindsOf, directionsOf, hk, hd]
    · cases descending with
      | some previous => simp [ht, directionsOf, hd]
      | none => simp [ht, ih, isKind, isDirection, kindsOf, directionsOf, hk, hd]

theorem applyModifiers_cons (m : String) (ms : List String) :
    applyModifiers entry kind descending (m :: ms)
      = applyModifiers entry kind descending [m] >>= fun r => applyModifiers entry r.1 r.2 ms := by
  rcases modifier_cases m with ⟨ht, -, -⟩ | ⟨k, ht, -, -⟩ | ⟨d, ht, -, -⟩
  · simp only [applyModifiers, ht]
    rfl
  · cases kind <;> simp only [applyModifiers, ht] <;> rfl
  · cases descending <;> simp only [applyModifiers, ht] <;> rfl

variable {e : SchemaError}

/-- A failure is that of one modifier after others that are accepted. -/
theorem applyModifiers_eq_error :
    applyModifiers entry kind descending ms = .error e ↔
      ∃ before m after r, ms = before ++ m :: after ∧
        applyModifiers entry kind descending before = .ok r ∧
        applyModifiers entry r.1 r.2 [m] = .error e := by
  induction ms generalizing kind descending with
  | nil => simp [applyModifiers]
  | cons m ms ih =>
    rw [applyModifiers_cons]
    constructor
    · intro h
      cases hm : applyModifiers entry kind descending [m] with
      | error e' =>
        rw [hm] at h
        exact ⟨[], m, ms, (kind, descending), rfl, rfl, hm.trans h⟩
      | ok r =>
        rw [hm] at h
        obtain ⟨before, m', after, r', rfl, hbefore, he⟩ := ih.1 h
        refine ⟨m :: before, m', after, r', rfl, ?_, he⟩
        rw [applyModifiers_cons, hm]
        exact hbefore
    · rintro ⟨before, m', after, r', heq, hbefore, he⟩
      cases before with
      | nil =>
        obtain ⟨rfl, rfl⟩ := cons_eq_cons.1 heq
        cases hbefore
        rw [he]
        rfl
      | cons b before =>
        obtain ⟨rfl, rfl⟩ := cons_eq_cons.1 heq
        rw [applyModifiers_cons] at hbefore
        obtain ⟨r, hr, hbefore⟩ := except_bind_eq_ok.1 hbefore
        rw [hr]
        exact ih.2 ⟨before, m', after, r', rfl, hbefore, he⟩

/-- What one modifier can be refused for. -/
theorem applyModifiers_one_eq_error {m : String} :
    applyModifiers entry kind descending [m] = .error e ↔
      isKind m = false ∧ isDirection m = false ∧ e = .unknownModifier m ∨
        (∃ first, isKind m = true ∧ kind = some first ∧ e = .conflictingKinds first.name m) ∨
        isDirection m = true ∧ descending.isSome = true ∧ e = .ambiguousDirection entry := by
  unfold applyModifiers
  rcases modifier_cases m with ⟨ht, hk, hd⟩ | ⟨k, ht, hk, hd⟩ | ⟨d, ht, hk, hd⟩
  · simp [ht, isKind, isDirection, hk, hd, eq_comm (a := e)]
  · have hname := SortKind.ofName?_eq_some.1 hk
    cases kind <;> simp [ht, isKind, isDirection, hk, hd, hname, applyModifiers, eq_comm (a := e)]
  · cases descending <;> simp [ht, isKind, isDirection, hk, hd, applyModifiers, eq_comm (a := e)]

end

/-! ### Entries -/

variable {k : SortKind} {o : Order} {ms' : List String}

theorem mem_kindsOf : k ∈ kindsOf ms ↔ k.name ∈ ms := by
  simp [kindsOf, SortKind.ofName?_eq_some]

theorem mem_directionsOf {d : Bool} : d ∈ directionsOf ms ↔ ∃ m ∈ ms, direction? m = some d :=
  mem_filterMap

/-- Of at most one element, that element is the first. -/
theorem head?_eq_some_iff_mem {α : Type} {as : List α} (h : as.length ≤ 1) {a : α} :
    as.head? = some a ↔ a ∈ as := by
  match as, h with
  | [], _ => simp
  | [b], _ => simp [eq_comm]

/-- An entry is made of modifiers that can stand together, and of what they say. -/
theorem ofModifiers_eq_ok :
    ofModifiers name ms = .ok o ↔ Compatible ms ∧
      o = ⟨name, (kindsOf ms).head?.getD .text, (directionsOf ms).head?.getD false⟩ := by
  simp only [ofModifiers, except_bind_eq_ok, applyModifiers_eq_ok, Option.toList_none,
    nil_append, length_kindsOf, length_directionsOf]
  constructor
  · rintro ⟨r, ⟨hknown, hkinds, hdirections, rfl⟩, ho⟩
    exact ⟨⟨hknown, hkinds, hdirections⟩, (Except.ok.inj ho).symm⟩
  · rintro ⟨h, rfl⟩
    exact ⟨_, ⟨h.known, h.kinds, h.directions, rfl⟩, rfl⟩

/-- An entry is refused for the first modifier that cannot stand after those before it. -/
theorem ofModifiers_eq_error {e : SchemaError} :
    ofModifiers name ms = .error e ↔ ∃ before m after, ms = before ++ m :: after ∧
      Compatible before ∧ Offends (name ++ ":" ++ ":".intercalate ms) before m e := by
  have hbind : ofModifiers name ms = .error e ↔
      applyModifiers (name ++ ":" ++ ":".intercalate ms) none none ms = .error e := by
    rw [ofModifiers]
    cases applyModifiers (name ++ ":" ++ ":".intercalate ms) none none ms <;>
      simp [bind, Except.bind, pure, Except.pure]
  rw [hbind, applyModifiers_eq_error]
  simp only [applyModifiers_eq_ok, applyModifiers_one_eq_error, Option.toList_none,
    nil_append, length_kindsOf, length_directionsOf]
  constructor
  · rintro ⟨before, m, after, _, hms, ⟨hknown, hkinds, hdirections, rfl⟩, he⟩
    refine ⟨before, m, after, hms, ⟨hknown, hkinds, hdirections⟩, ?_⟩
    rcases he with ⟨hk, hd, rfl⟩ | ⟨first, hm, hfirst, rfl⟩ | ⟨hm, hfirst, rfl⟩
    · exact .unknown hk hd
    · have hmem := mem_kindsOf.1 (mem_of_head? hfirst)
      exact .kind hm hmem (by rw [isKind, SortKind.ofName?_eq_some.2 rfl]; rfl)
    · obtain ⟨d, hd⟩ := Option.isSome_iff_exists.1 hfirst
      obtain ⟨first, hmem, hd⟩ := mem_directionsOf.1 (mem_of_head? hd)
      exact .direction hm hmem (by rw [isDirection, hd]; rfl)
  · rintro ⟨before, m, after, hms, h, he⟩
    refine ⟨before, m, after, _, hms, ⟨h.known, h.kinds, h.directions, rfl⟩, ?_⟩
    cases he with
    | unknown hk hd => exact .inl ⟨hk, hd, rfl⟩
    | kind hm hmem hfirst =>
      obtain ⟨first, hk⟩ := Option.isSome_iff_exists.1 hfirst
      have hname := SortKind.ofName?_eq_some.1 hk
      refine .inr (.inl ⟨first, hm, ?_, by rw [hname]⟩)
      rw [head?_eq_some_iff_mem (length_kindsOf before ▸ h.kinds), mem_kindsOf, hname]
      exact hmem
    | direction hm hmem hfirst =>
      obtain ⟨d, hd⟩ := Option.isSome_iff_exists.1 hfirst
      refine .inr (.inr ⟨hm, ?_, rfl⟩)
      rw [Option.isSome_iff_exists]
      refine ⟨d, (head?_eq_some_iff_mem (length_directionsOf before ▸ h.directions)).2 ?_⟩
      exact mem_directionsOf.2 ⟨_, hmem, hd⟩

theorem Compatible.perm (h : Compatible ms) (hp : ms.Perm ms') : Compatible ms' where
  known m hm := h.known m (hp.mem_iff.2 hm)
  kinds := hp.countP_eq isKind ▸ h.kinds
  directions := hp.countP_eq isDirection ▸ h.directions

/-- Lists of at most one element have only one order. -/
theorem perm_eq_of_short {α : Type} {as bs : List α} (h : as.length ≤ 1) (hp : as.Perm bs) :
    as = bs := by
  match as, h with
  | [], _ => exact hp.nil_eq
  | [a], _ => exact hp.singleton_eq

theorem ofModifiers_perm (hp : ms.Perm ms') (h : ofModifiers name ms = .ok o) :
    ofModifiers name ms' = .ok o := by
  obtain ⟨hc, rfl⟩ := ofModifiers_eq_ok.1 h
  have hkinds : kindsOf ms = kindsOf ms' :=
    perm_eq_of_short (length_kindsOf ms ▸ hc.kinds) (hp.filterMap _)
  have hdirections : directionsOf ms = directionsOf ms' :=
    perm_eq_of_short (length_directionsOf ms ▸ hc.directions) (hp.filterMap _)
  rw [ofModifiers_eq_ok, hkinds, hdirections]
  exact ⟨hc.perm hp, rfl⟩

/-- The kind is the one that is named, if one is. -/
theorem kind_of_ofModifiers (h : ofModifiers name ms = .ok o) (hk : k.name ∈ ms) : o.kind = k := by
  obtain ⟨hc, rfl⟩ := ofModifiers_eq_ok.1 h
  dsimp only
  rw [(head?_eq_some_iff_mem (length_kindsOf ms ▸ hc.kinds)).2 (mem_kindsOf.2 hk)]
  rfl

theorem kind_default (h : ofModifiers name ms = .ok o) (hk : ∀ k : SortKind, k.name ∉ ms) :
    o.kind = .text := by
  obtain ⟨hc, rfl⟩ := ofModifiers_eq_ok.1 h
  have hnone : kindsOf ms = [] := eq_nil_iff_forall_not_mem.2 fun k hm => hk k (mem_kindsOf.1 hm)
  rw [hnone]
  rfl

theorem direction?_eq_some_true {m : String} : direction? m = some true ↔ m = "desc" := by
  rw [direction?]
  split
  · next h => simp [h]
  · split
    · next h => simp [h]
    · next h => simp [h]

/-- Values fall if a modifier says so, and rise otherwise. -/
theorem descending_of_ofModifiers (h : ofModifiers name ms = .ok o) :
    o.descending = true ↔ "desc" ∈ ms := by
  obtain ⟨hc, rfl⟩ := ofModifiers_eq_ok.1 h
  have hhead : (directionsOf ms).head?.getD false = true ↔ (directionsOf ms).head? = some true := by
    cases (directionsOf ms).head? <;> simp
  rw [hhead, head?_eq_some_iff_mem (length_directionsOf ms ▸ hc.directions), mem_directionsOf]
  simp [direction?_eq_some_true]

theorem writtenModifiers_eq (o : Order) : o.writtenModifiers = modifiers o.kind o.descending := by
  have hempty : Part [] := ⟨fun _ h => absurd h not_mem_nil, not_mem_nil⟩
  have hpieces := pieces_flatMap hempty (part_modifiers o.kind o.descending)
  rw [writtenModifiers, o.toList_text, drop_left]
  rw [nil_append] at hpieces
  rw [hpieces, tail_cons, map_map]
  have hback : String.ofList ∘ String.toList = id := funext fun _ => String.ofList_toList
  rw [hback, map_id]

/-- Modifiers are accepted exactly if each is known and neither the kind nor the direction is said
    twice, and they may come in any order. -/
theorem modifiers_in_any_order (name : String) (ms : List String) :
    ((∃ o, ofModifiers name ms = .ok o) ↔ Compatible ms) ∧
      (∀ o, ofModifiers name ms = .ok o →
        o.name = name ∧ (∀ k : SortKind, k.name ∈ ms → o.kind = k) ∧
          ((∀ k : SortKind, k.name ∉ ms) → o.kind = .text) ∧
          (o.descending = true ↔ "desc" ∈ ms) ∧
          ∀ ms', ms.Perm ms' → ofModifiers name ms' = .ok o) ∧
      (∀ e, ofModifiers name ms = .error e ↔ ∃ before m after, ms = before ++ m :: after ∧
        Compatible before ∧ Offends (name ++ ":" ++ ":".intercalate ms) before m e) ∧
      ∀ o : Order, ofModifiers o.name o.writtenModifiers = .ok o := by
  refine ⟨?_, ?_, fun e => ofModifiers_eq_error, fun o => ?_⟩
  · simp only [ofModifiers_eq_ok, exists_and_left, exists_eq, and_true]
  · intro o h
    refine ⟨?_, fun k => kind_of_ofModifiers h, kind_default h, descending_of_ofModifiers h,
      fun ms' hp => ofModifiers_perm hp h⟩
    rw [(ofModifiers_eq_ok.1 h).2]
  · rw [writtenModifiers_eq]
    exact o.ofModifiers_modifiers

/-- Numbers that fall, with the direction before the kind and after it. -/
theorem modifiers_in_any_order_fallingNumbers :
    ofModifiers "ctr" ["desc", "num"] = .ok ⟨"ctr", .numeric, true⟩ ∧
      ["desc", "num"].Perm ["num", "desc"] ∧
      ofModifiers "ctr" ["num", "desc"] = .ok ⟨"ctr", .numeric, true⟩ ∧
      SortKind.name .numeric ∈ ["desc", "num"] ∧ ∀ k : SortKind, k.name ∉ ["desc"] := by
  have hread : ofModifiers "ctr" ["desc", "num"] = .ok ⟨"ctr", .numeric, true⟩ := rfl
  have hswap : ["desc", "num"].Perm ["num", "desc"] := .swap "num" "desc" []
  obtain ⟨-, -, -, -, hperm⟩ := (modifiers_in_any_order "ctr" ["desc", "num"]).2.1 _ hread
  refine ⟨hread, hswap, hperm _ hswap, by decide, fun k => ?_⟩
  cases k <;> decide

end Order

end RowAwk.Schema
