import Mathlib.Data.List.Nodup
import Mathlib.Data.List.Perm.Basic
import RowAwk.Compile.Library
import RowAwk.Proofs.SourceTrees

/-!
Which calls match a signature, and which argument each parameter gets.

Seen from its result, a call is the list of all arguments cut in two: the first ones are given by
position, and the others by name in any order. Only if all parameters are given by position may
more arguments follow, for the variadic parameter.

    unjoin(delim, value, index)     ","  "a,b"  2
                                    ","            index = 2, value = "a,b"

A call binds to a result exactly if it is one of these cuts. What a call needs to bind at all, and
that it does not matter how the arguments are handed over, follows from that.
-/

open List

namespace RowAwk.Compile.Signature

variable {α : Type}

/-! ### Parameters that wait for an argument -/

/-- Arguments of all parameters that agree with those that the parameters have got. -/
def Agrees (slots : List (Slot α)) (values : List α) : Prop :=
  List.Forall₂ (fun slot v => ∀ w ∈ slot.2, w = v) slots values

/-- The parameters without an argument yet, each with the one it is to get. -/
def openings : List (Slot α) → List α → List (String × α)
  | (p, none) :: slots, v :: values => (p, v) :: openings slots values
  | (_, some _) :: slots, _ :: values => openings slots values
  | _, _ => []

section

variable {slots : List (Slot α)} {values : List α} {p : String} {v x : α}

@[simp] theorem agrees_nil : Agrees ([] : List (Slot α)) values ↔ values = [] :=
  forall₂_nil_left_iff

@[simp] theorem not_agrees_cons_nil (slot : Slot α) : ¬ Agrees (slot :: slots) [] := by
  rintro ⟨⟩

@[simp] theorem agrees_waiting : Agrees ((p, none) :: slots) (x :: values) ↔ Agrees slots values := by
  simp [Agrees]

@[simp] theorem agrees_given :
    Agrees ((p, some v) :: slots) (x :: values) ↔ v = x ∧ Agrees slots values := by
  simp [Agrees]

end

/-- All arguments are there if none is left to be given. -/
theorem collect_eq_ok_iff : ∀ {slots : List (Slot α)} {values : List α},
    collect slots = .ok values ↔ Agrees slots values ∧ openings slots values = []
  | [], values => by simp [collect, openings, eq_comm]
  | (p, none) :: slots, [] => by simp [collect]
  | (p, none) :: slots, v :: values => by simp [collect, openings]
  | (p, some w) :: slots, [] => by simp [collect, except_map_eq_ok]
  | (p, some w) :: slots, v :: values => by
    rw [collect, except_map_eq_ok, agrees_given, openings, and_assoc, ← collect_eq_ok_iff]
    constructor
    · rintro ⟨values', h, heq⟩
      cases heq
      exact ⟨rfl, h⟩
    · rintro ⟨rfl, h⟩
      exact ⟨values, h, rfl⟩

theorem mem_names_of_mem_openings : ∀ {slots : List (Slot α)} {values : List α}
    {name : String} {value : α}, (name, value) ∈ openings slots values → name ∈ slots.map Prod.fst
  | [], _, _, _, h => by cases h
  | (_, none) :: _, [], _, _, h => by cases h
  | (_, some _) :: _, [], _, _, h => by cases h
  | (p, none) :: slots, v :: values, name, value, h => by
    rcases mem_cons.1 h with h | h
    · cases h
      exact mem_cons_self
    · exact mem_cons_of_mem _ (mem_names_of_mem_openings h)
  | (p, some w) :: slots, v :: values, name, value, h =>
    mem_cons_of_mem _ (mem_names_of_mem_openings h)

/-- A parameter that waits can be given the argument it is to get. -/
theorem exists_fill {name : String} {value : α} : ∀ {slots : List (Slot α)} {values : List α},
    (slots.map Prod.fst).Nodup → Agrees slots values → (name, value) ∈ openings slots values →
      ∃ filled, fill name value slots = .ok filled ∧ Agrees filled values
  | [], _, _, _, h => by cases h
  | (_, none) :: _, [], _, _, h => by cases h
  | (_, some _) :: _, [], _, _, h => by cases h
  | (p, none) :: slots, x :: xs, hd, ha, h => by
    obtain ⟨hp, hd⟩ := nodup_cons.1 hd
    rw [agrees_waiting] at ha
    rcases mem_cons.1 h with h | h
    · cases h
      exact ⟨_, if_pos rfl, agrees_given.2 ⟨rfl, ha⟩⟩
    · have hne : p ≠ name := fun heq => hp (heq ▸ mem_names_of_mem_openings h)
      obtain ⟨filled, hf, ha⟩ := exists_fill hd ha h
      exact ⟨(p, none) :: filled, by rw [fill, if_neg hne, hf]; rfl, agrees_waiting.2 ha⟩
  | (p, some w) :: slots, x :: xs, hd, ha, h => by
    obtain ⟨hp, hd⟩ := nodup_cons.1 hd
    obtain ⟨hw, ha⟩ := agrees_given.1 ha
    have hne : p ≠ name := fun heq => hp (heq ▸ mem_names_of_mem_openings h)
    obtain ⟨filled, hf, ha⟩ := exists_fill hd ha h
    exact ⟨(p, some w) :: filled, by rw [fill, if_neg hne, hf]; rfl, agrees_given.2 ⟨hw, ha⟩⟩

/-- Giving a parameter its argument keeps the names, and takes one opening away. -/
theorem fill_spec {name : String} {value : α} : ∀ {slots filled : List (Slot α)},
    fill name value slots = .ok filled →
      filled.map Prod.fst = slots.map Prod.fst ∧
      ∀ values, Agrees filled values →
        Agrees slots values ∧ (openings slots values).Perm ((name, value) :: openings filled values)
  | [], _, h => by cases h
  | (p, none) :: slots, filled, h => by
    rw [fill] at h
    split at h
    · rename_i heq
      subst heq
      cases h
      refine ⟨rfl, fun values ha => ?_⟩
      cases values with
      | nil => exact absurd ha (not_agrees_cons_nil _)
      | cons x xs =>
        obtain ⟨rfl, hrest⟩ := agrees_given.1 ha
        exact ⟨agrees_waiting.2 hrest, List.Perm.refl _⟩
    · obtain ⟨filled, hf, rfl⟩ := except_map_eq_ok.1 h
      obtain ⟨hnames, hopen⟩ := fill_spec hf
      refine ⟨by rw [map_cons, map_cons, hnames], fun values ha => ?_⟩
      cases values with
      | nil => exact absurd ha (not_agrees_cons_nil _)
      | cons x xs =>
        obtain ⟨ha, hp⟩ := hopen xs (agrees_waiting.1 ha)
        exact ⟨agrees_waiting.2 ha, (hp.cons (p, x)).trans (List.Perm.swap _ _ _)⟩
  | (p, some w) :: slots, filled, h => by
    rw [fill] at h
    split at h
    · cases h
    · obtain ⟨filled, hf, rfl⟩ := except_map_eq_ok.1 h
      obtain ⟨hnames, hopen⟩ := fill_spec hf
      refine ⟨by rw [map_cons, map_cons, hnames], fun values ha => ?_⟩
      cases values with
      | nil => exact absurd ha (not_agrees_cons_nil _)
      | cons x xs =>
        obtain ⟨hw, ha⟩ := agrees_given.1 ha
        obtain ⟨ha, hp⟩ := hopen xs ha
        exact ⟨agrees_given.2 ⟨hw, ha⟩, hp⟩

/-- Arguments by name can be given to the parameters that wait, in any order, and to no others. -/
theorem fillAll_collect_iff : ∀ {keywords : List (String × α)} {slots : List (Slot α)}
    {values : List α}, (slots.map Prod.fst).Nodup →
      ((∃ filled, fillAll keywords slots = .ok filled ∧ collect filled = .ok values) ↔
        Agrees slots values ∧ keywords.Perm (openings slots values))
  | [], slots, values, _ => by
    simp only [fillAll, Except.ok.injEq, exists_eq_left', collect_eq_ok_iff, nil_perm]
  | (name, value) :: rest, slots, values, hd => by
    constructor
    · rintro ⟨filled, h, hc⟩
      rw [fillAll] at h
      obtain ⟨one, hone, h⟩ := except_bind_eq_ok.1 h
      obtain ⟨hnames, hopen⟩ := fill_spec hone
      obtain ⟨ha, hp⟩ := (fillAll_collect_iff (hnames ▸ hd)).1 ⟨filled, h, hc⟩
      obtain ⟨ha, hp'⟩ := hopen values ha
      exact ⟨ha, (hp.cons _).trans hp'.symm⟩
    · rintro ⟨ha, hp⟩
      obtain ⟨one, hone, ha'⟩ := exists_fill hd ha (hp.mem_iff.1 mem_cons_self)
      obtain ⟨hnames, hopen⟩ := fill_spec hone
      have hrest : rest.Perm (openings one values) :=
        (hp.trans (hopen values ha').2).cons_inv
      obtain ⟨filled, h, hc⟩ := (fillAll_collect_iff (hnames ▸ hd)).2 ⟨ha', hrest⟩
      exact ⟨filled, by rw [fillAll]; exact except_bind_eq_ok.2 ⟨one, hone, h⟩, hc⟩

/-! ### Calls -/

theorem map_fst_slots : ∀ (ps : List String) (es : List α), (slots ps es).map Prod.fst = ps
  | [], _ => rfl
  | p :: ps, [] => by rw [slots, map_cons, map_fst_slots ps []]
  | p :: ps, e :: es => by rw [slots, map_cons, map_fst_slots ps es]

/-- After the positional arguments, those agree that start with them. -/
theorem agrees_slots_iff : ∀ {ps : List String} {es values : List α},
    Agrees (slots ps es) values ↔
      values.length = ps.length ∧ values.take es.length = es.take ps.length
  | [], es, values => by
    rw [slots, agrees_nil, length_nil, length_eq_zero_iff]
    exact ⟨fun h => ⟨h, by simp [h]⟩, And.left⟩
  | p :: ps, [], [] | p :: ps, e :: es, [] => by simp [slots]
  | p :: ps, [], v :: values => by simp [slots, agrees_slots_iff]
  | p :: ps, e :: es, v :: values => by
    simp [slots, agrees_slots_iff, and_left_comm, eq_comm]

theorem openings_slots : ∀ (ps : List String) (es values : List α),
    openings (slots ps es) values = (ps.zip values).drop es.length
  | [], es, values => by simp [slots, openings]
  | p :: ps, [], [] | p :: ps, e :: es, [] => by simp [slots, openings]
  | p :: ps, [], v :: values => by
    simp [slots, openings, openings_slots ps [] values]
  | p :: ps, e :: es, v :: values => by
    simp [slots, openings, openings_slots ps es values]

variable {s : Signature} {positional : List α} {keywords : List (String × α)} {b : Bound α}

/-- The calls that bind to a result: its values in order, cut in two at any place. -/
theorem bind_eq_ok_iff (hs : s.parameters.Nodup) :
    s.bind positional keywords = .ok b ↔
      (positional.length ≤ s.parameters.length ∨ s.variadic.isSome = true) ∧
      b.rest = positional.drop s.parameters.length ∧
      b.values.length = s.parameters.length ∧
      b.values.take positional.length = positional.take s.parameters.length ∧
      keywords.Perm ((s.parameters.zip b.values).drop positional.length) := by
  obtain ⟨values, rest⟩ := b
  have hroom : ¬ (s.variadic.isNone = true ∧ positional.drop s.parameters.length ≠ []) ↔
      positional.length ≤ s.parameters.length ∨ s.variadic.isSome = true := by
    rw [not_and_or, not_not, drop_eq_nil_iff, or_comm, Bool.not_eq_true, Option.isNone_eq_false_iff]
  have hslots : (∃ filled, fillAll keywords (slots s.parameters positional) = .ok filled ∧
      collect filled = .ok values) ↔ _ := fillAll_collect_iff (by rwa [map_fst_slots])
  rw [agrees_slots_iff, openings_slots, and_assoc] at hslots
  rw [← hroom, ← hslots, bind]
  split
  · rename_i h
    exact ⟨fun h' => (by cases h'), fun h' => absurd h h'.1⟩
  · rename_i h
    constructor
    · intro hb
      split at hb
      · cases hb
      · rename_i filled hf
        split at hb
        · cases hb
        · rename_i values' hc
          cases hb
          exact ⟨h, rfl, filled, hf, hc⟩
    · rintro ⟨-, hrest, filled, hf, hc⟩
      simp only at hrest
      rw [hf, hrest]
      simp only [hc]

/-- What a call needs to match a signature. -/
structure Fits (s : Signature) (positional : List α) (keywords : List (String × α)) : Prop where
  room : positional.length ≤ s.parameters.length ∨ s.variadic.isSome = true
  distinct : (keywords.map Prod.fst).Nodup
  vacant : ∀ name ∈ keywords.map Prod.fst,
    ∃ i, positional.length ≤ i ∧ s.parameters[i]? = some name
  complete : ∀ i name, positional.length ≤ i → s.parameters[i]? = some name →
    name ∈ keywords.map Prod.fst

/-- Each parameter has got its argument: by position as long as there are such arguments, else by
    name. Positional arguments beyond the parameters are left. -/
structure Distributes (s : Signature) (positional : List α) (keywords : List (String × α))
    (b : Bound α) : Prop where
  all : b.values.length = s.parameters.length
  byPosition : ∀ i, i < positional.length → i < s.parameters.length →
    b.values[i]? = positional[i]?
  byName : ∀ i name, positional.length ≤ i → s.parameters[i]? = some name →
    ∀ v, b.values[i]? = some v ↔ (name, v) ∈ keywords
  rest : b.rest = positional.drop s.parameters.length

theorem mem_drop_iff {β : Type} {l : List β} {n : Nat} {x : β} :
    x ∈ l.drop n ↔ ∃ i, n ≤ i ∧ l[i]? = some x := by
  simp only [mem_iff_getElem?, List.getElem?_drop]
  constructor
  · rintro ⟨j, hj⟩
    exact ⟨n + j, Nat.le_add_right n j, hj⟩
  · rintro ⟨i, hi, hx⟩
    exact ⟨i - n, by rwa [Nat.add_sub_cancel' hi]⟩

/-- The names given are those of the parameters left, in any order. -/
theorem fits_iff (hs : s.parameters.Nodup) :
    s.Fits positional keywords ↔
      (positional.length ≤ s.parameters.length ∨ s.variadic.isSome = true) ∧
        (keywords.map Prod.fst).Perm (s.parameters.drop positional.length) := by
  have hleft : (s.parameters.drop positional.length).Nodup := hs.sublist (drop_sublist _ _)
  constructor
  · intro h
    refine ⟨h.room, (perm_ext_iff_of_nodup h.distinct hleft).2 fun name => ?_⟩
    rw [mem_drop_iff]
    constructor
    · exact h.vacant name
    · rintro ⟨i, hi, hn⟩
      exact h.complete i name hi hn
  · rintro ⟨hroom, hp⟩
    refine ⟨hroom, hp.nodup_iff.2 hleft, fun name hn => ?_, fun i name hi hn => ?_⟩
    · exact mem_drop_iff.1 (hp.mem_iff.1 hn)
    · exact hp.mem_iff.2 (mem_drop_iff.2 ⟨i, hi, hn⟩)

/-- Arguments by name, put in the order of the parameters that they are for. -/
theorem exists_sorted {names : List String} (h : (keywords.map Prod.fst).Perm names) :
    ∃ sorted : List (String × α), sorted.map Prod.fst = names ∧ keywords.Perm sorted := by
  have hnamed : List.Forall₂ (fun name k => k.1 = name) (keywords.map Prod.fst) keywords := by
    rw [forall₂_map_left_iff]
    exact forall₂_same.2 fun _ _ => rfl
  obtain ⟨sorted, hsorted, hp⟩ := perm_comp_forall₂ h.symm hnamed
  refine ⟨sorted, ?_, hp.symm⟩
  rw [← forall₂_eq_eq_eq, forall₂_map_left_iff]
  exact hsorted.flip

/-- A call that fits binds. -/
theorem Fits.exists_bind (hs : s.parameters.Nodup) (h : s.Fits positional keywords) :
    ∃ b, s.bind positional keywords = .ok b := by
  obtain ⟨hroom, hp⟩ := (fits_iff hs).1 h
  obtain ⟨sorted, hnames, hp⟩ := exists_sorted hp
  have hlen : sorted.length = s.parameters.length - positional.length := by
    rw [← length_map (f := Prod.fst), hnames, length_drop]
  obtain ⟨values, hvalues⟩ :
      ∃ values, values = positional.take s.parameters.length ++ sorted.map Prod.snd := ⟨_, rfl⟩
  have hcut : values.take positional.length = positional.take s.parameters.length ∧
      values.drop positional.length = sorted.map Prod.snd := by
    rcases Nat.le_total positional.length s.parameters.length with hle | hle
    · rw [take_of_length_le hle] at hvalues ⊢
      rw [hvalues, take_left, drop_left]
      exact ⟨rfl, rfl⟩
    · -- nothing is given by name
      have hnil : sorted = [] := eq_nil_of_length_eq_zero (by omega)
      rw [hvalues, hnil, map_nil, append_nil, take_take, Nat.min_eq_right hle,
        drop_eq_nil_iff, length_take]
      exact ⟨rfl, Nat.min_le_right _ _⟩
  refine ⟨⟨values, positional.drop s.parameters.length⟩,
    (bind_eq_ok_iff hs).2 ⟨hroom, rfl, ?_, hcut.1, ?_⟩⟩
  · simp only [hvalues, length_append, length_take, length_map, hlen]
    omega
  · have hzip : (s.parameters.zip values).drop positional.length = sorted := by
      rw [List.zip, drop_zipWith, hcut.2, ← hnames]
      exact (zip_of_prod rfl rfl).symm
    rwa [hzip]

theorem fits_of_bind (hs : s.parameters.Nodup) (h : s.bind positional keywords = .ok b) :
    s.Fits positional keywords := by
  obtain ⟨hroom, -, hall, -, hp⟩ := (bind_eq_ok_iff hs).1 h
  have hnames := hp.map Prod.fst
  rw [map_drop, map_fst_zip (Nat.le_of_eq hall.symm)] at hnames
  exact (fits_iff hs).2 ⟨hroom, hnames⟩

theorem distributes_of_bind (hs : s.parameters.Nodup) (h : s.bind positional keywords = .ok b) :
    s.Distributes positional keywords b := by
  obtain ⟨-, hrest, hall, htake, hp⟩ := (bind_eq_ok_iff hs).1 h
  refine ⟨hall, fun i hi hm => ?_, fun i name hi hn v => ?_, hrest⟩
  · rw [← List.getElem?_take_of_lt hi, htake, List.getElem?_take_of_lt hm]
  · rw [hp.mem_iff, mem_drop_iff]
    constructor
    · intro hv
      exact ⟨i, hi, List.getElem?_zip_eq_some.2 ⟨hn, hv⟩⟩
    · rintro ⟨j, -, hj⟩
      obtain ⟨hj, hv⟩ := List.getElem?_zip_eq_some.1 hj
      have hlt : i < s.parameters.length := (List.getElem?_eq_some_iff.1 hn).1
      rwa [(List.getElem?_inj hlt hs).1 (hn.trans hj.symm)]

theorem bind_perm (hs : s.parameters.Nodup) {keywords' : List (String × α)}
    (hp : keywords.Perm keywords') (h : s.bind positional keywords = .ok b) :
    s.bind positional keywords' = .ok b := by
  obtain ⟨hroom, hrest, hall, htake, hp'⟩ := (bind_eq_ok_iff hs).1 h
  exact (bind_eq_ok_iff hs).2 ⟨hroom, hrest, hall, htake, hp.symm.trans hp'⟩

/-- The same arguments with more of them by name, or fewer, bind to the same result. -/
theorem bind_split (hs : s.parameters.Nodup) (h : s.bind positional keywords = .ok b) {count : Nat}
    {keywords' : List (String × α)} (hcount : count ≤ s.parameters.length)
    (hrest : b.rest = [] ∨ count = s.parameters.length)
    (hp : ((s.parameters.zip b.values).drop count).Perm keywords') :
    s.bind (b.values.take count ++ b.rest) keywords' = .ok b := by
  obtain ⟨hroom, hdrop, hall, -, -⟩ := (bind_eq_ok_iff hs).1 h
  refine (bind_eq_ok_iff hs).2 ?_
  rcases hrest with hnil | rfl
  · rw [hnil, append_nil, length_take, hall, Nat.min_eq_left hcount]
    refine ⟨.inl hcount, ?_, rfl, ?_, hp.symm⟩
    · rw [eq_comm, drop_eq_nil_iff, length_take]
      omega
    · rw [take_take, Nat.min_eq_right hcount]
  · -- all parameters are given by position
    have hroom : b.rest = [] ∨ s.variadic.isSome = true := by
      rcases hroom with hle | hv
      · exact .inl (hdrop.trans (drop_eq_nil_iff.2 hle))
      · exact .inr hv
    have hzip : (s.parameters.zip b.values).length = s.parameters.length := by
      rw [length_zip, hall, Nat.min_self]
    rw [← hzip, drop_length] at hp
    rw [take_of_length_le (Nat.le_of_eq hall), length_append, hall]
    refine ⟨?_, ?_, rfl, ?_, ?_⟩
    · rcases hroom with hnil | hv
      · exact .inl (by simp [hnil])
      · exact .inr hv
    · rw [← hall, drop_left]
    · rw [take_of_length_le (by omega), ← hall, take_left]
    · rw [drop_of_length_le (by omega)]
      exact hp.symm

/-- A call binds exactly if the positional arguments have room and the arguments by name are those
    of the other parameters, each once. Then each parameter has its argument, and neither the order
    of the names nor the place where the call is cut into positions and names makes a difference. -/
theorem arguments_bound_exactly (s : Signature) (hs : s.parameters.Nodup) (positional : List α)
    (keywords : List (String × α)) :
    ((∃ b, s.bind positional keywords = .ok b) ↔ s.Fits positional keywords) ∧
    (∀ b, s.bind positional keywords = .ok b → s.Distributes positional keywords b) ∧
    (∀ keywords' : List (String × α), keywords.Perm keywords' →
      (s.bind positional keywords').toOption = (s.bind positional keywords).toOption) ∧
    ∀ b, s.bind positional keywords = .ok b →
      ∀ (count : Nat) (keywords' : List (String × α)), count ≤ s.parameters.length →
        b.rest = [] ∨ count = s.parameters.length →
          ((s.parameters.zip b.values).drop count).Perm keywords' →
            s.bind (b.values.take count ++ b.rest) keywords' = .ok b := by
  refine ⟨⟨?_, Fits.exists_bind hs⟩, fun b => distributes_of_bind hs, fun keywords' hp => ?_,
    fun b h count keywords' hcount hrest => bind_split hs h hcount hrest⟩
  · rintro ⟨b, h⟩
    exact fits_of_bind hs h
  · cases h : s.bind positional keywords with
    | ok b => rw [bind_perm hs hp h]
    | error e =>
      cases h' : s.bind positional keywords' with
      | ok b =>
        rw [bind_perm hs hp.symm h'] at h
        cases h
      | error e' => rfl

end RowAwk.Compile.Signature

namespace RowAwk.Compile

theorem Function.nodup_parameters (f : Function) : f.signature.parameters.Nodup := by
  cases f <;> decide

/-- The part of a text behind two commas, with all but the delimiter given by name, and with the
    text given by position as well: the second way is the same, and a third is one too many. -/
theorem Signature.arguments_bound_exactly_unjoin :
    ∃ b, Function.unjoin.signature.bind [","] [("index", "2"), ("value", "a,b,c")] = .ok b ∧
      Function.unjoin.signature.Distributes [","] [("index", "2"), ("value", "a,b,c")] b ∧
      Function.unjoin.signature.bind [",", "a,b,c"] [("index", "2")] = .ok b ∧
      ¬ ∃ b, Function.unjoin.signature.bind [",", "a,b,c"] [("index", "2"), ("value", "a")] = .ok b := by
  obtain ⟨-, hall, -, hsplit⟩ := arguments_bound_exactly Function.unjoin.signature
    (Function.nodup_parameters .unjoin) [","] [("index", "2"), ("value", "a,b,c")]
  have hb : Function.unjoin.signature.bind [","] [("index", "2"), ("value", "a,b,c")]
      = .ok ⟨[",", "a,b,c", "2"], []⟩ := rfl
  refine ⟨_, hb, hall _ hb, hsplit _ hb 2 [("index", "2")] (by decide) (.inl rfl) (by decide), ?_⟩
  rw [(arguments_bound_exactly _ (Function.nodup_parameters .unjoin) _ _).1]
  intro h
  obtain ⟨i, hi, hname⟩ := h.vacant "value" (by decide)
  have := (List.getElem?_inj (by decide) (Function.nodup_parameters .unjoin)).1
    (hname.trans (show _ = Function.unjoin.signature.parameters[1]? from rfl)).symm
  simp at hi
  omega

end RowAwk.Compile
