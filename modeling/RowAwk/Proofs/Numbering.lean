import RowAwk.Proofs.Namer

/-!
Numbers in the order of first request.

A namer lists the keys of each stem as they came. A request for a key that is listed gets the number
it has; any other is listed with the next number. So a sequence of requests numbers the different
keys of each stem from zero:

    request   _abs $1   _min $1   _abs $2   _abs $1   _min $2
    name      _abs0     _min0     _abs1     _abs0     _min1

A name gives its request away, since no stem of the compiler starts another one.
-/

open List

namespace RowAwk.Compile

namespace Namer

variable {n : Namer} {stem : String} {texts : List String}
variable {requests : List (String × String)} {past : List (String × String)}

/-- The keys of a stem are these, numbered as they came. -/
def Lists (n : Namer) (stem : String) (texts : List String) : Prop :=
  n.entries.filter (·.1 == stem) = texts.zipIdx.map fun p => (stem, p.1, p.2)

theorem find?_zipIdx (stem key : String) (texts : List String) (k : Nat) :
    (((texts.zipIdx k).map fun p => (stem, p.1, p.2)).find? fun e => e.2.1 == key).map (·.2.2)
      = if key ∈ texts then some (k + texts.idxOf key) else none := by
  induction texts generalizing k with
  | nil => rfl
  | cons t texts ih =>
    by_cases ht : t = key
    · simp [zipIdx_cons, ht]
    · have hne : key ≠ t := fun h => ht h.symm
      simp only [zipIdx_cons, map_cons, List.find?_cons, beq_eq_false_iff_ne.2 ht, ih,
        mem_cons, hne, false_or, idxOf_cons_ne _ ht]
      split
      · exact congrArg some (by omega)
      · rfl

theorem Lists.number? (h : n.Lists stem texts) (key : String) :
    n.number? stem key = if key ∈ texts then some (texts.idxOf key) else none := by
  have hfind := find?_zipIdx stem key texts 0
  rw [← h, List.find?_filter, Nat.zero_add] at hfind
  simp only [Bool.decide_and, Bool.decide_eq_true] at hfind
  exact hfind

theorem Lists.count (h : n.Lists stem texts) : n.count stem = texts.length := by
  have hlength := congrArg List.length h
  simpa [Namer.count] using hlength

/-- The texts with one more, unless it is there. -/
def withText (texts : List String) (text : String) : List String :=
  if text ∈ texts then texts else texts ++ [text]

theorem length_le_withText (texts : List String) (text : String) :
    texts.length ≤ (withText texts text).length := by
  rw [withText]
  split <;> simp

theorem idxOf_withText (texts : List String) (text : String) :
    (withText texts text).idxOf text = texts.idxOf text := by
  rw [withText]
  split
  · rfl
  · next h =>
    rw [idxOf_append_of_notMem h, idxOf_cons_self, idxOf_eq_length_iff.2 h]
    rfl

theorem idxOf_lt_withText (texts : List String) (text : String) :
    texts.idxOf text < (withText texts text).length := by
  rw [withText]
  split
  · rename_i h
    exact idxOf_lt_length_iff.2 h
  · simpa using idxOf_le_length

/-- A key has the number of its text, which is the next one if it is new. -/
theorem Lists.nameFor (h : n.Lists stem texts) (key : String) :
    (n.nameFor stem key).1 = stem ++ toString (texts.idxOf key) ∧
      (n.nameFor stem key).2.Lists stem (withText texts key) := by
  rw [Namer.nameFor, h.number?, withText]
  by_cases hk : key ∈ texts
  · rw [if_pos hk, if_pos hk]
    exact ⟨rfl, h⟩
  · rw [if_neg hk, if_neg hk, idxOf_eq_length_iff.2 hk]
    dsimp only
    rw [h.count]
    refine ⟨rfl, ?_⟩
    rw [Lists, filter_append, h, zipIdx_append, map_append]
    simp

/-- Names of another stem do not matter. -/
theorem Lists.nameFor_other (h : n.Lists stem texts) (other key : String) (hne : other ≠ stem) :
    (n.nameFor other key).2.Lists stem texts := by
  rw [Namer.nameFor]
  cases n.number? other key with
  | some i => exact h
  | none =>
    rw [Lists, filter_append, h]
    simp [hne]

/-! ### Sequences of requests -/

/-- The names that a namer gives to requests, one after the other. -/
def names (n : Namer) : List (String × String) → List String
  | [] => []
  | (stem, key) :: requests =>
    (n.nameFor stem key).1 :: names (n.nameFor stem key).2 requests

/-- The different keys that are requested under a stem, in the order of their first requests. -/
def keysUnder (stem : String) (requests : List (String × String)) : List String :=
  ((requests.filter (·.1 == stem)).map Prod.snd).eraseDups

/-- The name that a request gets among others. -/
def nameAmong (requests : List (String × String)) (r : String × String) : String :=
  r.1 ++ toString ((keysUnder r.1 requests).idxOf r.2)

theorem eraseDups_concat (texts : List String) (text : String) :
    (texts ++ [text]).eraseDups = withText texts.eraseDups text := by
  rw [eraseDups_append, withText]
  by_cases h : text ∈ texts <;> simp [h, List.removeAll, eraseDups_cons]

theorem keysUnder_concat_self (stem key : String) (past : List (String × String)) :
    keysUnder stem (past ++ [(stem, key)]) = withText (keysUnder stem past) key := by
  simp [keysUnder, eraseDups_concat]

theorem keysUnder_concat_other {other : String} (h : other ≠ stem) (key : String)
    (past : List (String × String)) :
    keysUnder stem (past ++ [(other, key)]) = keysUnder stem past := by
  simp [keysUnder, h]

variable {key : String}

theorem mem_keysUnder : key ∈ keysUnder stem requests ↔ (stem, key) ∈ requests := by
  simp [keysUnder]

/-- A namer after some requests: it lists their keys under each stem. -/
def Knows (n : Namer) (past : List (String × String)) : Prop :=
  ∀ stem, n.Lists stem (keysUnder stem past)

theorem knows_empty : empty.Knows [] := fun _ => rfl

/-- One more request is known after it. -/
theorem Knows.nameFor (h : n.Knows past) (stem key : String) :
    (n.nameFor stem key).2.Knows (past ++ [(stem, key)]) := by
  intro other
  by_cases hother : stem = other
  · subst hother
    rw [keysUnder_concat_self]
    exact ((h stem).nameFor key).2
  · rw [keysUnder_concat_other hother]
    exact (h other).nameFor_other stem key hother

/-- Later requests do not change the number of a key. -/
theorem idxOf_keysUnder_append (h : (stem, key) ∈ past) (requests : List (String × String)) :
    (keysUnder stem (past ++ requests)).idxOf key = (keysUnder stem past).idxOf key := by
  rw [keysUnder, filter_append, map_append, eraseDups_append]
  exact idxOf_append_of_mem (mem_keysUnder.2 h)

/-- Each request gets the number of its key among all that are made. -/
theorem names_of_knows (requests : List (String × String)) (h : n.Knows past) :
    n.names requests = requests.map (nameAmong (past ++ requests)) := by
  induction requests generalizing n past with
  | nil => rfl
  | cons r requests ih =>
    obtain ⟨stem, key⟩ := r
    have hrest := ih (h.nameFor stem key)
    have hmem : (stem, key) ∈ past ++ [(stem, key)] := by simp
    have hnumber := idxOf_keysUnder_append hmem requests
    rw [keysUnder_concat_self, idxOf_withText] at hnumber
    rw [append_assoc, singleton_append] at hrest hnumber
    rw [names, hrest, map_cons, nameAmong, ((h stem).nameFor key).1, hnumber]

theorem names_empty (requests : List (String × String)) :
    empty.names requests = requests.map (nameAmong requests) := by
  have h := names_of_knows requests knows_empty
  rwa [nil_append] at h

theorem getElem?_names (requests : List (String × String)) (i : Nat) :
    (empty.names requests)[i]? = requests[i]?.map (nameAmong requests) := by
  rw [names_empty, List.getElem?_map]

/-- Under one stem, the name gives the key away. -/
theorem nameAmong_inj_key {key' : String} (hk : (stem, key) ∈ requests)
    (h : nameAmong requests (stem, key) = nameAmong requests (stem, key')) : key = key' := by
  have hnumber := Nat.repr_inj.1 (String.append_right_inj stem |>.1 h)
  exact (idxOf_inj (mem_keysUnder.2 hk)).1 hnumber

/-- Among the stems of the compiler, it gives the stem away as well. -/
theorem nameAmong_inj (hs : ∀ r ∈ requests, r.1 ∈ stems) {r r' : String × String}
    (hr : r ∈ requests) (hr' : r' ∈ requests) (h : nameAmong requests r = nameAmong requests r') :
    r = r' := by
  obtain ⟨stem, key⟩ := r
  obtain ⟨stem', key'⟩ := r'
  obtain rfl : stem = stem' := (stem_number_inj (hs _ hr) (hs _ hr') h).1
  rw [nameAmong_inj_key hr h]

/-- The keys of a stem are numbered in the order of their first requests, one name for each key, and
    names under different stems of the compiler differ. -/
theorem names_tell_requests (requests : List (String × String)) :
    (∀ (i j : Nat) stem key key', requests[i]? = some (stem, key) →
        requests[j]? = some (stem, key') →
          ((empty.names requests)[i]? = (empty.names requests)[j]? ↔ key = key')) ∧
      (∀ (i : Nat) stem key, requests[i]? = some (stem, key) →
        ∃ k : Nat, (keysUnder stem requests)[k]? = some key ∧
          (empty.names requests)[i]? = some (stem ++ toString k)) ∧
      ((∀ r ∈ requests, r.1 ∈ stems) → ∀ i j : Nat,
        (empty.names requests)[i]? = (empty.names requests)[j]? ↔ requests[i]? = requests[j]?) := by
  simp only [getElem?_names]
  refine ⟨?_, ?_, ?_⟩
  · intro i j stem key key' hi hj
    rw [hi, hj, Option.map_some, Option.map_some, Option.some_inj]
    constructor
    · exact nameAmong_inj_key (List.mem_of_getElem? hi)
    · rintro rfl
      rfl
  · intro i stem key hi
    have hmem := mem_keysUnder.2 (List.mem_of_getElem? hi)
    refine ⟨(keysUnder stem requests).idxOf key, List.getElem?_idxOf hmem, ?_⟩
    rw [hi]
    rfl
  · intro hs i j
    constructor
    · intro h
      cases hi : requests[i]? with
      | none => simpa [hi, eq_comm] using h
      | some r =>
        rw [hi, Option.map_some, eq_comm, Option.map_eq_some_iff] at h
        obtain ⟨r', hj, h⟩ := h
        rw [hj, nameAmong_inj hs (List.mem_of_getElem? hj) (List.mem_of_getElem? hi) h]
    · intro h
      rw [h]

/-- Two keys under one stem, the first of them twice, and a key under a stem that ends in digits. -/
def helperRequests : List (String × String) :=
  [("_abs", "$1"), ("_crc32", "$1"), ("_abs", "$2"), ("_abs", "$1")]

theorem names_tell_requests_helperRequests :
    (∀ r ∈ helperRequests, r.1 ∈ stems) ∧
      (empty.names helperRequests)[0]? = (empty.names helperRequests)[3]? ∧
      (empty.names helperRequests)[0]? ≠ (empty.names helperRequests)[1]? ∧
      ∃ k : Nat, (keysUnder "_abs" helperRequests)[k]? = some "$2" ∧
        (empty.names helperRequests)[2]? = some ("_abs" ++ toString k) := by
  have hstems : ∀ r ∈ helperRequests, r.1 ∈ stems := by decide
  obtain ⟨hkeys, hnumbers, hrequests⟩ := names_tell_requests helperRequests
  refine ⟨hstems, (hkeys 0 3 "_abs" "$1" "$1" rfl rfl).2 rfl, ?_, hnumbers 2 "_abs" "$2" rfl⟩
  intro h
  exact absurd ((hrequests hstems 0 1).1 h) (by decide)

end Namer

end RowAwk.Compile
