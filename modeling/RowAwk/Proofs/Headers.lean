import RowAwk.Proofs.Numerals
import RowAwk.Schema.Header

/-!
Headers that describe a stream, written and read back.

A description is written as its columns and up to two zones, with a space and a marker before each
zone and tabs between entries. Reading cuts the text at the markers, each zone at its separators and
each entry at its colons. So it gives the description back if no part of it holds a character that
the text is cut at, and if no entry is written as nothing at all:

    a  b:int           # a⇥b:int           a  b:int
    a  :any  b         # a⇥⇥b              a  b

Names that were read hold no separator and no colon. A marker is left in them only where the columns
start like the metadata, which are not cut. An entry is written as nothing if it has neither a name
nor anything else to say.
-/

open List

namespace RowAwk

/-- What a list gives element by element. -/
theorem mapM_eq_ok_iff {ε α β : Type} {f : α → Except ε β} : ∀ {xs : List α} {ys : List β},
    xs.mapM f = .ok ys ↔ List.Forall₂ (fun x y => f x = .ok y) xs ys
  | [], ys => by
    rw [mapM_nil, forall₂_nil_left_iff]
    exact ⟨fun h => (Except.ok.inj h).symm, fun h => by rw [h]; rfl⟩
  | x :: xs, ys => by
    rw [mapM_cons, except_bind_eq_ok, forall₂_cons_left_iff]
    constructor
    · rintro ⟨y, hy, h⟩
      obtain ⟨zs, hzs, h⟩ := except_bind_eq_ok.1 h
      exact ⟨y, zs, hy, mapM_eq_ok_iff.1 hzs, (Except.ok.inj h).symm⟩
    · rintro ⟨y, zs, hy, hzs, rfl⟩
      exact ⟨y, hy, except_bind_eq_ok.2 ⟨zs, mapM_eq_ok_iff.2 hzs, rfl⟩⟩

theorem exists_of_mem_mapM {ε α β : Type} {f : α → Except ε β} {xs : List α} {ys : List β}
    (h : xs.mapM f = .ok ys) {y : β} (hy : y ∈ ys) : ∃ x ∈ xs, f x = .ok y := by
  induction mapM_eq_ok_iff.1 h with
  | nil => cases hy
  | cons hx hxs ih =>
    rcases mem_cons.1 hy with rfl | hy
    · exact ⟨_, mem_cons_self, hx⟩
    · obtain ⟨x, hm, he⟩ := ih (mapM_eq_ok_iff.2 hxs) hy
      exact ⟨x, mem_cons_of_mem _ hm, he⟩

namespace Text

/-! ### Pieces of a text -/

section

variable {sep : Char → Bool}

theorem pieces_eq_splitOnP : ∀ cs : List Char, pieces sep cs = cs.splitOnP sep
  | [] => by rw [pieces, splitOnP_nil]
  | c :: cs => by
    rw [pieces, splitOnP_cons_eq_if_modifyHead, pieces_eq_splitOnP cs]
    split
    · rfl
    · cases hp : cs.splitOnP sep with
      | nil => exact absurd hp (by rw [← pieces_eq_splitOnP cs]; exact pieces_ne_nil sep cs)
      | cons piece rest => rfl

variable {cs : List Char} {p : Char → Bool} {c : Char}

/-- A text without separators is one piece. -/
theorem pieces_whole (h : ∀ c ∈ cs, sep c = false) : pieces sep cs = [cs] := by
  rw [pieces_eq_splitOnP, splitOnP_eq_singleton h]

theorem pieces_append (h : ∀ c ∈ cs, sep c = false) {d : Char} (hd : sep d = true)
    (rest : List Char) : pieces sep (cs ++ d :: rest) = cs :: pieces sep rest := by
  rw [pieces_eq_splitOnP, pieces_eq_splitOnP, splitOnP_append_cons_of_forall_mem h d hd]

/-- Pieces are made of what is no separator. -/
theorem mem_pieces : ∀ {cs piece : List Char}, piece ∈ pieces sep cs →
    ∀ c ∈ piece, c ∈ cs ∧ sep c = false
  | [], piece, h, c, hc => by
    rw [pieces, mem_singleton] at h
    subst h
    cases hc
  | d :: cs, piece, h, c, hc => by
    have tail {piece : List Char} (h : piece ∈ pieces sep cs) (hc : c ∈ piece) :
        c ∈ d :: cs ∧ sep c = false :=
      (mem_pieces h c hc).imp_left (mem_cons_of_mem d)
    rw [pieces] at h
    split at h
    · rcases mem_cons.1 h with rfl | h
      · cases hc
      · exact tail h hc
    · next hd =>
      have hd : sep d = false := Bool.eq_false_iff.2 hd
      split at h
      · next hp => exact absurd hp (pieces_ne_nil sep cs)
      · next first rest hp =>
        rcases mem_cons.1 h with rfl | h
        · rcases mem_cons.1 hc with rfl | hc
          · exact ⟨mem_cons_self, hd⟩
          · exact tail (by rw [hp]; exact mem_cons_self) hc
        · exact tail (by rw [hp]; exact mem_cons_of_mem first h) hc

/-! ### The first cut and the ends of a text -/

theorem cutAt?_eq_none (h : ∀ c ∈ cs, sep c = false) : cutAt? sep cs = none := by
  induction cs with
  | nil => rw [cutAt?]
  | cons c cs ih =>
    rw [cutAt?, if_neg (by rw [h c mem_cons_self]; exact Bool.false_ne_true),
      ih fun d hd => h d (mem_cons_of_mem c hd)]
    rfl

theorem cutAt?_append {before : List Char} (h : ∀ c ∈ before, sep c = false) {d : Char}
    (hd : sep d = true) (after : List Char) :
    cutAt? sep (before ++ d :: after) = some (before, after) := by
  induction before with
  | nil => rw [nil_append, cutAt?, if_pos hd]
  | cons c cs ih =>
    rw [cons_append, cutAt?, if_neg (by rw [h c mem_cons_self]; exact Bool.false_ne_true),
      ih fun e he => h e (mem_cons_of_mem c he)]
    rfl

/-- What comes before the first cut holds no separator. -/
theorem not_mem_of_cutAt? : ∀ {cs before after : List Char},
    cutAt? sep cs = some (before, after) → ∀ c ∈ before, sep c = false
  | [], _, _, h => by simp [cutAt?] at h
  | d :: cs, before, after, h => by
    rw [cutAt?] at h
    split at h
    · cases h
      exact fun c hc => absurd hc not_mem_nil
    · next hd =>
      obtain ⟨⟨b, a⟩, hb, he⟩ := Option.map_eq_some_iff.1 h
      cases he
      exact forall_mem_cons.2 ⟨Bool.eq_false_iff.2 hd, not_mem_of_cutAt? hb⟩

theorem not_mem_of_cutAt?_eq_none : ∀ {cs : List Char},
    cutAt? sep cs = none → ∀ c ∈ cs, sep c = false
  | [], _ => nofun
  | d :: cs, h => by
    rw [cutAt?] at h
    split at h
    · cases h
    · next hd =>
      exact forall_mem_cons.2
        ⟨Bool.eq_false_iff.2 hd, not_mem_of_cutAt?_eq_none (Option.map_eq_none_iff.1 h)⟩

/-- The end of a text is that of what follows a character which is kept. -/
theorem dropEndWhile_append (cs : List Char) (h : p c = false) (ds : List Char) :
    dropEndWhile p (cs ++ c :: ds) = cs ++ c :: dropEndWhile p ds := by
  have hc : ¬ p c = true := by
    rw [h]
    exact Bool.false_ne_true
  rw [dropEndWhile, reverse_append, reverse_cons, append_assoc,
    singleton_append, dropWhile_append, dropWhile_cons_of_neg hc, dropEndWhile]
  split
  · next he =>
    rw [List.isEmpty_iff.1 he]
    simp
  · simp

theorem dropEndWhile_of_forall {p : Char → Bool} : ∀ {cs : List Char}, (∀ c ∈ cs, p c = false) →
    dropEndWhile p cs = cs
  | [], _ => rfl
  | c :: cs, h => by
    have hc := dropEndWhile_append [] (h c mem_cons_self) cs
    rw [nil_append, nil_append] at hc
    rw [hc, dropEndWhile_of_forall fun d hd => h d (mem_cons_of_mem c hd)]

theorem dropEndWhile_concat (cs : List Char) (h : p c = true) :
    dropEndWhile p (cs ++ [c]) = dropEndWhile p cs := by
  rw [dropEndWhile, dropEndWhile, reverse_append, reverse_singleton,
    singleton_append, dropWhile_cons_of_pos h]

theorem dropEndWhile_of_all (h : ∀ c ∈ cs, p c = true) : dropEndWhile p cs = [] := by
  induction cs using List.reverseRecOn with
  | nil => rfl
  | append_singleton cs c ih =>
    rw [dropEndWhile_concat cs (h c (by simp))]
    exact ih fun d hd => h d (mem_append_left _ hd)

/-- Only the end is trimmed of a text that starts with no blank. -/
theorem trim_cons (hc : isBlank c = false) (cs : List Char) :
    trim (c :: cs) = c :: dropEndWhile isBlank cs := by
  rw [trim, dropWhile_cons_of_neg (by rw [hc]; exact Bool.false_ne_true)]
  exact dropEndWhile_append [] hc cs

end

end Text

namespace Schema

open Text

variable {s : Schema} {cs : List Char} {c : Char}

/-! ### Entries -/

/-- A text without separators: what an entry of a zone is written as. -/
def Unbroken (cs : List Char) : Prop := ∀ c ∈ cs, isSeparator c = false

/-- A text without colons or separators: what the parts of an entry are. -/
def Part (cs : List Char) : Prop := Unbroken cs ∧ ':' ∉ cs

variable {ds zone entry columns : List Char} {f : Field} {o : Order} {more : List (List Char)}
variable {extras after : Extras} {texts : List String} {header : String}

theorem Unbroken.append (hc : Unbroken cs) (hd : Unbroken ds) :
    Unbroken (cs ++ ds) := fun c h => (mem_append.1 h).elim (hc c) (hd c)

theorem isSeparator_of_isBlank (h : isBlank c = true) : isSeparator c = true := by
  rw [isSeparator, h, Bool.or_true]

theorem Part.not_colon (h : Part cs) : ∀ c ∈ cs, (c == ':') = false :=
  fun _ hc => beq_false_of_ne fun he => h.2 (he ▸ hc)

/-- The entries with tabs between them. -/
def tabbed (texts : List String) : List Char := ['\t'].intercalate (texts.map String.toList)

/-- Entries are found again between tabs, those that are written as nothing apart. -/
theorem entries_tabbed : ∀ {texts : List String}, (∀ t ∈ texts, Unbroken t.toList) →
    entries (tabbed texts) = (texts.map String.toList).filter (· ≠ [])
  | [], _ => rfl
  | [t], h => by
    rw [tabbed, map_singleton, intercalate_singleton, entries, pieces_whole (h t mem_cons_self)]
  | t :: u :: texts, h => by
    have ih := entries_tabbed fun v hv => h v (mem_cons_of_mem t hv)
    rw [tabbed, entries] at ih
    rw [tabbed, map_cons, map_cons, intercalate_cons_cons, append_assoc, singleton_append, entries,
      pieces_append (h t mem_cons_self) (show isSeparator '\t' = true by decide),
      filter_cons, filter_cons, ← map_cons, ih]

theorem entries_space (cs : List Char) : entries (' ' :: cs) = entries cs := by
  rw [entries, entries, pieces, if_pos (by decide), filter_cons_of_neg (by simp)]

theorem entries_concat (cs : List Char) (hc : isSeparator c = true) :
    entries (cs ++ [c]) = entries cs := by
  have hsplit : pieces isSeparator (cs ++ [c]) = pieces isSeparator cs ++ [[]] := by
    rw [pieces_eq_splitOnP, pieces_eq_splitOnP, splitOnP_append_cons cs [] hc, splitOnP_nil]
  rw [entries, entries, hsplit, filter_append, filter_cons_of_neg (by simp), filter_nil, append_nil]

/-- Blanks at the end of a zone make no entries. -/
theorem entries_dropEndWhile (cs : List Char) : entries (dropEndWhile isBlank cs) = entries cs := by
  induction cs using List.reverseRecOn with
  | nil => rfl
  | append_singleton cs c ih =>
    by_cases hc : isBlank c = true
    · rw [dropEndWhile_concat cs hc, ih, entries_concat cs (isSeparator_of_isBlank hc)]
    · rw [dropEndWhile_append cs (Bool.eq_false_iff.2 hc)]
      rfl

theorem mem_entries (h : entry ∈ entries zone) : entry ⊆ zone ∧ Unbroken entry := by
  have hp := (mem_filter.1 h).1
  exact ⟨fun c hc => (mem_pieces hp c hc).1, fun c hc => (mem_pieces hp c hc).2⟩

theorem part_of_mem_pieces {piece : List Char} (he : Unbroken entry)
    (h : piece ∈ pieces (· == ':') entry) : piece ⊆ entry ∧ Part piece := by
  refine ⟨fun c hc => (mem_pieces h c hc).1, fun c hc => he c (mem_pieces h c hc).1, ?_⟩
  intro hc
  simpa using (mem_pieces h ':' hc).2

/-! ### Columns -/

theorem readField_inv (he : Unbroken entry) (h : readField entry = .ok f) :
    f.name.toList ⊆ entry ∧ Part f.name.toList := by
  unfold readField at h
  split at h
  · next name hp =>
    cases h
    rw [String.toList_ofList]
    exact part_of_mem_pieces he (by rw [hp]; exact mem_cons_self)
  · next name type hp =>
    split at h
    · cases h
      rw [String.toList_ofList]
      exact part_of_mem_pieces he (by rw [hp]; exact mem_cons_self)
    · cases h
  · cases h

theorem FieldType.part_text (t : FieldType) : Part t.text.toList := by
  cases t <;> exact ⟨by simp [Unbroken, FieldType.text]; decide, by decide⟩

theorem FieldType.ofText?_text (t : FieldType) : FieldType.ofText? t.text = some t := by
  cases t <;> decide

theorem Field.toList_text (f : Field) :
    (f.type = .any ∧ f.text.toList = f.name.toList) ∨
      f.text.toList = f.name.toList ++ ':' :: f.type.text.toList := by
  rcases f with ⟨name, type⟩
  cases type <;> simp [Field.text, String.toList_append]

theorem Field.unbroken_text (h : Part f.name.toList) : Unbroken f.text.toList := by
  rcases f.toList_text with ⟨-, ht⟩ | ht
  · rw [ht]
    exact h.1
  · rw [ht, ← singleton_append]
    exact h.1.append (.append (by simp [Unbroken]; decide) f.type.part_text.1)

/-- Only a column without a name of which nothing is known is written as nothing. -/
theorem Field.text_eq_empty : f.text = "" ↔ f = ⟨"", .any⟩ := by
  rcases f with ⟨name, type⟩
  cases type <;> simp [Field.text, String.append_eq_empty_iff]

/-- A column is read back from its text. -/
theorem readField_text (h : Part f.name.toList) : readField f.text.toList = .ok f := by
  rcases f.toList_text with ⟨hany, ht⟩ | ht
  · rw [ht, readField, pieces_whole h.not_colon]
    simp only [String.ofList_toList, ← hany]
  · rw [ht, readField, pieces_append h.not_colon rfl, pieces_whole f.type.part_text.not_colon]
    simp only [String.ofList_toList, FieldType.ofText?_text]

/-! ### Sort orders -/

/-- What a header writes after the name of an entry, without what goes without saying. -/
def modifiers (kind : SortKind) (descending : Bool) : List String :=
  (if descending then ["desc"] else []) ++
    (match kind with
      | .text => []
      | kind => [kind.name])

theorem Order.toList_text (o : Order) :
    o.text.toList
      = o.name.toList ++ (modifiers o.kind o.descending).flatMap fun m => ':' :: m.toList := by
  rcases o with ⟨name, kind, descending⟩
  cases kind <;> cases descending <;> simp [Order.text, modifiers, String.toList_append]

theorem part_modifiers (kind : SortKind) (descending : Bool) :
    ∀ m ∈ modifiers kind descending, Part m.toList := by
  have key : ∀ m ∈ modifiers kind descending,
      (m.toList.all fun c => !isSeparator c && c != ':') = true := by
    cases kind <;> cases descending <;> decide
  intro m hm
  have hall := key m hm
  simp only [all_eq_true, Bool.and_eq_true, Bool.not_eq_true', bne_iff_ne] at hall
  exact ⟨fun c hc => (hall c hc).1, fun hc => (hall ':' hc).2 rfl⟩

theorem Order.ofModifiers_modifiers (o : Order) :
    Order.ofModifiers o.name (modifiers o.kind o.descending) = .ok o := by
  rcases o with ⟨name, kind, descending⟩
  cases kind <;> cases descending <;> rfl

theorem pieces_flatMap {cs : List Char} (hc : Part cs) : ∀ {ms : List String},
    (∀ m ∈ ms, Part m.toList) →
      pieces (· == ':') (cs ++ ms.flatMap fun m => ':' :: m.toList)
        = cs :: ms.map String.toList
  | [], _ => by rw [flatMap_nil, append_nil, pieces_whole hc.not_colon]; rfl
  | m :: ms, h => by
    rw [flatMap_cons, cons_append, pieces_append hc.not_colon rfl,
      pieces_flatMap (h m mem_cons_self) fun n hn => h n (mem_cons_of_mem m hn)]
    rfl

theorem Order.unbroken_text (h : Part o.name.toList) : Unbroken o.text.toList := by
  intro c hc
  rw [o.toList_text, mem_append, mem_flatMap] at hc
  rcases hc with hc | ⟨m, hm, hc⟩
  · exact h.1 c hc
  · rcases mem_cons.1 hc with rfl | hc
    · decide
    · exact (part_modifiers _ _ m hm).1 c hc

theorem Order.text_eq_empty : o.text = "" ↔ o = ⟨"", .text, false⟩ := by
  rcases o with ⟨name, kind, descending⟩
  cases kind <;> cases descending <;> simp [Order.text, String.append_eq_empty_iff]

/-- An entry of a sort order is read back from its text. -/
theorem readOrder_text (h : Part o.name.toList) : readOrder o.text.toList = .ok o := by
  rw [o.toList_text, readOrder, pieces_flatMap h (part_modifiers _ _), map_cons, map_map,
    String.ofList_toList]
  have hback : String.ofList ∘ String.toList = id := funext fun _ => String.ofList_toList
  rw [hback, map_id]
  exact o.ofModifiers_modifiers

/-! ### Sizes -/

theorem word64OfDigits?_toString {n : Nat} (h : n < Nat.pow 2 64) :
    Number.word64OfDigits? (toString n).toList = some n :=
  Number.word64OfDigits?_eq_some_iff.2 ⟨_, .inl rfl, Number.toString_ne_nil n,
    Number.isDigit_toString n, (Number.ofDigitChars_toString n).symm, h⟩

/-! ### Zones -/

/-- A zone of a text is cut off at the next marker. -/
theorem zones_cons (hc : c ≠ 'M') (h : '#' ∉ c :: zone) (rest : List Char) :
    zones (c :: zone ++ '#' :: rest) = (c :: zone) :: zones rest := by
  have hmeta : ¬ "META".toList.isPrefixOf (c :: zone ++ '#' :: rest) = true := by
    simp [List.isPrefixOf, hc.symm]
  have hmark : ∀ d ∈ c :: zone, (d == '#') = false :=
    fun d hd => beq_false_of_ne fun he => h (he ▸ hd)
  have hcut : cutAt? (· == '#') (c :: zone ++ '#' :: rest) = some (c :: zone, rest) :=
    cutAt?_append hmark rfl rest
  rw [zones, if_neg hmeta]
  split
  · next he => rw [hcut] at he; cases he
  · next he =>
    rw [hcut] at he
    cases he
    rfl

theorem zones_last (h : '#' ∉ zone) : zones zone = [zone] := by
  have hcut : cutAt? (· == '#') zone = none :=
    cutAt?_eq_none fun d hd => beq_false_of_ne fun he => h (he ▸ hd)
  rw [zones]
  split
  · rfl
  · split
    · rfl
    · next he => rw [hcut] at he; cases he

/-- The columns hold no marker, unless they start as the metadata do. -/
theorem zones_head (h : zones cs = columns :: more) (hmeta : ¬ "META".toList.isPrefixOf cs = true) :
    '#' ∉ columns := by
  rw [zones, if_neg hmeta] at h
  intro hc
  split at h
  · next hcut =>
    cases h
    simpa using not_mem_of_cutAt?_eq_none hcut '#' hc
  · next hcut =>
    cases h
    simpa using not_mem_of_cutAt? hcut '#' hc

/-- Zones as a text shows them: a space ends each but the last. -/
def spaced (zone : List Char) : List (List Char) → List (List Char)
  | [] => [zone]
  | next :: more => (zone ++ [' ']) :: spaced next more

/-- Zones with a space and a marker before each of them are found again. -/
theorem zones_flatMap : ∀ {zone : List Char} {more : List (List Char)},
    (∀ z ∈ zone :: more, '#' ∉ z ∧ ∃ c cs, z = c :: cs ∧ c ≠ 'M') →
      zones (zone ++ more.flatMap fun z => ' ' :: '#' :: z) = spaced zone more
  | zone, [], h => by
    rw [flatMap_nil, append_nil, zones_last (h zone mem_cons_self).1, spaced]
  | zone, next :: more, h => by
    obtain ⟨hz, c, cs, rfl, hc⟩ := h zone mem_cons_self
    have hspace : '#' ∉ c :: (cs ++ [' ']) := by
      rw [← cons_append, mem_append, mem_singleton, not_or]
      exact ⟨hz, by decide⟩
    have hcut := zones_cons hc hspace (next ++ more.flatMap fun z => ' ' :: '#' :: z)
    rw [zones_flatMap fun z hz => h z (mem_cons_of_mem _ hz)] at hcut
    rw [spaced, cons_append, cons_append, ← hcut]
    simp

theorem readZone_concat_space (extras : Extras) (hc : isBlank c = false) (cs : List Char) :
    readZone extras (c :: cs ++ [' ']) = readZone extras (c :: cs) := by
  have htrim : trim (c :: cs ++ [' ']) = trim (c :: cs) := by
    rw [cons_append, trim_cons hc, trim_cons hc, dropEndWhile_concat cs (by decide)]
  rw [readZone, readZone, htrim]

theorem foldlM_spaced : ∀ {zone : List Char} {more : List (List Char)} (extras : Extras),
    (∀ z ∈ zone :: more, ∃ c cs, z = c :: cs ∧ isBlank c = false) →
      (spaced zone more).foldlM readZone extras = (zone :: more).foldlM readZone extras
  | zone, [], extras, _ => rfl
  | zone, next :: more, extras, h => by
    obtain ⟨c, cs, rfl, hc⟩ := h zone mem_cons_self
    rw [spaced, foldlM_cons, foldlM_cons, readZone_concat_space extras hc]
    exact congrArg _ (funext fun e =>
      foldlM_spaced e fun z hz => h z (mem_cons_of_mem _ hz))

/-! ### What a zone says -/

/-- The name and the data of a zone, as its text shows them. -/
def written (name : String) (data : List Char) : List Char := name.toList ++ ' ' :: data

section

variable {data : List Char}

/-- A zone is cut after its name, and loses the blanks at its end. -/
theorem cutAt?_trim_written (name : String) (hname : name ∈ ["ORDER:", "SIZE:"]) (hc : c ∈ data)
    (hb : isBlank c = false) :
    cutAt? isBlank (trim (written name data))
      = some (name.toList, dropEndWhile isBlank data) := by
  have key : ∀ n ∈ ["ORDER:", "SIZE:"], ∃ c cs d, n.toList = c :: cs ++ [d] ∧
      isBlank c = false ∧ isBlank d = false ∧
        (n.toList.all fun e => !isBlank e) = true := by
    intro n hn
    simp only [mem_cons, not_mem_nil, or_false] at hn
    rcases hn with rfl | rfl
    · exact ⟨'O', ['R', 'D', 'E', 'R'], ':', by decide +kernel⟩
    · exact ⟨'S', ['I', 'Z', 'E'], ':', by decide +kernel⟩
  obtain ⟨f, fs, d, hn, hf, hd, hall⟩ := key name hname
  -- the data go on to a character that is no blank, so the space before them stays
  obtain ⟨before, after, rfl⟩ := append_of_mem hc
  have hspace : dropEndWhile isBlank (' ' :: (before ++ c :: after))
      = ' ' :: dropEndWhile isBlank (before ++ c :: after) := by
    rw [← cons_append, dropEndWhile_append _ hb, dropEndWhile_append _ hb, cons_append]
  have htrim : trim (written name (before ++ c :: after))
      = name.toList ++ ' ' :: dropEndWhile isBlank (before ++ c :: after) := by
    rw [written, hn, append_assoc, cons_append, singleton_append,
      trim_cons hf, dropEndWhile_append fs hd, hspace]
    simp
  have hshown (e : Char) (he : e ∈ name.toList) : isBlank e = false := by
    simpa using all_eq_true.1 hall e he
  rw [htrim, cutAt?_append hshown (by decide)]

/-- A zone that is written with blanks only is none. -/
theorem cutAt?_trim_blank (hb : ∀ c ∈ data, isBlank c = true) :
    cutAt? isBlank (trim (written "ORDER:" data)) = none := by
  have htrim : trim (written "ORDER:" data) = "ORDER:".toList := by
    have hrest : dropEndWhile isBlank (['R', 'D', 'E', 'R'] ++ ':' :: ' ' :: data)
        = ['R', 'D', 'E', 'R', ':'] := by
      rw [dropEndWhile_append _ (by decide), dropEndWhile_of_all]
      · rfl
      · exact forall_mem_cons.2 ⟨by decide, hb⟩
    show trim ('O' :: (['R', 'D', 'E', 'R'] ++ ':' :: ' ' :: data)) = _
    rw [trim_cons (by decide), hrest]
    rfl
  rw [htrim]
  decide

end

theorem mem_tabbed : ∀ {texts : List String}, c ∈ tabbed texts →
    c = '\t' ∨ ∃ t ∈ texts, c ∈ t.toList
  | [], h => by cases h
  | [t], h => by
    rw [tabbed, map_singleton, intercalate_singleton] at h
    exact .inr ⟨t, mem_cons_self, h⟩
  | t :: u :: texts, h => by
    rw [tabbed, map_cons, map_cons, intercalate_cons_cons, mem_append, mem_append, ← map_cons] at h
    rcases h with (h | h) | h
    · exact .inr ⟨t, mem_cons_self, h⟩
    · exact .inl (mem_singleton.1 h)
    · exact (mem_tabbed h).imp_right fun ⟨v, hv, hc⟩ => ⟨v, mem_cons_of_mem t hv, hc⟩

theorem mem_tabbed_of_mem {t : String} (hc : c ∈ t.toList) : ∀ {texts : List String},
    t ∈ texts → c ∈ tabbed texts
  | [u], h => by
    rw [mem_singleton.1 h] at hc
    rwa [tabbed, map_singleton, intercalate_singleton]
  | u :: v :: texts, h => by
    rw [tabbed, map_cons, map_cons, intercalate_cons_cons, mem_append, mem_append, ← map_cons]
    rcases mem_cons.1 h with rfl | h
    · exact .inl (.inl hc)
    · exact .inr (mem_tabbed_of_mem hc h)

/-- What a text is written as, if it is written as something. -/
theorem isBlank_of_unbroken (h : Unbroken cs) (hc : c ∈ cs) : isBlank c = false := by
  have hs := h c hc
  rw [isSeparator, Bool.or_eq_false_iff] at hs
  exact hs.2

/-- The entries of a sort order are read if one of them is written as something. -/
theorem readZone_order (h : ∀ t ∈ texts, Unbroken t.toList) :
    readZone extras (written "ORDER:" (tabbed texts)) = .ok after ↔
      (∃ t ∈ texts, t ≠ "") ∧ ∃ order,
        ((texts.map String.toList).filter (· ≠ [])).mapM readOrder = .ok order ∧
          after = { extras with order } := by
  by_cases hsome : ∃ t ∈ texts, t ≠ ""
  · obtain ⟨t, ht, hne⟩ := id hsome
    obtain ⟨c, hc⟩ := exists_mem_of_ne_nil t.toList fun he => hne (String.toList_eq_nil_iff.1 he)
    have hcut := cutAt?_trim_written "ORDER:" mem_cons_self (mem_tabbed_of_mem hc ht)
      (isBlank_of_unbroken (h t ht) hc)
    rw [readZone]
    simp only [hcut, if_pos]
    rw [entries_dropEndWhile, entries_tabbed h, except_bind_eq_ok]
    constructor
    · rintro ⟨order, horder, he⟩
      exact ⟨hsome, order, horder, (Except.ok.inj he).symm⟩
    · rintro ⟨-, order, horder, rfl⟩
      exact ⟨order, horder, rfl⟩
  · have hblank : ∀ c ∈ tabbed texts, isBlank c = true := by
      intro c hc
      rcases mem_tabbed hc with rfl | ⟨t, ht, hc⟩
      · decide
      · have hempty : t = "" := by
          by_contra hne
          exact hsome ⟨t, ht, hne⟩
        rw [hempty] at hc
        cases hc
    rw [readZone]
    simp only [cutAt?_trim_blank hblank]
    refine ⟨fun h => ?_, fun h => absurd h.1 hsome⟩
    cases h

theorem readZone_size (extras : Extras) {n : Nat} (h : n < Nat.pow 2 64) :
    readZone extras (written "SIZE:" (toString n).toList) = .ok { extras with size := some n } := by
  have hdigit : ∀ c ∈ (toString n).toList, isBlank c = false := by
    intro c hc
    have hd := Number.isDigit_toString n c hc
    rw [Char.isDigit, Bool.and_eq_true, decide_eq_true_eq, decide_eq_true_eq] at hd
    have hlow : 48 ≤ c.toNat := hd.1
    have hhigh : c.toNat ≤ 57 := hd.2
    simp [isBlank]
    omega
  obtain ⟨c, hc⟩ := exists_mem_of_ne_nil _ (Number.toString_ne_nil n)
  have hcut := cutAt?_trim_written "SIZE:" (by decide) hc (hdigit c hc)
  rw [dropEndWhile_of_forall hdigit] at hcut
  have htrim : trim (toString n).toList = (toString n).toList := by
    cases hs : (toString n).toList with
    | nil => rfl
    | cons d ds =>
      rw [hs] at hdigit
      rw [trim_cons (hdigit d mem_cons_self),
        dropEndWhile_of_forall fun e he => hdigit e (mem_cons_of_mem d he)]
  rw [readZone]
  simp only [hcut]
  rw [if_neg (by decide), if_pos trivial, htrim, word64OfDigits?_toString h]
  rfl

/-! ### Headers -/

/-- The zones after the columns, in the header of a description without metadata. -/
def further (s : Schema) : List (List Char) :=
  (if s.order.isEmpty then [] else [written "ORDER:" (tabbed (s.order.map Order.text))])
    ++ (s.size.map fun n => written "SIZE:" (toString n).toList).toList

theorem toList_text (h : s.metadata = []) :
    s.text.toList = '#' :: ' ' :: tabbed (s.fields.map Field.text)
      ++ (further s).flatMap fun zone => ' ' :: '#' :: zone := by
  rcases s with ⟨fields, order, size, metadata⟩
  cases h
  cases order <;> cases size <;>
    simp [text, further, written, tabbed, String.toList_append, String.toList_intercalate]

theorem zones_ne_nil (cs : List Char) : zones cs ≠ [] := by
  rw [zones]
  split
  · exact cons_ne_nil _ _
  · split <;> exact cons_ne_nil _ _

theorem ofFields_ok {fields : List Field} {order : List Order} (h : ofFields fields order = .ok s) :
    s = ⟨fields, order, none, []⟩ ∧ ∀ o ∈ order, ∃ f ∈ fields, f.name = o.name := by
  unfold ofFields at h
  split at h
  · split at h
    · cases h
    · next hstray =>
      cases h
      refine ⟨rfl, fun o ho => ?_⟩
      have hany := List.find?_eq_none.1 hstray o ho
      simpa using hany
  · cases h

/-- What a header says, zone by zone. -/
theorem parse_eq_ok :
    parse header = .ok s ↔ ∃ cs columns more extras,
      dropEndWhile (fun c => c == '\n' || c == '\r') header.toList = '#' :: cs ∧
        zones cs = columns :: more ∧ (entries columns).mapM readField = .ok s.fields ∧
          more.foldlM readZone {} = .ok extras ∧
            ofFields s.fields extras.order = .ok ⟨s.fields, extras.order, none, []⟩ ∧
              s.order = extras.order ∧ s.size = extras.size ∧ s.metadata = extras.metadata := by
  rw [parse]
  constructor
  · intro h
    split at h
    · next cs hcs =>
      split at h
      · next hz => exact absurd hz (zones_ne_nil cs)
      · next columns more hz =>
        obtain ⟨fields, hfields, h⟩ := except_bind_eq_ok.1 h
        obtain ⟨extras, hextras, h⟩ := except_bind_eq_ok.1 h
        obtain ⟨schema, hschema, h⟩ := except_bind_eq_ok.1 h
        obtain ⟨rfl, -⟩ := ofFields_ok hschema
        cases h
        exact ⟨cs, columns, more, extras, hcs, hz, hfields, hextras, hschema, rfl, rfl, rfl⟩
    · cases h
  · rintro ⟨cs, columns, more, extras, hcs, hz, hfields, hextras, hschema, ho, hs, hm⟩
    simp only [hcs, hz]
    refine except_bind_eq_ok.2 ⟨s.fields, hfields, except_bind_eq_ok.2 ⟨extras, hextras,
      except_bind_eq_ok.2 ⟨_, hschema, ?_⟩⟩⟩
    rw [← ho, ← hs, ← hm]
    rfl

/-- A description that can be read: its names are parts of entries, its columns and its sort order
    fit together, its size is a word. -/
structure Regular (s : Schema) : Prop where
  part : ∀ f ∈ s.fields, Part f.name.toList
  consistent : ofFields s.fields s.order = .ok ⟨s.fields, s.order, none, []⟩
  word : ∀ n ∈ s.size, n < Nat.pow 2 64
  plain : s.metadata = []

theorem readZone_word {before : Extras} (hb : ∀ n ∈ before.size, n < Nat.pow 2 64)
    (h : readZone before zone = .ok after) : ∀ n ∈ after.size, n < Nat.pow 2 64 := by
  unfold readZone at h
  dsimp only at h
  split at h
  · cases h
  · split at h
    · obtain ⟨order, -, h⟩ := except_bind_eq_ok.1 h
      cases h
      exact hb
    · split at h
      · split at h
        · next size hsize =>
          cases h
          intro n hn
          cases hn
          obtain ⟨-, -, -, -, -, hlt⟩ := Number.word64OfDigits?_eq_some_iff.1 hsize
          exact hlt
        · cases h
      · split at h
        · obtain ⟨metadata, -, h⟩ := except_bind_eq_ok.1 h
          cases h
          exact hb
        · cases h

/-- Whatever a header describes can be written again, its metadata apart. Its names hold a marker
    only if the columns start as the metadata do. -/
theorem parse_inv (h : parse header = .ok s) (hplain : s.metadata = []) :
    Regular s ∧
      ((∃ f ∈ s.fields, '#' ∈ f.name.toList) → ∃ cs,
        dropEndWhile (fun c => c == '\n' || c == '\r') header.toList = '#' :: cs ∧
          "META".toList.isPrefixOf cs = true) := by
  obtain ⟨cs, columns, more, extras, hcs, hz, hfields, hextras, hschema, ho, hs, -⟩ :=
    parse_eq_ok.1 h
  -- each column comes from an entry of the first zone
  have hpart : ∀ f ∈ s.fields, f.name.toList ⊆ columns ∧ Part f.name.toList := by
    intro f hf
    obtain ⟨entry, he, hfield⟩ := exists_of_mem_mapM hfields hf
    obtain ⟨hsub, hpart⟩ := readField_inv (mem_entries he).2 hfield
    exact ⟨List.Subset.trans hsub (mem_entries he).1, hpart⟩
  refine ⟨⟨fun f hf => (hpart f hf).2, by rw [ho]; exact hschema, ?_, hplain⟩, ?_⟩
  · rw [hs]
    exact foldlM_induct (Q := fun e : Extras => ∀ n ∈ e.size, n < Nat.pow 2 64)
      (fun zone _ before after hb ha => readZone_word hb ha) (fun _ hn => by cases hn) hextras
  · rintro ⟨f, hf, hmark⟩
    refine ⟨cs, hcs, ?_⟩
    by_contra hmeta
    exact zones_head hz hmeta ((hpart f hf).1 hmark)

/-- A header is read as its columns and its further zones, if only markers cut it there. -/
theorem zones_text (hcolumns : '#' ∉ columns)
    (hmore : ∀ z ∈ more, '#' ∉ z ∧ ∃ c cs, z = c :: cs ∧ c ≠ 'M' ∧ isBlank c = false) :
    ∃ first rest, zones (' ' :: columns ++ more.flatMap fun z => ' ' :: '#' :: z) = first :: rest ∧
      entries first = entries columns ∧
        ∀ extras, rest.foldlM readZone extras = more.foldlM readZone extras := by
  have hz : zones (' ' :: columns ++ more.flatMap fun z => ' ' :: '#' :: z)
      = spaced (' ' :: columns) more := by
    refine zones_flatMap fun z hz => ?_
    rcases mem_cons.1 hz with rfl | hz
    · exact ⟨by simpa using hcolumns, ' ', columns, rfl, by decide⟩
    · obtain ⟨hno, c, cs, he, hc, -⟩ := hmore z hz
      exact ⟨hno, c, cs, he, hc⟩
  cases more with
  | nil => exact ⟨_, _, hz, entries_space columns, fun _ => rfl⟩
  | cons next more =>
    refine ⟨_, _, hz, ?_, fun extras => foldlM_spaced extras fun z hz => ?_⟩
    · rw [entries_concat _ (by decide), entries_space]
    · obtain ⟨-, c, cs, he, -, hb⟩ := hmore z hz
      exact ⟨c, cs, he, hb⟩

/-- What is written as something is read back from a list of texts. -/
theorem mapM_texts {α : Type} {read : List Char → Except SchemaError α} {text : α → String}
    {xs : List α} (h : ∀ x ∈ xs, read (text x).toList = .ok x) :
    (((xs.map text).map String.toList).filter (· ≠ [])).mapM read
      = .ok (xs.filter fun x => text x ≠ "") := by
  rw [map_map, filter_map, mapM_eq_ok_iff, forall₂_map_left_iff]
  have hfilter : (fun x => decide (x ≠ [])) ∘ (String.toList ∘ text)
      = fun x => decide (text x ≠ "") := by
    funext x
    simp
  rw [hfilter, forall₂_same]
  exact fun x hx => h x (mem_of_mem_filter hx)

/-! ### Reading a description back -/

/-- A text that is cut neither at a marker nor at the end of a line. -/
def Inline (cs : List Char) : Prop := ∀ c ∈ cs, c ≠ '#' ∧ (c == '\n' || c == '\r') = false

theorem Inline.append (hc : Inline cs) (hd : Inline ds) : Inline (cs ++ ds) :=
  fun c h => (mem_append.1 h).elim (hc c) (hd c)

theorem Unbroken.inline (h : Unbroken cs) (hmark : '#' ∉ cs) : Inline cs := by
  intro c hc
  have hb := isBlank_of_unbroken h hc
  refine ⟨fun he => hmark (he ▸ hc), ?_⟩
  rw [Bool.or_eq_false_iff]
  constructor <;> exact beq_false_of_ne fun he => by rw [he] at hb; exact absurd hb (by decide)

theorem inline_tabbed (h : ∀ t ∈ texts, Inline t.toList) : Inline (tabbed texts) := by
  intro c hc
  rcases mem_tabbed hc with rfl | ⟨t, ht, hc⟩
  · decide
  · exact h t ht c hc

theorem Field.inline_text (h : Part f.name.toList) (hmark : '#' ∉ f.name.toList) :
    Inline f.text.toList := by
  refine (unbroken_text h).inline fun hc => ?_
  have htype : '#' ∉ ':' :: f.type.text.toList := by
    cases f.type <;> decide
  rcases f.toList_text with ⟨-, ht⟩ | ht
  · exact hmark (ht ▸ hc)
  · rw [ht, mem_append] at hc
    exact hc.elim hmark htype

theorem Order.inline_text (h : Part o.name.toList) (hmark : '#' ∉ o.name.toList) :
    Inline o.text.toList := by
  refine (unbroken_text h).inline fun hc => ?_
  have hmods : '#' ∉ (modifiers o.kind o.descending).flatMap fun m => ':' :: m.toList := by
    cases o.kind <;> cases o.descending <;> decide
  rw [o.toList_text, mem_append] at hc
  exact hc.elim hmark hmods

theorem Regular.partOrder (h : Regular s) : ∀ o ∈ s.order, Part o.name.toList := by
  intro o ho
  obtain ⟨f, hf, he⟩ := (ofFields_ok h.consistent).2 o ho
  rw [← he]
  exact h.part f hf

theorem inline_digits (n : Nat) : Inline (toString n).toList := by
  intro c hc
  have hd := Number.isDigit_toString n c hc
  constructor
  · rintro rfl
    exact absurd hd (by decide)
  · rw [Bool.or_eq_false_iff]
    constructor <;> exact beq_false_of_ne fun he => by rw [he] at hd; exact absurd hd (by decide)

theorem inline_written {name : String} (hname : name ∈ ["ORDER:", "SIZE:"]) {data : List Char}
    (h : Inline data) : Inline (written name data) := by
  have hfirst : ∀ n ∈ ["ORDER:", "SIZE:"], ((n.toList ++ [' ']).all fun c =>
      c ≠ '#' ∧ (c == '\n' || c == '\r') = false) = true := by decide +kernel
  rw [written, ← singleton_append, ← append_assoc]
  exact Inline.append
    (fun c hc => of_decide_eq_true (all_eq_true.1 (hfirst name hname) c hc)) h

/-- The further zones of a header are inline, and none starts as the metadata do. -/
theorem Regular.further (h : Regular s) (hmark : ∀ f ∈ s.fields, '#' ∉ f.name.toList) :
    ∀ z ∈ s.further,
      Inline z ∧ ∃ c cs, z = c :: cs ∧ c ≠ 'M' ∧ isBlank c = false := by
  intro z hz
  rcases mem_append.1 hz with hz | hz
  · split at hz
    · cases hz
    · rw [mem_singleton.1 hz]
      refine ⟨?_, 'O', _, rfl, by decide, by decide⟩
      refine inline_written (by decide) (inline_tabbed fun t ht => ?_)
      obtain ⟨o, ho, rfl⟩ := mem_map.1 ht
      obtain ⟨f, hf, he⟩ := (ofFields_ok h.consistent).2 o ho
      exact o.inline_text (h.partOrder o ho) (he ▸ hmark f hf)
  · obtain ⟨n, -, rfl⟩ := Option.map_eq_some_iff.1 (Option.mem_toList.1 hz)
    exact ⟨inline_written (by decide) (inline_digits n), 'S', _, rfl, by decide, by decide⟩

/-- What the further zones say again, if one entry at least is written as something. -/
theorem Regular.foldlM_further (h : Regular s) :
    s.further.foldlM readZone {} = .ok extras ↔
      (s.order = [] ∨ ∃ o ∈ s.order, o.text ≠ "") ∧
        extras = ⟨s.order.filter fun o => o.text ≠ "", s.size, []⟩ := by
  have hsize : ∀ order : List Order,
      ((s.size.map fun n => written "SIZE:" (toString n).toList).toList).foldlM readZone
        { order } = .ok ⟨order, s.size, []⟩ := by
    intro order
    cases hs : s.size with
    | none => rfl
    | some n =>
      have hn := readZone_size { order } (h.word n hs)
      simp only [Option.map_some, Option.toList_some, foldlM_cons, hn]
      rfl
  have htexts := mapM_texts fun o ho => readOrder_text (h.partOrder o ho)
  have hunbroken : ∀ t ∈ s.order.map Order.text, Unbroken t.toList := by
    intro t ht
    obtain ⟨o, ho, rfl⟩ := mem_map.1 ht
    exact o.unbroken_text (h.partOrder o ho)
  rw [Schema.further, foldlM_append]
  by_cases ho : s.order = []
  · have hnone := hsize []
    rw [ho]
    simp only [isEmpty_nil, if_true, foldlM_nil, pure_bind, hnone]
    exact ⟨fun he => ⟨.inl trivial, (Except.ok.inj he).symm⟩, fun he => congrArg _ he.2.symm⟩
  · have hne : ¬ s.order.isEmpty = true := by rwa [List.isEmpty_iff]
    rw [if_neg hne, foldlM_cons, except_bind_eq_ok]
    simp only [foldlM_nil, bind_pure, readZone_order hunbroken, htexts]
    constructor
    · rintro ⟨_, ⟨⟨t, ht, hne⟩, order, horder, rfl⟩, he⟩
      obtain ⟨o, hmem, rfl⟩ := mem_map.1 ht
      cases horder
      rw [hsize] at he
      exact ⟨.inr ⟨o, hmem, hne⟩, (Except.ok.inj he).symm⟩
    · rintro ⟨hsome, rfl⟩
      obtain ⟨o, hmem, hne⟩ := hsome.resolve_left ho
      exact ⟨_, ⟨⟨o.text, mem_map_of_mem hmem, hne⟩, _, rfl, rfl⟩, hsize _⟩

theorem Regular.inline_columns (h : Regular s) (hmark : ∀ f ∈ s.fields, '#' ∉ f.name.toList) :
    Inline (tabbed (s.fields.map Field.text)) := by
  refine inline_tabbed fun t ht => ?_
  obtain ⟨f, hf, rfl⟩ := mem_map.1 ht
  exact f.inline_text (h.part f hf) (hmark f hf)

/-- The header of a description is one line. -/
theorem Regular.line_text (h : Regular s) (hmark : ∀ f ∈ s.fields, '#' ∉ f.name.toList) :
    dropEndWhile (fun c => c == '\n' || c == '\r') s.text.toList = s.text.toList := by
  rw [toList_text h.plain]
  refine dropEndWhile_of_forall fun c hc => ?_
  rcases mem_append.1 hc with hc | hc
  · rcases mem_cons.1 hc with rfl | hc
    · decide
    · rcases mem_cons.1 hc with rfl | hc
      · decide
      · exact (h.inline_columns hmark c hc).2
  · obtain ⟨z, hz, hc⟩ := mem_flatMap.1 hc
    rcases mem_cons.1 hc with rfl | hc
    · decide
    · rcases mem_cons.1 hc with rfl | hc
      · decide
      · exact ((h.further hmark z hz).1 c hc).2

/-- Where no marker cuts a name, a description is read back but for what is written as nothing. -/
theorem Regular.parse_text_eq (h : Regular s) (hmark : ∀ f ∈ s.fields, '#' ∉ f.name.toList) :
    parse s.text = .ok s ↔ (∀ f ∈ s.fields, f.text ≠ "") ∧ ∀ o ∈ s.order, o.text ≠ "" := by
  have hunbroken : ∀ t ∈ s.fields.map Field.text, Unbroken t.toList := by
    intro t ht
    obtain ⟨f, hf, rfl⟩ := mem_map.1 ht
    exact f.unbroken_text (h.part f hf)
  have hcolumns : '#' ∉ tabbed (s.fields.map Field.text) :=
    fun hc => (h.inline_columns hmark '#' hc).1 rfl
  obtain ⟨first, rest, hz, hentries, hfold⟩ := zones_text hcolumns fun z hz =>
    (h.further hmark z hz).imp_left fun hi hc => (hi '#' hc).1 rfl
  have hline := h.line_text hmark
  rw [toList_text h.plain, cons_append] at hline
  have hfields : (entries first).mapM readField = .ok (s.fields.filter fun f => f.text ≠ "") := by
    rw [hentries, entries_tabbed hunbroken]
    exact mapM_texts fun f hf => readField_text (h.part f hf)
  rw [parse_eq_ok, toList_text h.plain, cons_append, hline]
  constructor
  · rintro ⟨cs, columns, more, extras, hcs, hzones, hf, he, -, ho, -, -⟩
    cases hcs
    rw [hz] at hzones
    cases hzones
    rw [hfold, h.foldlM_further] at he
    rw [hfields] at hf
    rw [he.2] at ho
    have hsame := filter_eq_self.1 (Except.ok.inj hf)
    have hsame' := filter_eq_self.1 ho.symm
    exact ⟨fun f hf => of_decide_eq_true (hsame f hf), fun o ho => of_decide_eq_true (hsame' o ho)⟩
  · rintro ⟨hf, ho⟩
    have hsame := filter_eq_self.2 fun f hm => decide_eq_true (hf f hm)
    have hsame' := filter_eq_self.2 fun o hm => decide_eq_true (ho o hm)
    refine ⟨_, first, rest, ⟨s.order, s.size, []⟩, rfl, hz, by rw [hfields, hsame], ?_,
      h.consistent, rfl, rfl, h.plain⟩
    rw [hfold, h.foldlM_further, hsame']
    refine ⟨?_, rfl⟩
    cases hs : s.order with
    | nil => exact .inl rfl
    | cons o os => exact .inr ⟨o, mem_cons_self, ho o (by rw [hs]; exact mem_cons_self)⟩

/-- A description is read back from its header exactly if its names hold no marker and each of its
    entries is written as something. -/
theorem Regular.parse_text_iff (h : Regular s) :
    parse s.text = .ok s ↔ (∀ f ∈ s.fields, '#' ∉ f.name.toList) ∧
      ⟨"", .any⟩ ∉ s.fields ∧ ⟨"", .text, false⟩ ∉ s.order := by
  have hwritten : ((∀ f ∈ s.fields, f.text ≠ "") ∧ ∀ o ∈ s.order, o.text ≠ "") ↔
      ⟨"", .any⟩ ∉ s.fields ∧ ⟨"", .text, false⟩ ∉ s.order := by
    simp only [ne_eq, Field.text_eq_empty, Order.text_eq_empty, forall_mem_ne']
  rw [← hwritten]
  constructor
  · intro hp
    have hmark : ∀ f ∈ s.fields, '#' ∉ f.name.toList := by
      intro f hf hc
      obtain ⟨cs, hcs, hmeta⟩ := (parse_inv hp h.plain).2 ⟨f, hf, hc⟩
      -- the header goes on with a space after its first marker, never with the metadata
      rw [toList_text h.plain, cons_append, cons_append, ← singleton_append,
        dropEndWhile_append ['#'] (by decide)] at hcs
      cases hcs
      exact absurd hmeta (by simp [List.isPrefixOf])
    exact ⟨hmark, (h.parse_text_eq hmark).1 hp⟩
  · rintro ⟨hmark, hwritten⟩
    exact (h.parse_text_eq hmark).2 hwritten

/-- Reading a header undoes writing it, whatever the types, the sort order and the size, if the
    names are such that a header can hold them. -/
theorem parse_undoes_text {fields : List Field} {order : List Order} {s : Schema}
    (h : ofFields fields order = .ok s)
    (hnames : ∀ f ∈ fields, f.name ≠ "" ∧ ∀ c ∈ f.name.toList,
      isBlank c = false ∧ c ∉ [';', ',', ':', '#'])
    (size : Option Nat) (hsize : ∀ n ∈ size, n < 2 ^ 64) :
    parse { s with size }.text = .ok { s with size } := by
  obtain ⟨rfl, hstray⟩ := ofFields_ok h
  have hregular : Regular ⟨fields, order, size, []⟩ := by
    refine ⟨fun f hf => ⟨fun c hc => ?_, fun hc => ?_⟩, h, hsize, rfl⟩
    · obtain ⟨hb, hno⟩ := (hnames f hf).2 c hc
      simp only [List.mem_cons, not_or] at hno
      simp [isSeparator, hb, hno.1, hno.2.1]
    · exact ((hnames f hf).2 ':' hc).2 (by decide)
  refine hregular.parse_text_iff.2 ⟨fun f hf hc => ?_, fun hf => ?_, fun ho => ?_⟩
  · exact ((hnames f hf).2 '#' hc).2 (by decide)
  · exact (hnames _ hf).1 rfl
  · obtain ⟨f, hf, he⟩ := hstray _ ho
    exact (hnames f hf).1 he

/-- Two columns, one of them typed and with a name beyond ASCII. -/
def sizeAndLink : List Field := [⟨"größe", .int⟩, ⟨"link", .any⟩]

/-- An order by both, one as it goes without saying and one with all modifiers. -/
def linkThenSize : List Order := [⟨"link", .text, false⟩, ⟨"größe", .numeric, true⟩]

theorem parse_undoes_text_sizeAndLink :
    ofFields sizeAndLink linkThenSize = .ok ⟨sizeAndLink, linkThenSize, none, []⟩ ∧
      parse (⟨sizeAndLink, linkThenSize, some (2 ^ 64 - 1), []⟩ : Schema).text
        = .ok ⟨sizeAndLink, linkThenSize, some (2 ^ 64 - 1), []⟩ := by
  have h : ofFields sizeAndLink linkThenSize = .ok ⟨sizeAndLink, linkThenSize, none, []⟩ := rfl
  have hnames : ∀ f ∈ sizeAndLink, f.name ≠ "" ∧ (f.name.toList.all fun c =>
      isBlank c = false ∧ c ∉ [';', ',', ':', '#']) = true := by decide +kernel
  have hplain (f : Field) (hf : f ∈ sizeAndLink) : f.name ≠ "" ∧ ∀ c ∈ f.name.toList,
      isBlank c = false ∧ c ∉ [';', ',', ':', '#'] :=
    ⟨(hnames f hf).1, fun c hc => of_decide_eq_true (List.all_eq_true.1 (hnames f hf).2 c hc)⟩
  exact ⟨h, parse_undoes_text h hplain (some (2 ^ 64 - 1)) (by decide)⟩

/-- What a header describes survives being written and read once more exactly if no name holds a
    marker, which takes columns that start as the metadata do, and no entry says nothing: neither a
    column nor an entry of the sort order without a name, of which nothing else is said either. -/
theorem parse_text_of_parse {header : String} {s : Schema} (h : parse header = .ok s)
    (hplain : s.metadata = []) :
    parse s.text = .ok s ↔ (∀ f ∈ s.fields, '#' ∉ f.name.toList) ∧
      ⟨"", .any⟩ ∉ s.fields ∧ ⟨"", .text, false⟩ ∉ s.order :=
  (parse_inv h hplain).1.parse_text_iff

/-- A nameless column with a type stays, however it was set apart. -/
theorem parse_text_of_parse_nameless :
    parse "#a;,:int\n" = .ok ⟨[⟨"a", .any⟩, ⟨"", .int⟩], [], none, []⟩ ∧
      parse (⟨[⟨"a", .any⟩, ⟨"", .int⟩], [], none, []⟩ : Schema).text
        = .ok ⟨[⟨"a", .any⟩, ⟨"", .int⟩], [], none, []⟩ := by
  have h : parse "#a;,:int\n" = .ok ⟨[⟨"a", .any⟩, ⟨"", .int⟩], [], none, []⟩ :=
    parse_eq_ok.2 ⟨"a;,:int".toList, _, [], {}, rfl, zones_last (by decide), rfl, rfl, rfl, rfl, rfl,
      rfl⟩
  exact ⟨h, (parse_text_of_parse h rfl).2 (by decide)⟩

/-- A nameless column of which nothing is known is written as nothing, so the columns after it move
    up by one. -/
theorem nameless_column_lost :
    ∃ s, parse "# a :any b" = .ok s ∧ s.fields = [⟨"a", .any⟩, ⟨"", .any⟩, ⟨"b", .any⟩] ∧
      s.metadata = [] ∧ s.text = "# a\t\tb" ∧
        parse s.text = .ok ⟨[⟨"a", .any⟩, ⟨"b", .any⟩], [], none, []⟩ := by
  refine ⟨⟨[⟨"a", .any⟩, ⟨"", .any⟩, ⟨"b", .any⟩], [], none, []⟩, ?_, rfl, rfl, rfl, ?_⟩
  · exact parse_eq_ok.2 ⟨" a :any b".toList, _, [], {}, rfl, zones_last (by decide), rfl, rfl, rfl,
      rfl, rfl, rfl⟩
  · exact parse_eq_ok.2 ⟨" a\t\tb".toList, _, [], {}, rfl, zones_last (by decide), rfl, rfl, rfl,
      rfl, rfl, rfl⟩

end Schema

end RowAwk
