import RowAwk.Compile.RowProgram
import RowAwk.Proofs.Joining
import RowAwk.Proofs.Lower
import RowAwk.Proofs.Rereading

/-!
How statements are split over sources does not matter.

Places in a source are for the notes of failures alone: which awk expression a tree is lowered to,
which names are bound on the way and why it may fail, all that is the same wherever the tree stands.
So the sources of a program may as well be put together on lines of their own, the filters to one
source and the statements to another.

    filters  ["a > 1", "b"]  maps  ["x = a", "y = x; b"]
    filters  ["a > 1⏎b"]     maps  ["x = a⏎y = x; b"]
-/

namespace RowAwk.Compile

open Awk (Expr)
open Syntax (Stmt ReadAs)

/-! ### Failures without their notes -/

section

variable {α β : Type}

/-- A result, where a failure is no more than its error. -/
def unnoted (x : Except Failure α) : Except CompileError α := x.mapError Failure.error

theorem unnoted_bind (x : Except Failure α) (f : α → Except Failure β) :
    unnoted (x >>= f) = unnoted x >>= fun a => unnoted (f a) := by
  cases x <;> rfl

theorem unnoted_noting (note : String) (x : Except Failure α) :
    unnoted (noting note x) = unnoted x := by
  cases x <;> rfl

namespace Lower

/-- Two computations do the same, but for the notes of their failures. -/
def Alike (m m' : Lower α) : Prop := ∀ s, unnoted (m.run s) = unnoted (m'.run s)

theorem Alike.refl (m : Lower α) : Alike m m := fun _ => rfl

theorem Alike.symm {m m' : Lower α} (h : Alike m m') : Alike m' m := fun s => (h s).symm

theorem Alike.trans {m m' m'' : Lower α} (h : Alike m m') (h' : Alike m' m'') : Alike m m'' :=
  fun s => (h s).trans (h' s)

theorem Alike.bind {m m' : Lower α} {f g : α → Lower β} (h : Alike m m')
    (hf : ∀ a, Alike (f a) (g a)) : Alike (m >>= f) (m' >>= g) := by
  intro s
  rw [StateT.run_bind, StateT.run_bind, unnoted_bind, unnoted_bind, h s]
  exact bind_congr fun r => hf r.1 r.2

theorem alike_noting (note : String) (m : Lower α) : Alike (Lower.noting note m) m :=
  fun s => unnoted_noting note (m.run s)

theorem Alike.noting {m m' : Lower α} (h : Alike m m') (note note' : String) :
    Alike (Lower.noting note m) (Lower.noting note' m') :=
  (alike_noting note m).trans (h.trans (alike_noting note' m').symm)

theorem Alike.inRows {m m' : Lower α} (h : Alike m m') : Alike (inRows m) (inRows m') :=
  (Alike.refl _).bind fun _ => h.bind fun _ => .refl _

end Lower

end

open Lower (Alike alike_noting)

/-! ### Lowering does not look at places -/

namespace Lowering

open Syntax.Expr

theorem isEmpty_unplacedKeywords (ks : List (Syntax.KeywordArg Syntax.Expr)) :
    (unplacedKeywords ks).isEmpty = ks.isEmpty := by
  cases ks <;> rfl

theorem asName?_unplaced (e : Syntax.Expr) : e.unplaced.asName? = e.asName? := by
  cases e <;> rfl

theorem index_unplaced (e : Syntax.Expr) : index e.unplaced = index e := by
  cases e with
  | literal _ v => cases v <;> rfl
  | _ => exact congrArg (fun t => Lower.fail (.misuse (.computedIndex t))) (text_unplaced _)

theorem alike_notAList (op : Syntax.CompareOp) (e : Syntax.Expr) :
    Alike (Lower.fail (.misuse (.notAList op e.unplaced.text)) : Lower Expr)
      (Lower.fail (.misuse (.notAList op e.text))) := by
  rw [text_unplaced]
  exact .refl _

mutual

theorem lower_unplaced (category : Option Awk.Category) :
    ∀ e : Syntax.Expr, Alike (lower category e.unplaced) (lower category e)
  | .literal _ _ => .refl _
  | .name _ _ => .refl _
  | .tuple _ [] => .refl _
  | .tuple _ (e :: es) => by
    rw [unplaced, unplacedAll, lower, lower, ← unplacedAll]
    exact (lowerAll_unplaced category (e :: es)).bind fun _ => .refl _
  | .list span items => by
    rw [unplaced, lower, lower]
    exact (Alike.refl _).noting _ _
  | .call _ function args keywords => by
    rw [unplaced]
    unfold lower
    simp only [isEmpty_unplacedKeywords]
    split
    · split
      · exact (lowerAll_unplaced none args).inRows.bind fun _ => .refl _
      · exact .refl _
    · refine (lowerAll_unplaced _ args).bind fun _ => ?_
      split
      · exact (lowerKeywords_unplaced _ keywords).bind fun _ => .refl _
      · exact .refl _
  | .subscript _ base i => by
    rw [unplaced, lower, lower, index_unplaced]
    exact (lower_unplaced category base).bind fun _ => .refl _
  | .unary _ op operand => by
    rw [unplaced, lower, lower]
    exact (lower_unplaced category operand).bind fun _ => .refl _
  | .binary _ op lhs rhs => by
    rw [unplaced, lower, lower]
    exact (lower_unplaced category lhs).bind fun _ =>
      (lower_unplaced category rhs).bind fun _ => .refl _
  | .boolean _ op operands => by
    rw [unplaced, lower, lower]
    exact (lowerAll_unplaced category operands).bind fun _ => .refl _
  | .compare _ op lhs rhs => by
    rw [unplaced]
    unfold lower
    split
    · exact (lower_unplaced category lhs).bind fun _ =>
        (lower_unplaced category rhs).bind fun _ => .refl _
    · cases rhs with
      | list _ items | tuple _ items =>
        cases items with
        | nil => exact .refl _
        | cons item items =>
          exact (lower_unplaced category lhs).bind fun _ =>
            (lowerAll_unplaced category (item :: items)).bind fun _ => .refl _
      | _ => exact alike_notAList op _
  | .conditional _ test yes no => by
    rw [unplaced, lower, lower]
    exact (lower_unplaced category test).bind fun _ => (lower_unplaced category yes).bind fun _ =>
      (lower_unplaced category no).bind fun _ => .refl _

theorem lowerAll_unplaced (category : Option Awk.Category) :
    ∀ es : List Syntax.Expr, Alike (lowerAll category (unplacedAll es)) (lowerAll category es)
  | [] => .refl _
  | e :: es => by
    rw [unplacedAll, lowerAll, lowerAll]
    exact (lower_unplaced category e).bind fun _ =>
      (lowerAll_unplaced category es).bind fun _ => .refl _

theorem lowerKeywords_unplaced (category : Option Awk.Category) :
    ∀ ks : List (Syntax.KeywordArg Syntax.Expr),
      Alike (lowerKeywords category (unplacedKeywords ks)) (lowerKeywords category ks)
  | [] => .refl _
  | ⟨n, e⟩ :: ks => by
    rw [unplacedKeywords, lowerKeywords, lowerKeywords]
    exact (lower_unplaced category e).bind fun _ =>
      (lowerKeywords_unplaced category ks).bind fun _ => .refl _

end

theorem binding_unplaced (category : Option Awk.Category) (s : Stmt) :
    Alike (binding category s.unplaced) (binding category s) := by
  cases s with
  | assign target e => exact (lower_unplaced category e).bind fun _ => .refl _
  | value e =>
    simp only [Stmt.unplaced, binding, asName?_unplaced]
    split
    · exact (lower_unplaced category e).bind fun _ => .refl _
    · exact (Alike.refl _).noting _ _

theorem value_unplaced (s : Stmt) : Alike (value s.unplaced) (value s) := by
  cases s with
  | assign target e => exact (Alike.refl _).noting _ _
  | value e => exact lower_unplaced none e

end Lowering

/-! ### Statements are lowered one after the other -/

section

variable {α β γ : Type}

theorem Lower.Alike.forM {f : α → Lower Unit} {g : β → Lower Unit} {t : α → β}
    (h : ∀ a, Alike (f a) (g (t a))) (as : List α) : Alike (as.forM f) ((as.map t).forM g) := by
  induction as with
  | nil => exact .refl _
  | cons a as ih => exact (h a).bind fun _ => ih

theorem Lower.Alike.mapM {f : α → Lower γ} {g : β → Lower γ} {t : α → β}
    (h : ∀ a, Alike (f a) (g (t a))) (as : List α) : Alike (as.mapM f) ((as.map t).mapM g) := by
  induction as with
  | nil => exact .refl _
  | cons a as ih =>
    rw [List.map_cons, List.mapM_cons, List.mapM_cons]
    exact (h a).bind fun _ => ih.bind fun _ => .refl _

end

theorem parseSource_eq_ok {source : String} {stmts : List Stmt}
    (h : Stmt.parseAll source = .ok stmts) : parseSource source = .ok stmts := by
  rw [parseSource, h]

namespace RowProgram

variable (schema : Schema)

theorem bareName?_unplaced (s : Stmt) : bareName? s.unplaced = bareName? s := by
  cases s with
  | assign target e => rfl
  | value e => exact Lowering.asName?_unplaced e

theorem bindStatement_unplaced (source source' : String) (s : Stmt) :
    Alike (bindStatement schema source s) (bindStatement schema source' s.unplaced) := by
  unfold bindStatement
  rw [bareName?_unplaced]
  split
  · exact .refl _
  · split
    · exact .refl _
    · exact ((Lowering.binding_unplaced none s).symm.noting _ _).bind fun _ => .refl _

variable {maps filters filters' maps' : List String} {parts : List (List Stmt)}

/-- Binding the statements of some sources is binding them one after the other. -/
theorem bindSources_flatten (h : ReadAs maps parts) :
    Alike (maps.forM (bindSource schema))
      ((parts.flatten.map Stmt.unplaced).forM (bindStatement schema "")) := by
  induction h with
  | nil => exact .refl _
  | @cons source part maps parts hs hmore ih =>
    have hsource : Alike (bindSource schema source)
        ((part.map Stmt.unplaced).forM (bindStatement schema "")) := by
      rw [bindSource, parseSource_eq_ok hs]
      exact .forM (bindStatement_unplaced schema source "") part
    have hsplit (as bs : List Stmt) : (as ++ bs).forM (bindStatement schema "") = (do
        as.forM (bindStatement schema "")
        bs.forM (bindStatement schema "")) := List.forM_append
    rw [List.flatten_cons, List.map_append, hsplit]
    exact hsource.bind fun _ => ih

/-- So are the conditions of some sources of filters. -/
theorem conditions_flatten (h : ReadAs filters parts) :
    Alike (List.flatten <$> filters.mapM conditions)
      ((parts.flatten.map Stmt.unplaced).mapM Lowering.value) := by
  induction h with
  | nil => exact .refl _
  | @cons source part filters parts hs hmore ih =>
    have hsource : Alike (conditions source) ((part.map Stmt.unplaced).mapM Lowering.value) := by
      rw [conditions, parseSource_eq_ok hs]
      exact .mapM (fun s => (alike_noting _ _).trans (Lowering.value_unplaced s).symm) part
    have hsplit : List.flatten <$> (source :: filters).mapM conditions = (do
        let tests ← conditions source
        let more ← List.flatten <$> filters.mapM conditions
        return tests ++ more) := by
      simp only [List.mapM_cons, map_eq_pure_bind, bind_assoc, pure_bind, List.flatten_cons]
    rw [hsplit, List.flatten_cons, List.map_append, List.mapM_append]
    exact hsource.bind fun _ => ih.bind fun _ => .refl _

/-- Sources of the same statements, wherever they stand, are lowered alike. -/
theorem lowerAll_alike {tests tests' stmts stmts' : List (List Stmt)} (hf : ReadAs filters tests)
    (hf' : ReadAs filters' tests') (hm : ReadAs maps stmts) (hm' : ReadAs maps' stmts')
    (htests : tests.flatten.map Stmt.unplaced = tests'.flatten.map Stmt.unplaced)
    (hstmts : stmts.flatten.map Stmt.unplaced = stmts'.flatten.map Stmt.unplaced)
    (hne : maps.isEmpty = false) (hne' : maps'.isEmpty = false) :
    Alike (lowerAll schema filters maps) (lowerAll schema filters' maps') := by
  have hbound := (bindSources_flatten schema hm).trans
    (hstmts ▸ (bindSources_flatten schema hm').symm)
  have hconditions := (conditions_flatten hf).trans (htests ▸ (conditions_flatten hf').symm)
  have hshape (fs ms : List String) (h : ms.isEmpty = false) : lowerAll schema fs ms = (do
      ms.forM (bindSource schema)
      let tests ← List.flatten <$> fs.mapM conditions
      return conjunction tests) := by
    simp [lowerAll, h]
  rw [hshape filters maps hne, hshape filters' maps' hne']
  exact hbound.bind fun _ => hconditions.bind fun _ => .refl _

theorem compile_alike (h : Alike (lowerAll schema filters maps) (lowerAll schema filters' maps')) :
    unnoted (compile schema filters maps) = unnoted (compile schema filters' maps') := by
  unfold compile
  rw [unnoted_bind, unnoted_bind, h]

end RowProgram

theorem exists_readAs {sources : List String}
    (h : ∀ source ∈ sources, ∃ stmts, Stmt.parseAll source = .ok stmts) :
    ∃ parts, ReadAs sources parts := by
  induction sources with
  | nil => exact ⟨[], .nil⟩
  | cons source sources ih =>
    obtain ⟨⟨stmts, hs⟩, hmore⟩ := List.forall_mem_cons.1 h
    obtain ⟨parts, hp⟩ := ih hmore
    exact ⟨stmts :: parts, .cons hs hp⟩

/-- Two sources on lines of their own are read one after the other, and each statement is found so
    many bytes further on. And a program is the same, or fails for the same reason, if its filters
    are put together to one source, and its statements to another. -/
theorem RowProgram.sources_may_be_joined :
    (∀ (source other : String) (stmts more : List Stmt),
      Stmt.parseAll source = .ok stmts → Stmt.parseAll other = .ok more →
        Stmt.parseAll (source ++ "\n" ++ other) =
          .ok (stmts ++ more.map (Stmt.shift (source.utf8ByteSize + 1)))) ∧
    ∀ (schema : Schema) (filters maps : List String), maps ≠ [] →
      (∀ source ∈ filters ++ maps, ∃ stmts, Stmt.parseAll source = .ok stmts) →
        unnoted (compile schema filters maps) =
          unnoted (compile schema ["\n".intercalate filters] ["\n".intercalate maps]) := by
  refine ⟨fun source other stmts more hs ho => Syntax.parseAll_lines hs ho,
    fun schema filters maps hne h => ?_⟩
  rw [List.forall_mem_append] at h
  obtain ⟨tests, hf⟩ := exists_readAs h.1
  obtain ⟨parts, hm⟩ := exists_readAs h.2
  obtain ⟨found, hfound, htests⟩ := Syntax.parseAll_intercalate hf
  obtain ⟨bound, hbound, hstmts⟩ := Syntax.parseAll_intercalate hm
  refine RowProgram.compile_alike schema (RowProgram.lowerAll_alike schema hf (.cons hfound .nil) hm
    (.cons hbound .nil) ?_ ?_ (List.isEmpty_eq_false_iff.2 hne) rfl)
  · rw [List.flatten_singleton, htests]
  · rw [List.flatten_singleton, hstmts]

/-- Two columns of numbers, for an example. -/
def RowProgram.twoNumbers : Schema := ⟨[⟨"a", .int⟩, ⟨"b", .int⟩], [], none, []⟩

/-- A call broken in the middle with a comment in it, and two filters. -/
theorem RowProgram.sources_may_be_joined_brokenCall :
    ∃ stmts more c,
      Stmt.parseAll "x = max(a, # the larger\n b)" = .ok stmts ∧
      Stmt.parseAll "y = x; b # last" = .ok more ∧
      Stmt.parseAll "x = max(a, # the larger\n b)\ny = x; b # last" =
        .ok (stmts ++ more.map (Stmt.shift 28)) ∧
      compile twoNumbers ["a > 1", "(b\n< 2)"] ["x = max(a, # the larger\n b)", "y = x; b # last"] =
        .ok c ∧
      unnoted (compile twoNumbers ["a > 1\n(b\n< 2)"]
        ["x = max(a, # the larger\n b)\ny = x; b # last"]) = .ok c := by
  obtain ⟨stmts, hs⟩ := exists_eq_ok (x := Stmt.parseAll "x = max(a, # the larger\n b)")
    (by decide +kernel)
  obtain ⟨more, hm⟩ := exists_eq_ok (x := Stmt.parseAll "y = x; b # last") (by decide +kernel)
  obtain ⟨test, ht⟩ := exists_eq_ok (x := Stmt.parseAll "a > 1") (by decide +kernel)
  obtain ⟨test', ht'⟩ := exists_eq_ok (x := Stmt.parseAll "(b\n< 2)") (by decide +kernel)
  obtain ⟨c, hc⟩ := exists_eq_ok (x := compile twoNumbers ["a > 1", "(b\n< 2)"]
    ["x = max(a, # the larger\n b)", "y = x; b # last"]) (by decide +kernel)
  obtain ⟨hread, hsame⟩ := sources_may_be_joined
  have hlines : "x = max(a, # the larger\n b)" ++ "\n" ++ "y = x; b # last" =
      "x = max(a, # the larger\n b)\ny = x; b # last" := by decide +kernel
  have hsize : "x = max(a, # the larger\n b)".utf8ByteSize + 1 = 28 := by decide +kernel
  have hstmts := hread _ _ stmts more hs hm
  rw [hlines, hsize] at hstmts
  have hcompile := hsame twoNumbers ["a > 1", "(b\n< 2)"]
    ["x = max(a, # the larger\n b)", "y = x; b # last"] (by simp) (by simp [hs, hm, ht, ht'])
  have htests : "\n".intercalate ["a > 1", "(b\n< 2)"] = "a > 1\n(b\n< 2)" := by decide +kernel
  have hmaps : "\n".intercalate ["x = max(a, # the larger\n b)", "y = x; b # last"] =
      "x = max(a, # the larger\n b)\ny = x; b # last" := by decide +kernel
  rw [hc, htests, hmaps] at hcompile
  exact ⟨stmts, more, c, hs, hm, hstmts, hc, hcompile.symm⟩

end RowAwk.Compile
