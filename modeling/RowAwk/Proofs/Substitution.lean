import RowAwk.Awk.Program
import RowAwk.Proofs.Filling
import RowAwk.Proofs.Tokens

/-!
Templates are filled in at once.

A template has one decomposition from the left, into holes for the name and for arguments and into
single characters. It is found before anything is filled in, so neither a name nor an argument can
make or break a hole, whatever it holds:

    {var}={{arg0}}{arg7}        with  v  and  {var}        v={{var}}{arg7}
    └name┘ └──┬──┘ └──┬─┘
          argument  argument that is not there
-/

namespace RowAwk.Awk

namespace Template

/-- A template cut from the left: a hole where one stands, and a character elsewhere. -/
inductive Cut : List Char → List Part → Prop
  | nil : Cut [] []
  | name {rest ps} : Cut rest ps → Cut (nameHole ++ rest) (.name :: ps)
  | argument {digits index rest ps} : Number.WritesWord digits index → Cut rest ps →
      Cut (argumentHole ++ digits ++ ['\x7d'] ++ rest)
        (.argument index (argumentHole ++ digits ++ ['\x7d']) :: ps)
  | char {c rest ps} : ¬ nameHole <+: c :: rest →
      (∀ digits index, Number.WritesWord digits index →
        ¬ argumentHole ++ digits ++ ['\x7d'] <+: c :: rest) →
      Cut rest ps → Cut (c :: rest) (.char c :: ps)

/-- What takes the place of a part: the name, the text of an argument that is there, and the part as
    it is written for one that is not. -/
inductive Filled (name : String) (args : List Expr) : Part → String → Prop
  | name : Filled name args .name name
  | argument {index spelling a} : args[index]? = some a →
      Filled name args (.argument index spelling) a.text
  | missing {index spelling} : args.length ≤ index →
      Filled name args (.argument index spelling) (String.ofList spelling)
  | char {c} : Filled name args (.char c) (String.singleton c)

theorem cut_parts (cs : List Char) : Cut cs (parts cs) := by
  induction cs using parts_induction with
  | nil =>
    rw [parts]
    exact .nil
  | hole rest hh ih =>
    rw [parts_hole hh]
    cases hh with
    | name => exact .name ih
    | argument hd => exact .argument (Number.word64OfDigits?_eq_some_iff.1 hd) ih
  | char cs hn ih =>
    rw [parts_char hn]
    refine .char ?_ (fun digits index hd => ?_) ih
    · rintro ⟨rest, he⟩
      exact hn _ _ rest .name he.symm
    · rintro ⟨rest, he⟩
      exact hn _ _ rest (.argument (Number.word64OfDigits?_eq_some_iff.2 hd)) he.symm

theorem Cut.eq_parts {cs : List Char} {ps : List Part} (h : Cut cs ps) : ps = parts cs := by
  induction h with
  | nil => rw [parts]
  | name _ ih => rw [parts_hole .name, ih]
  | argument hd _ ih => rw [parts_hole (.argument (Number.word64OfDigits?_eq_some_iff.2 hd)), ih]
  | char hname hargument _ ih =>
    rw [parts_char, ih]
    intro h p rest hh he
    cases hh with
    | name => exact hname ⟨rest, he.symm⟩
    | argument hd => exact hargument _ _ (Number.word64OfDigits?_eq_some_iff.1 hd) ⟨rest, he.symm⟩

theorem exists_filled (name : String) (args : List Expr) (p : Part) :
    ∃ t, Filled name args p t ∧
      t.toList = p.fill name.toList ((Expr.texts args).map String.toList) := by
  cases p with
  | name => exact ⟨name, .name, rfl⟩
  | argument index spelling =>
    rw [Part.fill, Expr.texts_eq_map, List.map_map, List.getD_eq_getElem?_getD, List.getElem?_map]
    cases ha : args[index]? with
    | some a => exact ⟨a.text, .argument ha, rfl⟩
    | none => exact ⟨_, .missing (List.getElem?_eq_none_iff.1 ha), String.toList_ofList⟩
  | char c => exact ⟨_, .char, String.toList_singleton c⟩

/-- Parts are filled in one by one. -/
theorem exists_allFilled (name : String) (args : List Expr) (ps : List Part) :
    ∃ texts, List.Forall₂ (Filled name args) ps texts ∧ (String.join texts).toList
      = ps.flatMap (Part.fill name.toList ((Expr.texts args).map String.toList)) := by
  induction ps with
  | nil => exact ⟨[], .nil, rfl⟩
  | cons p ps ih =>
    obtain ⟨t, ht, hfill⟩ := exists_filled name args p
    obtain ⟨texts, htexts, hjoin⟩ := ih
    refine ⟨t :: texts, .cons ht htexts, ?_⟩
    rw [String.join_cons, String.toList_append, hfill, hjoin, List.flatMap_cons]

end Template

open Template in
/-- A template has one decomposition from the left, which no name and no arguments change, and is
    filled in part by part. -/
theorem Fold.expand_substitutes_at_once (template : String) :
    ∃ ps, Cut template.toList ps ∧ (∀ qs, Cut template.toList qs → qs = ps) ∧
      ∀ f : Fold, ∃ texts, List.Forall₂ (Filled f.accumulator.name f.args) ps texts ∧
        f.expand template = String.join texts := by
  refine ⟨_, cut_parts template.toList, fun qs hqs => hqs.eq_parts, fun f => ?_⟩
  obtain ⟨texts, htexts, hjoin⟩ :=
    exists_allFilled f.accumulator.name f.args (Template.parts template.toList)
  refine ⟨texts, htexts, ?_⟩
  rw [Fold.expand, Template.expand, ← hjoin, String.ofList_toList]

end RowAwk.Awk
