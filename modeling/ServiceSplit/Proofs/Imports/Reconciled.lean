import Mathlib.Data.List.Basic
import ServiceSplit.Imports
import ServiceSplit.Proofs.Tree.Nodes

/-!
# Imports in line with the text

What bringing the imports of a file in line with its text comes to: which packages are imported
then, in which order, and that doing it once more changes nothing. An import counts as its path and
its alias; comments above it and its place do not matter.

## Main definitions

* `File.RefersTo`: a qualified name of a package stands somewhere in the declarations of a file.
* `File.Reconciled`: what the imports of a file are to be.

## Main results

* `File.refersTo_iff`: the packages that are collected are those that the file refers to.
* `File.reconciled_reconcileImports`: every file gets the imports it is to have.
-/

namespace ServiceSplit

open ImportSpec

/-! ### Repetitions -/

/-- Two imports give the same package the same name. -/
def ImportSpec.Repeats (a b : ImportSpec) : Prop :=
  a.path = b.path ∧ a.alias? = b.alias?

theorem dropRepeated_sublist (imports : List ImportSpec) :
    (dropRepeated imports).Sublist imports := by
  induction imports with
  | nil => exact List.Sublist.refl _
  | cons a rest ih =>
    rw [dropRepeated]
    split
    · exact (List.nil_sublist rest).cons_cons a
    · rename_i b more hrest
      rw [hrest] at ih
      split
      · exact ((List.sublist_cons_self b more).trans ih).cons_cons a
      · exact ih.cons_cons a

/-- An import that is dropped repeats one that stays. -/
theorem exists_repeats_of_mem {imports : List ImportSpec} {i : ImportSpec} (h : i ∈ imports) :
    ∃ j ∈ dropRepeated imports, i.Repeats j := by
  induction imports with
  | nil => cases h
  | cons a rest ih =>
    rw [dropRepeated]
    rcases List.mem_cons.mp h with rfl | h
    · split
      · exact ⟨i, List.mem_cons_self, rfl, rfl⟩
      · split <;> exact ⟨i, List.mem_cons_self, rfl, rfl⟩
    · obtain ⟨j, hj, hij⟩ := ih h
      split
      · rename_i hnil
        rw [hnil] at hj
        cases hj
      · rename_i b more hrest
        rw [hrest] at hj
        split
        · rename_i hsame
          simp only [Bool.and_eq_true, beq_iff_eq] at hsame
          rcases List.mem_cons.mp hj with rfl | hj
          · exact ⟨a, List.mem_cons_self, hij.1.trans hsame.1.symm, hij.2.trans hsame.2.symm⟩
          · exact ⟨j, List.mem_cons_of_mem a hj, hij⟩
        · exact ⟨j, List.mem_cons_of_mem a hj, hij⟩

/-- No import that stays repeats the one behind it. -/
theorem isChain_dropRepeated (imports : List ImportSpec) :
    (dropRepeated imports).IsChain fun a b => ¬ a.Repeats b := by
  induction imports with
  | nil => exact .nil
  | cons a rest ih =>
    rw [dropRepeated]
    split
    · exact .singleton a
    · rename_i b more hrest
      rw [hrest] at ih
      split
      · rename_i hsame
        simp only [Bool.and_eq_true, beq_iff_eq] at hsame
        cases more with
        | nil => exact .singleton a
        | cons d more =>
          obtain ⟨hbd, htail⟩ := List.isChain_cons_cons.mp ih
          exact List.isChain_cons_cons.mpr
            ⟨fun had => hbd ⟨hsame.1.symm.trans had.1, hsame.2.symm.trans had.2⟩, htail⟩
      · rename_i hsame
        exact List.isChain_cons_cons.mpr ⟨fun hab => hsame (by simp [hab.1, hab.2]), ih⟩

theorem dropRepeated_eq_self {imports : List ImportSpec}
    (h : imports.IsChain fun a b => ¬ a.Repeats b) : dropRepeated imports = imports := by
  induction imports with
  | nil => rfl
  | cons a rest ih =>
    cases rest with
    | nil => rfl
    | cons b more =>
      obtain ⟨hab, hrest⟩ := List.isChain_cons_cons.mp h
      rw [dropRepeated, ih hrest]
      exact if_neg fun hsame => hab (by simpa [Repeats] using hsame)

/-! ### Required paths -/

/-- The import is one of the list, up to its comments and its place. -/
def ImportSpec.Among (imports : List ImportSpec) (path : String) (alias? : Option String) : Prop :=
  ∃ i ∈ imports, i.path = path ∧ i.alias? = alias?

theorem among_requireImport {imports : List ImportSpec} {required path : String}
    {alias? : Option String} :
    Among (requireImport imports required) path alias? ↔
      Among imports path alias? ∨ (path = required ∧ alias? = none) := by
  unfold requireImport
  split
  · rename_i hany
    obtain ⟨i, hi, hsame⟩ := List.any_eq_true.mp hany
    simp only [Bool.and_eq_true, beq_iff_eq, Option.isNone_iff_eq_none] at hsame
    refine ⟨Or.inl, ?_⟩
    rintro (h | ⟨rfl, rfl⟩)
    · exact h
    · exact ⟨i, hi, hsame⟩
  · constructor
    · rintro ⟨i, hi, rfl, rfl⟩
      rcases List.mem_append.mp hi with hi | hi
      · exact .inl ⟨i, hi, rfl, rfl⟩
      · cases List.mem_singleton.mp hi
        exact .inr ⟨rfl, rfl⟩
    · rintro (⟨i, hi, rfl, rfl⟩ | ⟨rfl, rfl⟩)
      · exact ⟨i, List.mem_append_left _ hi, rfl, rfl⟩
      · exact ⟨made path, by simp, rfl, rfl⟩

theorem among_foldl_requireImport {required : List String} {imports : List ImportSpec}
    {path : String} {alias? : Option String} :
    Among (required.foldl requireImport imports) path alias? ↔
      Among imports path alias? ∨ (path ∈ required ∧ alias? = none) := by
  induction required generalizing imports with
  | nil => simp
  | cons r required ih =>
    rw [List.foldl_cons, ih, among_requireImport, List.mem_cons]
    tauto

/-- Requiring paths again adds no import that is kept. -/
theorem filter_foldl_requireImport {used required : List String} {imports : List ImportSpec}
    (h : ∀ path ∈ required, (made path).isUsed used = true → Among imports path none) :
    (required.foldl requireImport imports).filter (isUsed used) =
      imports.filter (isUsed used) := by
  induction required generalizing imports with
  | nil => rfl
  | cons path required ih =>
    rw [List.forall_mem_cons] at h
    rw [List.foldl_cons, ih fun p hp hused => among_requireImport.mpr (.inl (h.2 p hp hused))]
    unfold requireImport
    split
    · rfl
    · rename_i hnone
      have hunused : ¬ (made path).isUsed used = true := by
        intro hused
        obtain ⟨i, hi, hsame⟩ := h.1 hused
        exact hnone (List.any_eq_true.mpr ⟨i, hi, by simp [hsame.1, hsame.2]⟩)
      simp [hunused]

/-! ### Reconciled files -/

/-- The node is a selector `name.x` or the name of a type `name.T`. -/
def SyntaxNode.IsQualifiedBy (name : String) : SyntaxNode → Prop
  | part (.expr _ (.selector (.ident base) _ _)) => base.name = name
  | type (.name pkg _ _) => pkg = some name
  | _ => False

/-- A qualified name of the package stands in the declarations of a file, in an expression or in a
type, at any depth. -/
def File.RefersTo (file : File) (name : String) : Prop :=
  ∃ d ∈ file.decls, ∃ n, d.Contains n ∧ n.IsQualifiedBy name

private theorem Event.qualifier?_eq_some {e : Event} {name : String} :
    e.qualifier? = some name ↔ ∃ n, e.node? = some n ∧ n.IsQualifiedBy name := by
  constructor
  · intro h
    unfold Event.qualifier? at h
    split at h
    · exact ⟨_, rfl, Option.some.inj h⟩
    · exact ⟨_, rfl, h⟩
    · cases h
  · rintro ⟨n, hn, h⟩
    unfold SyntaxNode.IsQualifiedBy at h
    split at h
    · cases e <;> cases hn
      exact congrArg some h
    · cases e <;> cases hn
      exact h
    · cases h

theorem mem_insertSorted {name added : String} {names : List String} :
    name ∈ insertSorted added names ↔ name = added ∨ name ∈ names := by
  induction names with
  | nil => simp [insertSorted]
  | cons n names ih =>
    rw [insertSorted]
    split
    · simp
    · split
      · rename_i heq
        simp [heq]
      · simp only [List.mem_cons, ih]
        tauto

/-- The packages that a file refers to are those of its qualified names. -/
theorem File.mem_qualifiers {file : File} {name : String} :
    name ∈ file.qualifiers ↔ name ∈ (file.events {}).filterMap Event.qualifier? := by
  have hfold : ∀ names found : List String,
      name ∈ names.foldl (fun found q => insertSorted q found) found ↔
        name ∈ names ∨ name ∈ found := by
    intro names
    induction names with
    | nil => simp
    | cons n names ih =>
      intro found
      rw [List.foldl_cons, ih, mem_insertSorted, List.mem_cons]
      tauto
  rw [File.qualifiers, hfold]
  simp

/-- The packages that are collected are those that the file refers to. -/
theorem File.refersTo_iff {file : File} {name : String} :
    file.RefersTo name ↔ name ∈ file.qualifiers :=
  (File.mem_qualifiers.trans
    (Decl.mem_filterMap_events fun _ => Event.qualifier?_eq_some)).symm

/-- The file refers to what is imported under this path and alias, or the import is blank or a
dot. -/
def File.Needs (file : File) (path : String) (alias? : Option String) : Prop :=
  let name := (ImportSpec.mk alias? path [] .synthetic).localName
  name = "_" ∨ name = "." ∨ file.RefersTo name

theorem isUsed_qualifiers_iff {file : File} {i : ImportSpec} :
    i.isUsed file.qualifiers = true ↔ file.Needs i.path i.alias? := by
  have hname : (ImportSpec.mk i.alias? i.path [] .synthetic).localName = i.localName := rfl
  simp [isUsed, File.Needs, hname, File.refersTo_iff, or_assoc]

/-- The imports of `result` are those of `file` that its text needs and those that are required for
it, in order, and nothing else is different. -/
structure File.Reconciled (file : File) (required : List String) (result : File) : Prop where
  unchanged : result = { file with imports := result.imports }
  sorted : result.imports.Pairwise fun a b => a.path ≤ b.path
  among_iff : ∀ path alias?, Among result.imports path alias? ↔
    (Among file.imports path alias? ∨ (path ∈ required ∧ alias? = none)) ∧ file.Needs path alias?
  again : result.reconcileImports required = result

private theorem among_reconcileImports (file : File) (required : List String) (path : String)
    (alias? : Option String) :
    Among (file.reconcileImports required).imports path alias? ↔
      (Among file.imports path alias? ∨ (path ∈ required ∧ alias? = none)) ∧
        file.Needs path alias? := by
  rw [← among_foldl_requireImport]
  constructor
  · rintro ⟨i, hi, rfl, rfl⟩
    have hi := List.mem_filter.mp (List.mem_mergeSort.mp ((dropRepeated_sublist _).subset hi))
    exact ⟨⟨i, hi.1, rfl, rfl⟩, isUsed_qualifiers_iff.mp hi.2⟩
  · rintro ⟨⟨i, hi, rfl, rfl⟩, hneeds⟩
    have hkept := List.mem_filter.mpr ⟨hi, isUsed_qualifiers_iff.mpr hneeds⟩
    obtain ⟨j, hj, hij⟩ := exists_repeats_of_mem (List.mem_mergeSort.mpr hkept)
    exact ⟨j, hj, hij.1.symm, hij.2.symm⟩

theorem File.reconciled_reconcileImports (file : File) (required : List String) :
    file.Reconciled required (file.reconcileImports required) := by
  have hsorted : (file.reconcileImports required).imports.Pairwise fun a b => a.path ≤ b.path := by
    refine List.Pairwise.sublist (dropRepeated_sublist _) ?_
    have h := @List.pairwise_mergeSort _ (fun a b : ImportSpec => decide (a.path ≤ b.path))
      (fun a b c hab hbc => by
        simp only [decide_eq_true_eq] at hab hbc ⊢
        exact String.le_trans hab hbc)
      (fun a b => by simpa using String.le_total a.path b.path)
      ((required.foldl requireImport file.imports).filter (isUsed file.qualifiers))
    exact h.imp fun hle => of_decide_eq_true hle
  have hused : ∀ i ∈ (file.reconcileImports required).imports, i.isUsed file.qualifiers = true :=
    fun i hi => (List.mem_filter.mp (List.mem_mergeSort.mp ((dropRepeated_sublist _).subset hi))).2
  have hrequired : ∀ path ∈ required, (made path).isUsed file.qualifiers = true →
      Among (file.reconcileImports required).imports path none := fun path hpath h =>
    (among_reconcileImports file required path none).mpr
      ⟨.inr ⟨hpath, rfl⟩, isUsed_qualifiers_iff.mp h⟩
  refine ⟨rfl, hsorted, among_reconcileImports file required, ?_⟩
  -- The declarations are the same, so the same imports are needed, and they stand in order already.
  have hagain : dropRepeated (((required.foldl requireImport
      (file.reconcileImports required).imports).filter (isUsed file.qualifiers)).mergeSort
        fun a b => decide (a.path ≤ b.path)) = (file.reconcileImports required).imports := by
    rw [filter_foldl_requireImport hrequired, List.filter_eq_self.mpr hused,
      List.mergeSort_of_pairwise (hsorted.imp fun hle => decide_eq_true hle)]
    exact dropRepeated_eq_self (isChain_dropRepeated _)
  exact congrArg (fun imports => { file with imports }) hagain

end ServiceSplit
