import MonoTap.Proofs.InsertedImports

/-!
# Ensured imports

The names that are asked for can be used after the edits: each is covered by the imports, or the package, of the
new text. Nothing that was there is lost for it. The package and the imports are still declared and the package
still comes first, the comments keep their texts, and a byte order mark stays where it is.
-/

set_option autoImplicit false

namespace MonoTap.Java

open Imports (Registration Table importCovers qualifierOf)
open Text (Source encode)

variable {text : String} {name : String} {u v : CompilationUnit} {p : PackageDeclaration}

/-- The package of a unit comes before its imports. -/
def CompilationUnit.PackageFirst (u : CompilationUnit) : Prop :=
  ∀ p ∈ u.package, ∀ d ∈ u.imports, p.stop ≤ d.start

instance (u : CompilationUnit) : Decidable u.PackageFirst :=
  inferInstanceAs (Decidable (∀ p ∈ u.package, _))

/-! ### Covered names -/

/-- An import, as it is written, makes a name known. -/
def WrittenImport.Covers (name : String) (w : WrittenImport) : Prop :=
  w.isStatic = false ∧ w.name = if w.isWildcard then String.ofList (qualifierOf name.toList) else name

theorem plainImport_covers (name : String) : (plainImport name).Covers name :=
  ⟨rfl, rfl⟩

theorem covers_iff_written : (Table.ofUnit u).covers name = true ↔
    String.ofList (qualifierOf name.toList) = (Table.ofUnit u).packageName ∨
      String.ofList (qualifierOf name.toList) = "java.lang" ∨ ∃ w ∈ u.writtenImports, w.Covers name := by
  have each (d : ImportDeclaration) : importCovers (String.ofList (qualifierOf name.toList)) name d = true ↔
      (d.written u.source).Covers name := by
    rw [importCovers, Bool.and_eq_true, Bool.not_eq_true', beq_iff_eq]
    rfl
  have some : (∃ w ∈ u.writtenImports, w.Covers name) ↔
      ∃ d ∈ u.imports, importCovers (String.ofList (qualifierOf name.toList)) name d = true := by
    simp only [CompilationUnit.writtenImports, List.mem_map, exists_exists_and_eq_and, each]
  rw [some, Table.covers, Bool.or_eq_true, Bool.or_eq_true, beq_iff_eq, beq_iff_eq, List.any_eq_true, or_assoc]
  rfl

/-- A name stays covered where the package keeps its name and no import is lost. -/
theorem covers_of_sublist (package : v.package.map (·.name) = u.package.map (·.name))
    (kept : u.writtenImports.Sublist v.writtenImports) (covered : (Table.ofUnit u).covers name = true) :
    (Table.ofUnit v).covers name = true := by
  have packageName : (Table.ofUnit v).packageName = (Table.ofUnit u).packageName :=
    congrArg (·.getD "") package
  rw [covers_iff_written] at covered ⊢
  rw [packageName]
  exact covered.imp_right (Or.imp_right fun ⟨w, hw, covers⟩ => ⟨w, kept.subset hw, covers⟩)

/-! ### The package and the places of the imports -/

section

variable (clean : (CompilationUnit.ofString text).hasSyntaxErrors = false)
  (found : (CompilationUnit.ofString text).package = some p)
  (first : ∀ d ∈ (CompilationUnit.ofString text).imports, p.stop ≤ d.start)
include clean found first

/-- The package comes before the place where imports are put in together. -/
theorem stop_le_blockPlace : p.stop ≤ (Table.ofUnit (CompilationUnit.ofString text)).blockPlace := by
  rw [Table.blockPlace, Table.ofUnit]
  dsimp only
  cases final : (CompilationUnit.ofString text).imports.getLast? with
  | some last =>
    obtain ⟨earlier, split⟩ := List.getLast?_eq_some_iff.1 final
    have wide := (imports_in_order clean split).1
    have := first last (List.mem_of_getLast? final)
    dsimp only
    omega
  | none =>
    rw [found]
    exact Nat.le_refl _

/-- The package comes before the place of a name among sorted imports. -/
theorem stop_le_sortedPlace {offset count : Nat}
    (alone : ∀ d ∈ (CompilationUnit.ofString text).imports, (Source.ofString text).BeginsLine d.start)
    (place : SortedPlace (Source.ofString text) (CompilationUnit.ofString text).imports name offset count) :
    p.stop ≤ offset := by
  cases place with
  | @before earlier later next split =>
    have mem : next ∈ (CompilationUnit.ofString text).imports :=
      split ▸ List.mem_append_right _ List.mem_cons_self
    obtain ⟨nodes, reads, _, package⟩ := exists_nodes_of_clean clean
    obtain ⟨n, hn, is, stop⟩ := package p found
    have top : n ∈ (parse text.toList).children := by
      rw [parse_of_complete (complete?_eq_some_iff.2 reads)]
      exact List.mem_append_left _ hn
    have solid := (Node.belongs_of_mem_parse clean top).spans
    rw [← stop] at solid
    exact stop_le_lineStart clean split (alone next mem) solid (first next mem)
  | @after earlier later last split =>
    have wide := (imports_in_order clean split).1
    have := first last (split ▸ List.mem_append_right _ List.mem_cons_self)
    omega

end

/-- All names that are asked for are covered after the edits, and the text keeps its package, its imports, its
comments and its mark, if sorted imports begin their lines and no byte order mark stands before a text without
declarations. -/
theorem ensured_imports_are_declared (text : String) (names : List String)
    (clean : (CompilationUnit.ofString text).hasSyntaxErrors = false)
    (alone : (Table.ofUnit (CompilationUnit.ofString text)).IsSorted →
      ∀ d ∈ (CompilationUnit.ofString text).imports, (Source.ofString text).BeginsLine d.start)
    (unmarked : ¬ OpensWithMark text)
    (qualified : ∀ name ∈ names, (Table.ofUnit (CompilationUnit.ofString text)).covers name = false →
      isQualifiedName name = true) :
    let u := CompilationUnit.ofString text
    ∃ result,
      Text.applyEdits u.source.toBytes
          (((Registration.start (Table.ofUnit u)).ensureAll names).edits u.source) = .ok (encode result) ∧
      let after := CompilationUnit.ofString result
      after.hasSyntaxErrors = false ∧
      (∀ name ∈ names, (Table.ofUnit after).covers name = true) ∧
      after.package.map (·.name) = u.package.map (·.name) ∧
      u.writtenImports.Sublist after.writtenImports ∧
      (u.PackageFirst → after.PackageFirst) ∧
      after.commentTexts = u.commentTexts ∧
      isMarked result.toList = isMarked text.toList := by
  intro u
  obtain ⟨result, added, edited⟩ := exists_edited text names clean alone qualified
  have kept := edited.undisturbed unmarked 0 (Nat.zero_le _) fun _ _ _ _ _ => Nat.zero_le _
  refine ⟨result, edited.made, kept.clean, fun name hn => ?_, kept.package, edited.kept, fun order => ?_,
    kept.comments, kept.marked⟩
  · cases covered : (Table.ofUnit u).covers name with
    | true => exact covers_of_sublist kept.package edited.kept covered
    | false =>
      have mem := List.mem_map_of_mem (f := plainImport) ((edited.member name).2 ⟨hn, covered⟩)
      exact covers_iff_written.2 (.inr (.inr ⟨_, edited.all.mem_iff.2 (List.mem_append_left _ mem),
        plainImport_covers name⟩))
  · cases found : u.package with
    | none =>
      intro p here
      have same := kept.package
      rw [found, Option.mem_def.1 here] at same
      cases same
    | some p =>
      have first := order p found
      have block := stop_le_blockPlace clean found first
      obtain ⟨still, last⟩ := (edited.undisturbed unmarked p.stop block fun sorted _ _ _ place =>
        stop_le_sortedPlace clean found first (alone sorted) place).order p found (Nat.le_refl _) first
      intro q here d hd
      obtain rfl : p = q := Option.some.inj (still.symm.trans here)
      exact last d hd

/-- Names before, between and after the sorted imports of a text that begins with a byte order mark and a comment,
with comments after its declarations. -/
theorem ensured_imports_are_declared_among_comments :
    let text := "\uFEFF/* head */ package p; // own\nimport b.B; /* one */\n  import d.D;\n/* type */ class T {}\n"
    let names := ["e.E", "c.C", "b.B", "a.A", "p.Q"]
    let u := CompilationUnit.ofString text
    (u.hasSyntaxErrors = false ∧
      ((Table.ofUnit u).IsSorted → ∀ d ∈ u.imports, (Source.ofString text).BeginsLine d.start) ∧
      ¬ OpensWithMark text ∧
      (∀ name ∈ names, (Table.ofUnit u).covers name = false → isQualifiedName name = true)) ∧
    isMarked text.toList = true ∧ u.PackageFirst ∧
    u.commentTexts = ["/* head */", "// own", "/* one */", "/* type */"] ∧
    ∃ (result : String),
      Text.applyEdits u.source.toBytes
          (((Registration.start (Table.ofUnit u)).ensureAll names).edits u.source) = .ok (encode result) ∧
      let after := CompilationUnit.ofString result
      after.hasSyntaxErrors = false ∧
      (∀ name ∈ names, (Table.ofUnit after).covers name = true) ∧
      after.package.map (·.name) = u.package.map (·.name) ∧
      u.writtenImports.Sublist after.writtenImports ∧ after.PackageFirst ∧
      after.commentTexts = u.commentTexts ∧ isMarked result.toList = true := by
  intro text names u
  have clean : u.hasSyntaxErrors = false := by decide +kernel
  have alone : (Table.ofUnit u).IsSorted → ∀ d ∈ u.imports, (Source.ofString text).BeginsLine d.start := by
    decide +kernel
  have unmarked : ¬ OpensWithMark text := by decide +kernel
  have qualified : ∀ name ∈ names, (Table.ofUnit u).covers name = false → isQualifiedName name = true := by
    decide +kernel
  have marked : isMarked text.toList = true := by decide +kernel
  have first : u.PackageFirst := by decide +kernel
  have texts : u.commentTexts = ["/* head */", "// own", "/* one */", "/* type */"] := by decide +kernel
  obtain ⟨result, made, parses, covered, package, kept, order, comments, mark⟩ :=
    ensured_imports_are_declared text names clean alone unmarked qualified
  exact ⟨⟨clean, alone, unmarked, qualified⟩, marked, first, texts, result, made, parses, covered, package, kept,
    order first, comments, mark.trans marked⟩

end MonoTap.Java
