import MonoTap.Proofs.MarkedTexts

/-!
# Inserted imports

What the edits make of a text that declare the names asked for. All imports are still declared, in their order
and as they were written, and each name that was not covered once. If the imports were sorted they still are;
else the new ones follow the last import, or the package, or open the text.
-/

set_option autoImplicit false

namespace MonoTap.Imports

open Java (AreImportsOf CompilationUnit plainImport isQualifiedName)
open Text (Edit Source encode encodeChars)

/-- The place at which imports are put in together. -/
def Table.blockPlace (t : Table) : Nat :=
  match t.imports.getLast? with
  | some last => last.stop
  | none => (t.package.map (·.stop)).getD 0

/-- The names of the imports that are not static. -/
def Table.regularNames (t : Table) : List String :=
  (t.imports.filter (!·.isStatic)).map (·.name)

/-- Some imports are there, and the regular ones are sorted. -/
def Table.IsSorted (t : Table) : Prop :=
  t.regularNames ≠ [] ∧ t.regularNames.Pairwise (· ≤ ·)

instance (t : Table) : Decidable t.IsSorted :=
  inferInstanceAs (Decidable (_ ∧ _))

variable {r : Registration} {source : Source}

/-- The edits put each name at its place among sorted imports, and else all of them at one place. -/
theorem edits_cases (nonempty : r.pending ≠ []) (qualified : ∀ name ∈ r.pending, isQualifiedName name = true) :
    (r.table.IsSorted ∧ ∃ last, (r.table.imports.filter (!·.isStatic)).getLast? = some last ∧
      r.edits source = (sortNames r.pending).map (sortedInsertion source (Text.newlineOf source.toBytes)
        (r.table.imports.filter (!·.isStatic)) last)) ∨
    (¬ r.table.IsSorted ∧ ∃ block, r.edits source = [insertion r.table.blockPlace block] ∧
      AreImportsOf (sortNames r.pending) block.toList) := by
  have blank := Java.isSpace_newlineOf source.toBytes
  have perm := sortNames_perm r.pending
  have qualified : ∀ name ∈ sortNames r.pending, isQualifiedName name = true := fun name hn =>
    qualified name (perm.mem_iff.1 hn)
  have nonempty' : sortNames r.pending ≠ [] := by
    intro bare
    rw [bare] at perm
    exact nonempty perm.nil_eq.symm
  have joined := Java.areImportsOf_join blank qualified
  unfold Registration.edits
  rw [if_neg (by rwa [List.isEmpty_iff])]
  dsimp only
  cases found : r.table.imports.getLast? with
  | none =>
    have bare := List.getLast?_eq_none_iff.1 found
    have block := Java.areImportsOf_intercalate blank qualified nonempty'
    refine .inr ⟨fun sorted => sorted.1 (by rw [Table.regularNames, bare]; rfl), ?_⟩
    rw [Table.blockPlace, found]
    unfold openingInsertion
    dsimp only
    cases r.table.package with
    | none =>
      refine ⟨_, rfl, ?_⟩
      rw [String.toList_append, String.toList_append]
      exact (block.concat blank nonempty').concat blank nonempty'
    | some p =>
      refine ⟨_, rfl, ?_⟩
      rw [String.toList_append, String.toList_append, List.append_assoc]
      exact (block.prepend blank nonempty').prepend blank nonempty'
  | some last =>
    rw [Table.blockPlace, found]
    dsimp only
    cases regular : (r.table.imports.filter (!·.isStatic)).getLast? with
    | none =>
      have bare := List.getLast?_eq_none_iff.1 regular
      exact .inr ⟨fun sorted => sorted.1 (by rw [Table.regularNames, bare]; rfl), _, rfl, joined⟩
    | some lastRegular =>
      have some : r.table.regularNames ≠ [] := by
        rw [Table.regularNames, ne_eq, List.map_eq_nil_iff]
        intro bare
        rw [bare] at regular
        cases regular
      dsimp only
      split
      · rename_i same
        exact .inl ⟨⟨some, eq_sortNames_iff.1 (eq_of_beq same)⟩, lastRegular, rfl, rfl⟩
      · rename_i other
        refine .inr ⟨fun sorted => other (beq_iff_eq.2 (eq_sortNames_iff.2 sorted.2)), _, rfl, joined⟩

end MonoTap.Imports

namespace MonoTap.Java

open Imports (Registration Table insertion sortNames sortedInsertion)
open Text (Edit Source encode encodeChars)

variable {text block : String} {names : List String} {offset : Nat}

theorem ofString_ofList_writtenImports {chars : List Char} {written : List WrittenImport}
    (h : Declares chars written) : (CompilationUnit.ofString (String.ofList chars)).writtenImports = written := by
  rw [← String.toList_ofList (l := chars)] at h
  exact h.writtenImports

/-- What a text becomes by one insertion. -/
theorem applyEdits_insertion (front back : List Char) (block : String) (whole : text.toList = front ++ back) :
    Text.applyEdits (encode text) [insertion (byteLength front) block] =
      .ok (encode (String.ofList (front ++ (block.toList ++ back)))) := by
  rw [Text.applyEdits_of_insertions, List.foldr_cons, List.foldr_nil, Text.encode_eq, whole, put_insertion,
    Text.encode_eq, String.toList_ofList]
  · refine List.forall_mem_singleton.2 ⟨_, _, rfl, ?_⟩
    rw [Text.encode_eq, whole, ← byteLength_eq, byteLength_append]
    omega
  · exact List.pairwise_singleton _ _

/-- A text begins with a byte order mark, and declares neither a package nor an import after it. -/
def OpensWithMark (text : String) : Prop :=
  isMarked text.toList = true ∧ (CompilationUnit.ofString text).package = none ∧
    (CompilationUnit.ofString text).imports = []

instance (text : String) : Decidable (OpensWithMark text) :=
  inferInstanceAs (Decidable (_ ∧ _ ∧ _))

section

variable (clean : (CompilationUnit.ofString text).hasSyntaxErrors = false)
include clean

/-- The place where imports are put in together is a seam, but for a byte order mark. -/
theorem hasSeam_blockPlace : HasSeam text.toList (Table.ofUnit (CompilationUnit.ofString text)).blockPlace
      (CompilationUnit.ofString text).imports.length ∨
    OpensWithMark text ∧ (Table.ofUnit (CompilationUnit.ofString text)).blockPlace = 0 := by
  unfold Table.blockPlace
  rw [Table.ofUnit]
  dsimp only
  cases found : (CompilationUnit.ofString text).imports.getLast? with
  | some last =>
    obtain ⟨earlier, split⟩ := List.getLast?_eq_some_iff.1 found
    left
    have seam := hasSeam_after clean split
    rwa [← List.length_singleton (a := last), ← List.length_append, ← split] at seam
  | none =>
    have bare := List.getLast?_eq_none_iff.1 found
    dsimp only
    cases package : (CompilationUnit.ofString text).package with
    | some p =>
      rw [bare]
      exact .inl (hasSeam_package clean bare package)
    | none =>
      cases marked : isMarked text.toList with
      | true => exact .inr ⟨⟨marked, package, bare⟩, rfl⟩
      | false =>
        rw [bare]
        exact .inl (hasSeam_start marked)

/-- Names that are put in together. -/
theorem exists_block {inserted : List Char} (i : AreImportsOf names inserted) : ∃ front back,
    text.toList = front ++ back ∧
      byteLength front = (Table.ofUnit (CompilationUnit.ofString text)).blockPlace ∧
      (CompilationUnit.ofString (String.ofList (front ++ (inserted ++ back)))).writtenImports =
        (CompilationUnit.ofString text).writtenImports ++ names.map plainImport ∧
      (¬ OpensWithMark text → Kept (Table.ofUnit (CompilationUnit.ofString text)).blockPlace text
        (String.ofList (front ++ (inserted ++ back)))) := by
  have declares := declares_of_clean clean
  rcases hasSeam_blockPlace clean with seam | ⟨opens, start⟩
  · obtain ⟨front, back, written, others, whole, place, cut, split, length, declares', _⟩ := seam.put declares i
    have all : written = (CompilationUnit.ofString text).writtenImports ∧ others = [] := by
      have size := congrArg List.length split
      rw [CompilationUnit.writtenImports, List.length_map, List.length_append, length] at size
      have none : others = [] := List.length_eq_zero_iff.1 (by omega)
      rw [none, List.append_nil] at split
      exact ⟨split.symm, none⟩
    rw [all.1, all.2, List.append_nil] at declares'
    refine ⟨front, back, whole, place.symm, ofString_ofList_writtenImports declares', fun _ => ?_⟩
    exact cut.keptAll i (Nat.le_of_eq place) clean whole String.toList_ofList
  · obtain ⟨marked, unnamed, bare⟩ := opens
    have none : (CompilationUnit.ofString text).writtenImports = [] := by
      rw [CompilationUnit.writtenImports, bare]
      rfl
    refine ⟨[], text.toList, rfl, start.symm, ?_, fun other => (other ⟨marked, unnamed, bare⟩).elim⟩
    rw [none, List.nil_append, List.nil_append]
    cases names with
    | nil =>
      cases i
      rw [List.nil_append, String.ofList_toList, none]
      rfl
    | cons name names => exact writtenImports_of_marked clean marked bare i (List.cons_ne_nil _ _)

/-- Names that are put in at their places among sorted imports. -/
theorem exists_sorted {last : ImportDeclaration} {newline : String} (blank : ∀ c ∈ newline.toList, isSpace c = true)
    (alone : ∀ d ∈ (CompilationUnit.ofString text).imports, (Source.ofString text).BeginsLine d.start)
    (sorted : AreSorted (CompilationUnit.ofString text).writtenImports)
    (found : ((CompilationUnit.ofString text).imports.filter (!·.isStatic)).getLast? = some last)
    (ordered : names.Pairwise (· ≤ ·)) (qualified : ∀ name ∈ names, isQualifiedName name = true) :
    ∃ result, Text.applyEdits (encode text) (names.map (sortedInsertion (Source.ofString text) newline
        ((CompilationUnit.ofString text).imports.filter (!·.isStatic)) last)) = .ok (encode result) ∧
      PutIn text names result.toList (CompilationUnit.ofString result).writtenImports ∧
      ∀ limit, (∀ name ∈ names, ∀ offset count, SortedPlace (Source.ofString text)
        (CompilationUnit.ofString text).imports name offset count → limit ≤ offset) → Kept limit text result := by
  have each : ∀ name ∈ names, ∃ offset count inserted, sortedInsertion (Source.ofString text) newline
      ((CompilationUnit.ofString text).imports.filter (!·.isStatic)) last name = insertion offset inserted ∧
        IsImportOf name inserted.toList ∧
        SortedPlace (Source.ofString text) (CompilationUnit.ofString text).imports name offset count := by
    intro name hn
    have own := isImportOf_declarationOf (qualified name hn)
    obtain ⟨offset, count, inserted, same, rfl | rfl, place⟩ := exists_place found name
    · exact ⟨offset, count, _, same, String.toList_append .. ▸ own.concat blank, place⟩
    · exact ⟨offset, count, _, same, String.toList_append .. ▸ own.prepend blank, place⟩
  obtain ⟨result, after, made, putIn, undisturbed⟩ := exists_putIn clean alone sorted ordered each
  have written := ofString_ofList_writtenImports putIn.declares
  refine ⟨String.ofList result, ?_, by rwa [written, String.toList_ofList], undisturbed⟩
  rw [Text.applyEdits_of_insertions, Text.encode_eq, made, Text.encode_eq, String.toList_ofList]
  · refine List.forall_mem_map.2 fun name hn => ?_
    obtain ⟨offset, count, inserted, same, _, place⟩ := each name hn
    refine ⟨offset, inserted, same, ?_⟩
    rw [Text.encode_eq]
    exact (place.hasSeam clean alone).le
  · refine List.pairwise_map.2 (ordered.imp_of_mem fun {a b} ha hb le => ?_)
    obtain ⟨offset, count, inserted, same, _, place⟩ := each a ha
    obtain ⟨offset', count', inserted', same', _, place'⟩ := each b hb
    rw [same, same']
    exact Int.ofNat_le.2 (place.le_of_le clean alone place' le).1

end

/-- The names of the imports of a unit, as they are written. -/
theorem regularNames_ofUnit (u : CompilationUnit) :
    (Table.ofUnit u).regularNames = (u.writtenImports.filter (!·.isStatic)).map (·.name) := by
  rw [Table.regularNames, CompilationUnit.writtenImports, List.filter_map, List.map_map]
  rfl

theorem areSorted_of_isSorted {u : CompilationUnit} (h : (Table.ofUnit u).IsSorted) :
    AreSorted u.writtenImports := by
  rw [areSorted_iff, ← regularNames_ofUnit]
  exact h.2

/-- What the edits make of a text that declare the names asked for. -/
structure Edited (text : String) (names : List String) (result : String) (added : List String) : Prop where
  made : Text.applyEdits (Source.ofString text).toBytes (((Registration.start (Table.ofUnit
    (CompilationUnit.ofString text))).ensureAll names).edits (Source.ofString text)) = .ok (encode result)
  member : ∀ name, name ∈ added ↔
    name ∈ names ∧ (Table.ofUnit (CompilationUnit.ofString text)).covers name = false
  distinct : added.Nodup
  ordered : added.Pairwise (· ≤ ·)
  kept : (CompilationUnit.ofString text).writtenImports.Sublist (CompilationUnit.ofString result).writtenImports
  all : (CompilationUnit.ofString result).writtenImports.Perm
    (added.map plainImport ++ (CompilationUnit.ofString text).writtenImports)
  sorted : (Table.ofUnit (CompilationUnit.ofString text)).IsSorted →
    (Table.ofUnit (CompilationUnit.ofString result)).regularNames.Pairwise (· ≤ ·)
  together : ¬ (Table.ofUnit (CompilationUnit.ofString text)).IsSorted →
    (CompilationUnit.ofString result).writtenImports =
        (CompilationUnit.ofString text).writtenImports ++ added.map plainImport ∧
      ∃ front block back, text.toList = front ++ back ∧ result.toList = front ++ (block ++ back) ∧
        byteLength front = (Table.ofUnit (CompilationUnit.ofString text)).blockPlace ∧ AreImportsOf added block
  undisturbed : ¬ OpensWithMark text → ∀ limit,
    limit ≤ (Table.ofUnit (CompilationUnit.ofString text)).blockPlace →
    ((Table.ofUnit (CompilationUnit.ofString text)).IsSorted → ∀ name offset count,
      SortedPlace (Source.ofString text) (CompilationUnit.ofString text).imports name offset count → limit ≤ offset) →
    Kept limit text result

theorem exists_edited (text : String) (names : List String)
    (clean : (CompilationUnit.ofString text).hasSyntaxErrors = false)
    (alone : (Table.ofUnit (CompilationUnit.ofString text)).IsSorted →
      ∀ d ∈ (CompilationUnit.ofString text).imports, (Source.ofString text).BeginsLine d.start)
    (qualified : ∀ name ∈ names, (Table.ofUnit (CompilationUnit.ofString text)).covers name = false →
      isQualifiedName name = true) : ∃ result added, Edited text names result added := by
  have bytes : (Source.ofString text).toBytes = encode text := rfl
  have table : ((Registration.start (Table.ofUnit (CompilationUnit.ofString text))).ensureAll names).table =
      Table.ofUnit (CompilationUnit.ofString text) := Imports.table_ensureAll _ _
  have pending (name : String) :
      name ∈ ((Registration.start (Table.ofUnit (CompilationUnit.ofString text))).ensureAll names).pending ↔
        name ∈ names ∧ (Table.ofUnit (CompilationUnit.ofString text)).covers name = false :=
    Registration.mem_pending_ensureAll.trans (by simp [Registration.start])
  have distinct :
      ((Registration.start (Table.ofUnit (CompilationUnit.ofString text))).ensureAll names).pending.Nodup :=
    Registration.nodup_pending_ensureAll List.nodup_nil names
  obtain ⟨r, registered⟩ : ∃ r,
      (Registration.start (Table.ofUnit (CompilationUnit.ofString text))).ensureAll names = r := ⟨_, rfl⟩
  rw [registered] at table pending distinct
  have perm := Imports.sortNames_perm r.pending
  have member (name : String) : name ∈ sortNames r.pending ↔
      name ∈ names ∧ (Table.ofUnit (CompilationUnit.ofString text)).covers name = false :=
    perm.mem_iff.trans (pending name)
  have ordered := Imports.pairwise_sortNames r.pending
  have qualified' : ∀ name ∈ r.pending, isQualifiedName name = true := fun name hn =>
    qualified name ((pending name).1 hn).1 ((pending name).1 hn).2
  by_cases nonempty : r.pending = []
  · obtain ⟨front, back, whole, place, _⟩ := exists_block clean AreImportsOf.nil
    have none : r.edits (Source.ofString text) = [] := by rw [Registration.edits, nonempty]; rfl
    have same : sortNames r.pending = [] := by
      rw [nonempty] at perm ⊢
      exact perm.eq_nil
    refine ⟨text, sortNames r.pending, ?_, member, perm.nodup_iff.2 distinct, ordered, List.Sublist.refl _, ?_,
      fun sorted => sorted.2, fun _ => ⟨?_, front, [], back, whole, whole, place, ?_⟩, fun _ _ _ _ => .refl clean⟩
    · rw [registered, none]
      exact Text.applyEdits_of_insertions (fun e he => (List.not_mem_nil he).elim) .nil
    · rw [same]
      exact List.Perm.refl _
    · rw [same]
      exact (List.append_nil _).symm
    · rw [same]
      exact .nil
  · rcases Imports.edits_cases nonempty qualified' with ⟨sorted, last, found, edits⟩ | ⟨other, block, edits, i⟩
    · rw [table] at sorted found edits
      obtain ⟨result, done, putIn, undisturbed⟩ := exists_sorted clean
        (isSpace_newlineOf (Source.ofString text).toBytes) (alone sorted) (areSorted_of_isSorted sorted) found ordered
        fun name hn => qualified' name (perm.mem_iff.1 hn)
      refine ⟨result, sortNames r.pending, ?_, member, perm.nodup_iff.2 distinct, ordered, putIn.kept,
        putIn.added, fun _ => ?_, fun other => (other sorted).elim,
        fun _ limit _ early => undisturbed limit fun name _ => early sorted name⟩
      · rw [registered, edits, bytes]
        exact done
      · rw [regularNames_ofUnit]
        exact (areSorted_iff _).1 putIn.sorted
    · rw [table] at other edits
      obtain ⟨front, back, whole, place, written, undisturbed⟩ := exists_block clean i
      refine ⟨_, sortNames r.pending, ?_, member, perm.nodup_iff.2 distinct, ordered, ?_, ?_,
        fun sorted => (other sorted).elim, fun _ => ⟨written, front, block.toList, back, whole,
          String.toList_ofList, place, i⟩, fun unmarked _ early _ => (undisturbed unmarked).mono early⟩
      · rw [registered, edits, bytes, ← place]
        exact applyEdits_insertion front back block whole
      · rw [written]
        exact List.sublist_append_left _ _
      · rw [written]
        exact List.perm_append_comm

/-- The edits that declare names that are asked for can be made, if only blanks stand before each import in its
line. Then the text declares what it declared, in the same order and written in the same way, and each name that
was not covered once. Sorted imports stay sorted; else the names stand together in their order after the last
import, or after the package, or at the beginning of the text. -/
theorem edits_insert_imports (text : String) (names : List String)
    (clean : (CompilationUnit.ofString text).hasSyntaxErrors = false)
    (alone : ∀ d ∈ (CompilationUnit.ofString text).imports, (Source.ofString text).BeginsLine d.start)
    (qualified : ∀ name ∈ names, (Table.ofUnit (CompilationUnit.ofString text)).covers name = false →
      isQualifiedName name = true) :
    let u := CompilationUnit.ofString text
    let t := Table.ofUnit u
    ∃ result added,
      Text.applyEdits u.source.toBytes (((Registration.start t).ensureAll names).edits u.source) =
        .ok (encode result) ∧
      (∀ name, name ∈ added ↔ name ∈ names ∧ t.covers name = false) ∧ added.Nodup ∧
      added.Pairwise (· ≤ ·) ∧
      let after := CompilationUnit.ofString result
      u.writtenImports.Sublist after.writtenImports ∧
      after.writtenImports.Perm (added.map plainImport ++ u.writtenImports) ∧
      (t.IsSorted → (Table.ofUnit after).regularNames.Pairwise (· ≤ ·)) ∧
      (¬ t.IsSorted → after.writtenImports = u.writtenImports ++ added.map plainImport ∧
        ∃ front block back, text.toList = front ++ back ∧ result.toList = front ++ (block ++ back) ∧
          byteLength front = t.blockPlace ∧ AreImportsOf added block) := by
  intro u t
  obtain ⟨result, added, h⟩ := exists_edited text names clean (fun _ => alone) qualified
  exact ⟨result, added, h.made, h.member, h.distinct, h.ordered, h.kept, h.all, h.sorted, h.together⟩

/-- Names that belong before, between and after the sorted imports of a text, one of them asked for twice and one
of them covered, with a static import out of order among them. -/
theorem edits_insert_imports_among_static :
    let text := "package p;\nimport b.B;\nimport static a.A.z;\n  import d.D; // last\nclass T {}\n"
    let names := ["e.E", "c.C", "b.B", "e.E", "a.A", "p.Q"]
    let u := CompilationUnit.ofString text
    let t := Table.ofUnit u
    (u.hasSyntaxErrors = false ∧ (∀ d ∈ u.imports, (Source.ofString text).BeginsLine d.start) ∧
      (∀ name ∈ names, t.covers name = false → isQualifiedName name = true)) ∧ t.IsSorted ∧
    ∃ (result : String) (added : List String),
      Text.applyEdits u.source.toBytes (((Registration.start t).ensureAll names).edits u.source) =
        .ok (encode result) ∧
      (∀ name, name ∈ added ↔ name ∈ names ∧ t.covers name = false) ∧ added.Nodup ∧
      added.Pairwise (· ≤ ·) ∧
      let after := CompilationUnit.ofString result
      u.writtenImports.Sublist after.writtenImports ∧
      after.writtenImports.Perm (added.map plainImport ++ u.writtenImports) ∧
      (Table.ofUnit after).regularNames.Pairwise (· ≤ ·) := by
  intro text names u t
  have clean : u.hasSyntaxErrors = false := by decide +kernel
  have alone : ∀ d ∈ u.imports, (Source.ofString text).BeginsLine d.start := by decide +kernel
  have qualified : ∀ name ∈ names, t.covers name = false → isQualifiedName name = true := by decide +kernel
  have sorted : t.IsSorted := by decide +kernel
  obtain ⟨result, added, made, member, distinct, ordered, kept, all, still, _⟩ :=
    edits_insert_imports text names clean alone qualified
  exact ⟨⟨clean, alone, qualified⟩, sorted, result, added, made, member, distinct, ordered, kept, all, still sorted⟩

end MonoTap.Java
