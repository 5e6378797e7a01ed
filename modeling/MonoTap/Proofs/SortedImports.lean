import MonoTap.Proofs.EditSequences
import MonoTap.Proofs.KeptDeclarations
import MonoTap.Proofs.Mentions
import MonoTap.Proofs.Requests

/-!
# Sorted imports

The edits that declare further imports are made one after the other, from the last to the first. Each is put
in at a seam of the text, and the seams before it stay. So the imports are declared that were declared before,
in their order and as they were written, and the further ones; and if they were sorted by their names, they
still are.
-/

set_option autoImplicit false

namespace MonoTap.Java

open Imports (declarationOf insertion)
open Text (Edit Source encodeChars)

variable {front back middle inserted chars : List Char} {written others all : List WrittenImport}
  {name : String} {names : List String} {offset count : Nat}

/-! ### Several imports at one place -/

/-- A text that declares the imports of some names, one after the other. -/
inductive AreImportsOf : List String → List Char → Prop
  | nil : AreImportsOf [] []
  | cons {name : String} {names : List String} {cs ds : List Char} (first : IsImportOf name cs)
      (more : AreImportsOf names ds) : AreImportsOf (name :: names) (cs ++ ds)

theorem areImportsOf_singleton (h : IsImportOf name inserted) : AreImportsOf [name] inserted := by
  have single := AreImportsOf.cons h .nil
  rwa [List.append_nil] at single

theorem isImportOf_declarationOf (qualified : isQualifiedName name = true) :
    IsImportOf name (declarationOf name).toList :=
  ⟨qualified, [], [], (List.append_nil _).symm, fun _ h => (List.not_mem_nil h).elim,
    fun _ h => (List.not_mem_nil h).elim⟩

section

variable {blanks : List Char} (blank : ∀ c ∈ blanks, isSpace c = true)
include blank

theorem IsImportOf.prepend (h : IsImportOf name inserted) : IsImportOf name (blanks ++ inserted) := by
  obtain ⟨qualified, before, after, rfl, first, last⟩ := h
  exact ⟨qualified, blanks ++ before, after, (List.append_assoc ..).symm, List.forall_mem_append.2 ⟨blank, first⟩,
    last⟩

theorem IsImportOf.concat (h : IsImportOf name inserted) : IsImportOf name (inserted ++ blanks) := by
  obtain ⟨qualified, before, after, rfl, first, last⟩ := h
  refine ⟨qualified, before, after ++ blanks, ?_, first, List.forall_mem_append.2 ⟨last, blank⟩⟩
  rw [List.append_assoc, List.append_assoc]

theorem AreImportsOf.prepend (h : AreImportsOf names inserted) (some : names ≠ []) :
    AreImportsOf names (blanks ++ inserted) := by
  cases h with
  | nil => exact (some rfl).elim
  | cons first more =>
    rw [← List.append_assoc]
    exact .cons (first.prepend blank) more

theorem AreImportsOf.concat (h : AreImportsOf names inserted) (some : names ≠ []) :
    AreImportsOf names (inserted ++ blanks) := by
  induction h with
  | nil => exact (some rfl).elim
  | @cons name names cs ds first more ih =>
    cases names with
    | nil =>
      cases more
      rw [List.append_nil]
      exact areImportsOf_singleton (first.concat blank)
    | cons next names =>
      rw [List.append_assoc]
      exact .cons first (ih (List.cons_ne_nil next names))

end

section

variable {newline : String} (blank : ∀ c ∈ newline.toList, isSpace c = true)
  (qualified : ∀ name ∈ names, isQualifiedName name = true)
include blank qualified

theorem areImportsOf_join : AreImportsOf names (String.join (names.map (newline ++ declarationOf ·))).toList := by
  induction names with
  | nil => exact .nil
  | cons name names ih =>
    obtain ⟨first, others⟩ := List.forall_mem_cons.1 qualified
    rw [List.map_cons, String.join_cons, String.toList_append, String.toList_append]
    exact .cons ((isImportOf_declarationOf first).prepend blank) (ih others)

theorem areImportsOf_intercalate (some : names ≠ []) :
    AreImportsOf names (newline.intercalate (names.map declarationOf)).toList := by
  induction names with
  | nil => exact (some rfl).elim
  | cons name names ih =>
    obtain ⟨first, others⟩ := List.forall_mem_cons.1 qualified
    have own := isImportOf_declarationOf first
    cases names with
    | nil =>
      rw [List.map_singleton, String.intercalate_singleton]
      exact areImportsOf_singleton own
    | cons next names =>
      rw [List.map_cons, List.map_cons, String.intercalate_cons_cons, String.toList_append, String.toList_append]
      exact .cons (own.concat blank) (ih others (List.cons_ne_nil next names))

end

theorem isSpace_newlineOf (bytes : List UInt8) : ∀ c ∈ (Text.newlineOf bytes).toList, isSpace c = true := by
  rw [← List.all_eq_true]
  rcases newlineOf_cases bytes with same | same <;> rw [same] <;> rfl

namespace Seam

variable (h : Seam front back written) (i : AreImportsOf names inserted)
include h i

theorem putAll : Seam front (inserted ++ back) written := by
  induction i with
  | nil => exact h
  | cons first more ih =>
    rw [List.append_assoc]
    exact ih.put first

theorem declaresAll (whole : Declares (front ++ back) (written ++ others)) :
    Declares (front ++ (inserted ++ back)) (written ++ (names.map plainImport ++ others)) := by
  induction i with
  | nil => exact whole
  | cons first more ih =>
    rw [List.append_assoc]
    exact (h.putAll more).declares first ih

end Seam

/-- Imports that are put in at a seam leave the rest as it is. -/
theorem Seam.keptAll {text result : String} {least : Nat} (h : Seam front back written)
    (i : AreImportsOf names inserted) (late : least ≤ byteLength front)
    (clean : (CompilationUnit.ofString text).hasSyntaxErrors = false) (here : text.toList = front ++ back)
    (there : result.toList = front ++ (inserted ++ back)) : Kept least text result := by
  induction i generalizing result with
  | nil =>
    rw [String.toList_inj.1 (there.trans here.symm)]
    exact .refl clean
  | @cons name names cs ds first more ih =>
    have behind := @ih (String.ofList (front ++ (ds ++ back))) String.toList_ofList
    refine behind.trans ((h.putAll more).kept first late behind.clean String.toList_ofList ?_)
    rw [there, List.append_assoc cs]

theorem Seam.putAll_further (h : Seam front (middle ++ back) written) (opens : Opens (front ++ middle))
    (i : AreImportsOf names inserted) : Seam front (middle ++ (inserted ++ back)) written := by
  induction i with
  | nil => exact h
  | cons first more ih =>
    rw [List.append_assoc]
    exact ih.put_further opens first

theorem HasSeam.exists_split (h : HasSeam chars offset count) (declares : Declares chars all) :
    ∃ written others, all = written ++ others ∧ written.length = count := by
  obtain ⟨front, back, written, rfl, rfl, seam, length⟩ := h
  obtain ⟨others, same, _⟩ := (seam.declares_iff all).1 declares
  exact ⟨written, others, same, length⟩

theorem HasSeam.le (h : HasSeam chars offset count) : offset ≤ (encodeChars chars).length := by
  obtain ⟨front, back, written, rfl, rfl, _⟩ := h
  rw [← byteLength_eq, byteLength_append]
  omega

/-- Imports are put in at a seam of a text. The seams up to there stay. -/
theorem HasSeam.put (h : HasSeam chars offset count) (declares : Declares chars all)
    (i : AreImportsOf names inserted) : ∃ front back written others,
      chars = front ++ back ∧ offset = byteLength front ∧ Seam front back written ∧ all = written ++ others ∧
        written.length = count ∧ Declares (front ++ (inserted ++ back)) (written ++ (names.map plainImport ++ others)) ∧
        ∀ place before, place ≤ offset → HasSeam chars place before →
          HasSeam (front ++ (inserted ++ back)) place before := by
  obtain ⟨front, back, written, rfl, rfl, seam, length⟩ := h
  obtain ⟨others, same, _⟩ := (seam.declares_iff all).1 declares
  subst same
  refine ⟨front, back, written, others, rfl, rfl, seam, rfl, length, seam.declaresAll i declares, ?_⟩
  rintro place before upTo ⟨front', back', written', split, rfl, seam', length'⟩
  rw [byteLength_eq, byteLength_eq] at upTo
  obtain ⟨middle, rfl, rfl⟩ := Text.exists_append_of_length_le split.symm upTo
  refine ⟨front', middle ++ (inserted ++ back), written', List.append_assoc .., rfl, ?_, length'⟩
  exact seam'.putAll_further seam.opens i

/-- What a text becomes by an insertion. -/
theorem put_insertion (front back : List Char) (text : String) :
    (insertion (byteLength front) text).put (encodeChars (front ++ back)) =
      encodeChars (front ++ (text.toList ++ back)) := by
  rw [Edit.put, insertion, Int.toNat_natCast, byteLength_eq, Text.encodeChars_append, List.take_left,
    List.drop_left, Text.encode_eq, Text.encodeChars_append, Text.encodeChars_append, List.append_assoc]

end MonoTap.Java

namespace MonoTap.Text

open Imports (insertion)

/-- Insertions in the order of their places are made one after the other, from the last to the first. -/
theorem applyEdits_of_insertions {bytes : List UInt8} {edits : List Edit}
    (inserts : ∀ e ∈ edits, ∃ offset text, e = insertion offset text ∧ offset ≤ bytes.length)
    (ordered : edits.Pairwise fun a b => a.start ≤ b.start) :
    applyEdits bytes edits = .ok (edits.foldr Edit.put bytes) := by
  have sorted : inOrder edits = edits :=
    (stablySorted_iff.1 ⟨List.Perm.refl edits, ordered, fun _ => rfl⟩).symm
  have inLine : InLine 0 bytes.length edits := by
    refine inLine_of_pairwise (Nat.zero_le _) (fun e he => ?_) (ordered.imp_of_mem fun {a b} ha _ le => ?_)
    · obtain ⟨offset, text, rfl, inside⟩ := inserts e he
      exact ⟨offset, offset, rfl, rfl, Nat.zero_le _, Nat.le_refl _, inside⟩
    · obtain ⟨offset, text, rfl, _⟩ := inserts a ha
      exact le
  obtain ⟨result, made, _⟩ := splice_eq_ok inLine
  have whole : splice bytes ((0 : Nat) : Int) edits = .ok result := made
  rw [applyEdits, sorted]
  refine whole.trans (congrArg Except.ok ?_)
  exact (foldr_put_of_splice inLine made).symm

end MonoTap.Text

namespace MonoTap.Java

open Imports (declarationOf insertion sortedInsertion)
open Text (Edit Source encodeChars)

variable {chars result : List Char} {all after : List WrittenImport} {name name' : String}
  {names : List String} {offset offset' count count' : Nat} {source : Source} {imports : List ImportDeclaration}

/-! ### Places among sorted imports -/

/-- The place of a name among imports: before the line of the first one that comes later in the order, or
after the last one; static imports are passed over. The imports before it are counted. -/
inductive SortedPlace (source : Source) (imports : List ImportDeclaration) (name : String) : Nat → Nat → Prop
  | before {earlier later : List ImportDeclaration} {next : ImportDeclaration}
      (split : imports = earlier ++ next :: later) (regular : next.isStatic = false)
      (least : ∀ d ∈ earlier, d.isStatic = false → d.name ≤ name) (greater : name < next.name) :
      SortedPlace source imports name (source.lineStart next.start) earlier.length
  | after {earlier later : List ImportDeclaration} {last : ImportDeclaration}
      (split : imports = earlier ++ last :: later) (regular : last.isStatic = false)
      (static : ∀ d ∈ later, d.isStatic = true) (least : ∀ d ∈ imports, d.isStatic = false → d.name ≤ name) :
      SortedPlace source imports name last.stop (earlier.length + 1)

/-- The edit that declares a name goes to its place. -/
theorem exists_place {newline : String} {last : ImportDeclaration}
    (found : (imports.filter (!·.isStatic)).getLast? = some last) (name : String) :
    ∃ offset count text,
      sortedInsertion source newline (imports.filter (!·.isStatic)) last name = insertion offset text ∧
        (text = declarationOf name ++ newline ∨ text = newline ++ declarationOf name) ∧
        SortedPlace source imports name offset count := by
  -- the imports that are not static among the others
  have among {as bs : List ImportDeclaration} {d : ImportDeclaration}
      (h : imports.filter (!·.isStatic) = as ++ d :: bs) : ∃ earlier later, imports = earlier ++ d :: later ∧
        d.isStatic = false ∧ earlier.filter (!·.isStatic) = as ∧ later.filter (!·.isStatic) = bs := by
    obtain ⟨first, second, rfl, front, tail⟩ := List.filter_eq_append_iff.1 h
    obtain ⟨between, later, rfl, none, regular, rest⟩ := List.filter_eq_cons_iff.1 tail
    refine ⟨first ++ between, later, (List.append_assoc ..).symm, by simpa using regular, ?_, rest⟩
    rw [List.filter_append, front, List.filter_eq_nil_iff.2 none, List.append_nil]
  unfold sortedInsertion
  cases next : (imports.filter (!·.isStatic)).find? fun d => decide (name < d.name) with
  | some next =>
    obtain ⟨greater, as, bs, split, before⟩ := List.find?_eq_some_iff_append.1 next
    obtain ⟨earlier, later, whole, regular, front, _⟩ := among split
    refine ⟨_, _, _, rfl, .inl rfl, .before whole regular (fun d hd isRegular => ?_) (of_decide_eq_true greater)⟩
    have mem : d ∈ as := front ▸ List.mem_filter.2 ⟨hd, by rw [isRegular]; rfl⟩
    have := before d mem
    rw [Bool.not_eq_true', decide_eq_false_iff_not] at this
    exact String.not_lt.1 this
  | none =>
    obtain ⟨as, split⟩ := List.getLast?_eq_some_iff.1 found
    obtain ⟨earlier, later, whole, regular, _, static⟩ := among split
    refine ⟨_, _, _, rfl, .inr rfl, .after whole regular (fun d hd => ?_) fun d hd isRegular => ?_⟩
    · have := List.filter_eq_nil_iff.1 static d hd
      simpa using this
    · have := List.find?_eq_none.1 next d (List.mem_filter.2 ⟨hd, by rw [isRegular]; rfl⟩)
      rw [decide_eq_true_eq] at this
      exact String.not_lt.1 this

/-- Two places in a list are the same, or one comes before the other. -/
theorem eq_or_before {α : Type} {as bs as' bs' : List α} {a a' : α} (h : as ++ a :: bs = as' ++ a' :: bs') :
    (as = as' ∧ a = a' ∧ bs = bs') ∨ (∃ between, as' = as ++ a :: between ∧ bs = between ++ a' :: bs') ∨
      ∃ between, as = as' ++ a' :: between ∧ bs' = between ++ a :: bs := by
  rcases List.append_eq_append_iff.1 h with ⟨between, rfl, tail⟩ | ⟨between, rfl, tail⟩
  · cases between with
    | nil =>
      obtain ⟨rfl, rfl⟩ := List.cons.inj tail
      exact .inl ⟨(List.append_nil as).symm, rfl, rfl⟩
    | cons b between =>
      obtain ⟨rfl, rfl⟩ := List.cons.inj tail
      exact .inr (.inl ⟨between, rfl, rfl⟩)
  · cases between with
    | nil =>
      obtain ⟨rfl, rfl⟩ := List.cons.inj tail
      exact .inl ⟨List.append_nil as', rfl, rfl⟩
    | cons b between =>
      obtain ⟨rfl, rfl⟩ := List.cons.inj tail
      exact .inr (.inr ⟨between, rfl, rfl⟩)

section

variable {text : String} (clean : (CompilationUnit.ofString text).hasSyntaxErrors = false)
  (alone : ∀ d ∈ (CompilationUnit.ofString text).imports, (Source.ofString text).BeginsLine d.start)
include clean alone

theorem SortedPlace.hasSeam
    (h : SortedPlace (Source.ofString text) (CompilationUnit.ofString text).imports name offset count) :
    HasSeam text.toList offset count := by
  cases h with
  | before split =>
    exact hasSeam_before clean split (alone _ (split ▸ List.mem_append_right _ List.mem_cons_self))
  | after split => exact hasSeam_after clean split

/-- Names that come later in the order have later places. -/
theorem SortedPlace.le_of_le
    (h : SortedPlace (Source.ofString text) (CompilationUnit.ofString text).imports name offset count)
    (h' : SortedPlace (Source.ofString text) (CompilationUnit.ofString text).imports name' offset' count')
    (le : name ≤ name') : offset ≤ offset' ∧ count ≤ count' := by
  have lineStart_le {earlier later : List ImportDeclaration} {d : ImportDeclaration}
      (split : (CompilationUnit.ofString text).imports = earlier ++ d :: later) :
      (Source.ofString text).lineStart d.start ≤ d.start :=
    (Text.boundary_lineStart (imports_in_order clean split).2.1.first).2
  cases h with
  | @before earlier later next split regular least greater =>
    obtain ⟨wide, solid, behind⟩ := imports_in_order clean split
    have first := lineStart_le split
    cases h' with
    | @before earlier' later' next' split' regular' least' greater' =>
      rcases eq_or_before (split.symm.trans split') with ⟨rfl, rfl, rfl⟩ | ⟨between, rfl, rfl⟩ | ⟨between, rfl, _⟩
      · exact ⟨Nat.le_refl _, Nat.le_refl _⟩
      · have begins := alone next' (split' ▸ List.mem_append_right _ List.mem_cons_self)
        have upTo := stop_le_lineStart clean split' begins solid
          (behind next' (List.mem_append_right _ List.mem_cons_self))
        rw [List.length_append]
        exact ⟨by omega, Nat.le_add_right _ _⟩
      · have lower := least next' (List.mem_append_right _ List.mem_cons_self) regular'
        exact (String.not_lt.2 (String.le_trans lower le) greater').elim
    | @after earlier' later' last split' regular' static least' =>
      have wide' := (imports_in_order clean split').1
      rcases eq_or_before (split.symm.trans split') with ⟨rfl, rfl, rfl⟩ | ⟨between, rfl, rfl⟩ | ⟨between, _, rfl⟩
      · exact ⟨by omega, Nat.le_succ _⟩
      · have := behind last (List.mem_append_right _ List.mem_cons_self)
        rw [List.length_append]
        exact ⟨by omega, by omega⟩
      · rw [static next (List.mem_append_right _ List.mem_cons_self)] at regular
        cases regular
  | @after earlier later last split regular static least =>
    cases h' with
    | @before earlier' later' next' split' regular' least' greater' =>
      have lower := least next' (split' ▸ List.mem_append_right _ List.mem_cons_self) regular'
      exact (String.not_lt.2 (String.le_trans lower le) greater').elim
    | @after earlier' later' last' split' regular' static' least' =>
      rcases eq_or_before (split.symm.trans split') with ⟨rfl, rfl, rfl⟩ | ⟨between, _, rfl⟩ | ⟨between, _, rfl⟩
      · exact ⟨Nat.le_refl _, Nat.le_refl _⟩
      · rw [static last' (List.mem_append_right _ List.mem_cons_self)] at regular'
        cases regular'
      · rw [static' last (List.mem_append_right _ List.mem_cons_self)] at regular
        cases regular

end

/-- The imports that are not static are sorted by their names. -/
def AreSorted (ws : List WrittenImport) : Prop :=
  ws.Pairwise fun a b => a.isStatic = false → b.isStatic = false → a.name ≤ b.name

theorem areSorted_iff (ws : List WrittenImport) :
    AreSorted ws ↔ ((ws.filter (!·.isStatic)).map (·.name)).Pairwise (· ≤ ·) := by
  rw [AreSorted, List.pairwise_map, List.pairwise_filter]
  simp only [Bool.not_eq_true']

/-- A name comes after the imports before its place, and before those after it. -/
theorem SortedPlace.between {written others : List WrittenImport}
    (h : SortedPlace source imports name offset count) (sorted : AreSorted (imports.map (·.written source)))
    (split : imports.map (·.written source) = written ++ others) (length : written.length = count) :
    (∀ w ∈ written, w.isStatic = false → w.name ≤ name) ∧ ∀ w ∈ others, w.isStatic = false → name ≤ w.name := by
  cases h with
  | @before earlier later next same regular least greater =>
    rw [same, List.map_append] at split sorted
    obtain ⟨rfl, rfl⟩ := List.append_inj split (by rw [length, List.length_map])
    constructor
    · intro w hw isRegular
      obtain ⟨d, hd, rfl⟩ := List.mem_map.1 hw
      exact least d hd isRegular
    · rw [List.map_cons]
      refine List.forall_mem_cons.2 ⟨fun _ => String.not_lt.1 (String.lt_asymm greater), fun w hw isRegular => ?_⟩
      have later := (List.pairwise_cons.1 (List.pairwise_append.1 sorted).2.1).1 w hw regular isRegular
      exact String.le_trans (String.not_lt.1 (String.lt_asymm greater)) later
  | @after earlier later last same regular static least =>
    have whole : imports.map (·.written source) =
        (earlier ++ [last]).map (·.written source) ++ later.map (·.written source) := by
      rw [same, ← List.map_append, List.append_assoc]
      rfl
    obtain ⟨rfl, rfl⟩ := List.append_inj (split.symm.trans whole) (by rw [length, List.length_map]; simp)
    constructor
    · intro w hw isRegular
      obtain ⟨d, hd, rfl⟩ := List.mem_map.1 hw
      refine least d ?_ isRegular
      rw [same, List.append_cons]
      exact List.mem_append_left _ hd
    · intro w hw isRegular
      obtain ⟨d, hd, rfl⟩ := List.mem_map.1 hw
      cases (static d hd).symm.trans isRegular

/-! ### Names that are put in at their places -/

/-- What has become of a text after some names have been put in at their places. The seams before all these
places are still there, and what comes after them has come from there or been put in. -/
structure PutIn (text : String) (names : List String) (result : List Char) (after : List WrittenImport) :
    Prop where
  declares : Declares result after
  kept : (CompilationUnit.ofString text).writtenImports.Sublist after
  added : after.Perm (names.map plainImport ++ (CompilationUnit.ofString text).writtenImports)
  sorted : AreSorted after
  seams : ∀ offset count, HasSeam text.toList offset count →
    (∀ name ∈ names, ∀ place before, SortedPlace (Source.ofString text) (CompilationUnit.ofString text).imports
      name place before → offset ≤ place ∧ count ≤ before) →
    HasSeam result offset count ∧ ∀ written others,
      (CompilationUnit.ofString text).writtenImports = written ++ others → written.length = count →
        ∃ others', after = written ++ others' ∧ ∀ w ∈ others', w ∈ others ∨ w ∈ names.map plainImport

section

variable {text : String} (clean : (CompilationUnit.ofString text).hasSyntaxErrors = false)
  (alone : ∀ d ∈ (CompilationUnit.ofString text).imports, (Source.ofString text).BeginsLine d.start)
  (sorted : AreSorted (CompilationUnit.ofString text).writtenImports)
include clean alone sorted

/-- One more name is put in before the others. -/
theorem PutIn.step {inserted : String} (h : PutIn text names result after)
    (place : SortedPlace (Source.ofString text) (CompilationUnit.ofString text).imports name offset count)
    (least : ∀ other ∈ names, name ≤ other) (i : IsImportOf name inserted.toList) :
    ∃ front back written after', result = front ++ back ∧ offset = byteLength front ∧ Seam front back written ∧
      (insertion offset inserted).put (encodeChars result) = encodeChars (front ++ (inserted.toList ++ back)) ∧
      PutIn text (name :: names) (front ++ (inserted.toList ++ back)) after' := by
  have own := place.hasSeam clean alone
  obtain ⟨seam, frame⟩ := h.seams offset count own fun other hn _ _ place' =>
    place.le_of_le clean alone place' (least other hn)
  obtain ⟨written, others, split, length⟩ := own.exists_split (declares_of_clean clean)
  obtain ⟨others', rfl, origin⟩ := frame written others split length
  obtain ⟨front, back, written', others'', rfl, rfl, cut, same, length', declares, keeps⟩ :=
    seam.put h.declares (areImportsOf_singleton i)
  obtain ⟨rfl, rfl⟩ := List.append_inj same (length.trans length'.symm)
  obtain ⟨lower, upper⟩ := place.between sorted split length
  refine ⟨front, back, _, written ++ plainImport name :: others', rfl, rfl, cut, put_insertion front back inserted,
    declares, ?_, ?_, ?_, ?_⟩
  · exact h.kept.trans ((List.Sublist.refl written).append (List.sublist_cons_self _ others'))
  · exact List.perm_middle.trans (h.added.cons (plainImport name))
  · obtain ⟨first, second, across⟩ := List.pairwise_append.1 h.sorted
    refine List.pairwise_append.2 ⟨first, List.pairwise_cons.2 ⟨fun w hw _ regular => ?_, second⟩, fun v hv w hw => ?_⟩
    · rcases origin w hw with hw | hw
      · exact upper w hw regular
      · obtain ⟨other, hn, rfl⟩ := List.mem_map.1 hw
        exact least other hn
    · rcases List.mem_cons.1 hw with rfl | hw
      · exact fun regular _ => lower v hv regular
      · exact across v hv w hw
  · intro offset' count' seam' early
    obtain ⟨early', earlyOthers⟩ := List.forall_mem_cons.1 early
    obtain ⟨kept, frame'⟩ := h.seams offset' count' seam' earlyOthers
    obtain ⟨upTo, fewer⟩ := early' _ count place
    refine ⟨keeps offset' count' upTo kept, fun first rest split' length'' => ?_⟩
    obtain ⟨rest', whole, origin'⟩ := frame' first rest split' length''
    obtain ⟨between, rfl, rfl⟩ : ∃ between, written = first ++ between ∧ rest' = between ++ others' := by
      rcases List.append_eq_append_iff.1 whole with ⟨between, rfl, rfl⟩ | ⟨between, rfl, rfl⟩
      · rw [List.length_append] at length''
        have none : between = [] := List.length_eq_zero_iff.1 (by omega)
        subst none
        exact ⟨[], by simp, rfl⟩
      · exact ⟨between, rfl, rfl⟩
    refine ⟨between ++ plainImport name :: others', List.append_assoc .., fun w hw => ?_⟩
    rw [List.map_cons, List.mem_cons]
    rcases List.mem_append.1 hw with hw | hw
    · exact (origin' w (List.mem_append_left _ hw)).imp_right .inr
    · rcases List.mem_cons.1 hw with rfl | hw
      · exact .inr (.inl rfl)
      · exact (origin' w (List.mem_append_right _ hw)).imp_right .inr

/-- Sorted names are put in one after the other, from the last to the first. -/
theorem exists_putIn {edit : String → Edit} (ordered : names.Pairwise (· ≤ ·))
    (each : ∀ name ∈ names, ∃ offset count inserted, edit name = insertion offset inserted ∧
      IsImportOf name inserted.toList ∧
      SortedPlace (Source.ofString text) (CompilationUnit.ofString text).imports name offset count) :
    ∃ result after, (names.map edit).foldr Edit.put (encodeChars text.toList) = encodeChars result ∧
      PutIn text names result after ∧
      ∀ limit, (∀ name ∈ names, ∀ offset count, SortedPlace (Source.ofString text)
        (CompilationUnit.ofString text).imports name offset count → limit ≤ offset) →
          Kept limit text (String.ofList result) := by
  induction names with
  | nil =>
    refine ⟨text.toList, _, rfl, ⟨declares_of_clean clean, List.Sublist.refl _, List.Perm.refl _, sorted, ?_⟩,
      fun _ _ => by rw [String.ofList_toList]; exact .refl clean⟩
    exact fun _ _ seam _ => ⟨seam, fun _ others split _ => ⟨others, split, fun _ hw => .inl hw⟩⟩
  | cons name names ih =>
    obtain ⟨least, ordered⟩ := List.pairwise_cons.1 ordered
    obtain ⟨own, others⟩ := List.forall_mem_cons.1 each
    obtain ⟨result, after, made, putIn, kept⟩ := ih ordered others
    obtain ⟨offset, count, inserted, same, i, place⟩ := own
    obtain ⟨front, back, written, after', rfl, rfl, seam, made', putIn'⟩ :=
      putIn.step clean alone sorted place least i
    refine ⟨_, after', ?_, putIn', fun limit early => ?_⟩
    · rw [List.map_cons, List.foldr_cons, made, same, made']
    · obtain ⟨early, earlyOthers⟩ := List.forall_mem_cons.1 early
      have before := kept limit earlyOthers
      exact before.trans (seam.kept i (early _ _ place) before.clean String.toList_ofList String.toList_ofList)

end

end MonoTap.Java
