import MonoTap.Proofs.Insertions
import MonoTap.Proofs.TextSeams

/-!
# Places of imports

The places at which imports are put in are seams of the text: the line of a declared import if only blanks
stand before it there, the end of such a declaration, the end of the declaration of the package, and the
beginning of the text.
-/

set_option autoImplicit false

namespace MonoTap.Text

/-- Only blanks stand before an offset in its line. -/
def Source.BeginsLine (s : Source) (offset : Nat) : Prop :=
  ∀ c ∈ (s.textOf (s.lineStart offset) offset).toList, isBlank c = true

instance (s : Source) (offset : Nat) : Decidable (s.BeginsLine offset) :=
  decidable_of_iff ((s.textOf (s.lineStart offset) offset).toList.all isBlank = true) List.all_eq_true

end MonoTap.Text

namespace MonoTap.Java

open Grammar (ruleOf topLevel program beforeDeclaration)
open Rule (Derives Reads)
open Text (Boundary Source isBlank)

variable {text : String} {chars : List Char} {nodes earlier later : List Node} {n : Node} {k : Kind} {offset : Nat}

/-- The characters up to an offset whose line begins with blanks. -/
theorem exists_line_of_boundary (h : Boundary 0 text.toList offset)
    (begins : (Source.ofString text).BeginsLine offset) :
    ∃ front blanks back, text.toList = front ++ (blanks ++ back) ∧ AreLines front ∧
      (∀ c ∈ blanks, isBlank c = true) ∧ (Source.ofString text).lineStart offset = byteLength front ∧
      offset = byteLength (front ++ blanks) := by
  obtain ⟨before, back, split, rfl⟩ := h
  obtain ⟨front, line, rfl, inLine, lines⟩ := Text.exists_lastLine before
  have start := Text.lineStart_eq split inLine lines
  rw [← byteLength_eq, ← byteLength_eq] at start
  rw [Nat.zero_add, ← byteLength_eq] at begins ⊢
  rw [List.append_assoc] at split
  refine ⟨front, line, back, split, lines, ?_, start, rfl⟩
  have blank := textOf_middle front line back
  rw [← split, ← ofString_eq_sourceOf, ← byteLength_append] at blank
  rwa [Source.BeginsLine, start, blank, String.toList_ofList] at begins

/-! ### Declarations among the constructs of a text -/

/-- The tokens of a text around a declaration of an import or of the package, with what is read before
it. -/
structure DeclaredAt (chars : List Char) (earlier : List Node) (n : Node) (ts us rest : List Token)
    (before inside : List Node) : Prop where
  split : (TokenList.ofChars chars).tokens = ts ++ (us ++ rest)
  seam : IsSeam ts before
  declaration : IsDeclaration us inside
  same : writtenIn chars before = writtenIn chars earlier
  own : writtenIn chars (before ++ inside) = writtenIn chars (earlier ++ [n])
  ends : ∃ us' t, us = us' ++ [t] ∧ t.reads ";" = true ∧ n.stop = t.stop

theorem exists_declaredAt (h : Reads ruleOf program [] (TokenList.ofChars chars).tokens (some (nodes, [])))
    (split : nodes = earlier ++ n :: later) (is : n.is k = true) (declares : k ∈ Grammar.declarations) :
    ∃ ts us rest before inside, DeclaredAt chars earlier n ts us rest before inside ∧
      (k = .importDeclaration → ∃ t us', us = t :: us' ∧ n.start = t.start) := by
  obtain ⟨ts, us, rest, before, own, further, others, tokens, rfl, rfl, nonempty, run, reads, _⟩ :=
    exists_run h split
  have mem : n ∈ own ++ n :: further := List.mem_append_right _ List.mem_cons_self
  obtain ⟨⟨mid, placed, _⟩, _⟩ := stands_ofChars chars
  have proper : ∀ t ∈ us ++ rest, t.Proper := fun t ht =>
    placed.proper t (tokens ▸ List.mem_append_right _ ht)
  have proper' : ∀ t ∈ us, t.Proper := fun t ht => proper t (List.mem_append_left _ ht)
  have plain {t : Token} (ht : t ∈ ts ++ (us ++ rest)) : t.Plain :=
    (fresh_ofChars chars t (tokens ▸ ht)).plain
  have declaration := isDeclaration_of_mem reads
    (fun t ht => plain (List.mem_append_right _ (List.mem_append_left _ ht))) proper mem is declares
  have typed := declaration.reads rest
  obtain ⟨extras, rfl⟩ := alone_of_declaration typed proper' is declares
  have none : writtenIn chars own = [] := writtenIn_of_extras extras
  have same : writtenIn chars before = writtenIn chars (before ++ own) := by
    rw [writtenIn_append, none, List.append_nil]
  have ends : ∃ us' t, us = us' ++ [t] ∧ t.reads ";" = true ∧ n.stop = t.stop := by
    rcases Grammar.eq_of_mem_declarations declares with rfl | rfl
    · exact (ends_of_import typed proper' mem is).2
    · exact end_of_package typed proper' mem is
  refine ⟨ts, us, rest, before, own ++ [n], ⟨tokens, ?_, declaration, same, ?_, ends⟩, ?_⟩
  · exact run.isSeam (fun t ht => plain (List.mem_append_left _ ht)) (admits_append declaration.begins rest)
  · rw [List.append_assoc]
  · rintro rfl
    obtain ⟨⟨t, us', rfl, start⟩, _⟩ := ends_of_import typed proper' mem is
    exact ⟨t, us', rfl, start⟩

theorem not_marked_of_token {t : Token} (ht : t ∈ (TokenList.ofChars chars).tokens) (start : t.start = 0) :
    isMarked chars = false := by
  rw [← Bool.not_eq_true]
  intro mark
  cases chars with
  | nil => cases mark
  | cons c cs =>
    have marked : (c.toNat == 0xFEFF) = true := by
      rw [isMarked] at mark
      simpa using mark
    rw [TokenList.ofChars, if_pos marked] at ht
    have := (fresh_readTokens (Nat.le_refl _) (fun t ht => (List.not_mem_nil ht).elim) t ht).start
    have := Char.utf8Size_pos c
    omega

/-- Before the declaration of an import that begins its line. -/
theorem exists_seam_before_node {nodes earlier later : List Node} {n : Node}
    (h : Reads ruleOf program [] (TokenList.ofChars text.toList).tokens (some (nodes, [])))
    (split : nodes = earlier ++ n :: later) (is : n.is .importDeclaration = true)
    (begins : (Source.ofString text).BeginsLine n.start) :
    ∃ front back, text.toList = front ++ back ∧ (Source.ofString text).lineStart n.start = byteLength front ∧
      Seam front back (writtenIn text.toList earlier) := by
  obtain ⟨ts, us, rest, before, inside, at', starts⟩ := exists_declaredAt h split is List.mem_cons_self
  obtain ⟨t, us', rfl, start⟩ := starts rfl
  have fits := fits_ofChars h
  have mem : t ∈ (TokenList.ofChars text.toList).tokens :=
    at'.split ▸ List.mem_append_right _ List.mem_cons_self
  rw [start] at begins ⊢
  obtain ⟨front, blanks, back, whole, lines, blank, lineStart, first⟩ :=
    exists_line_of_boundary (fits.token mem).first begins
  rw [whole] at fits
  have tokens := at'.split
  rw [whole] at tokens
  obtain ⟨opens, early⟩ := opens_of_line fits lines blank tokens first
  refine ⟨front, blanks ++ back, whole, lineStart, ?_⟩
  have unmarked : front = [] → isMarked (blanks ++ back) = false := by
    rintro rfl
    cases blanks with
    | nil =>
      rw [whole] at mem
      exact not_marked_of_token mem first
    | cons c blanks =>
      have space := blank c List.mem_cons_self
      show (c.toNat == 0xFEFF) = false
      rw [beq_eq_false_iff_ne]
      intro mark
      rw [isBlank, mark] at space
      cases space
  have late : ∀ u ∈ t :: us' ++ rest, byteLength front ≤ u.start := by
    rw [byteLength_append] at first
    obtain ⟨_, _, later⟩ := fits.apart tokens
    have wide := (fits.token (whole ▸ mem)).wide
    refine List.forall_mem_cons.2 ⟨by omega, fun u hu => ?_⟩
    have := later u hu
    omega
  have seam := seam_of_run opens unmarked tokens early late fun rest' admits =>
    at'.seam rest' (admits (admits_append at'.declaration.begins rest))
  rwa [← whole, at'.same] at seam

/-- After the declaration of an import or of the package. -/
theorem exists_seam_after_node
    (h : Reads ruleOf program [] (TokenList.ofChars chars).tokens (some (nodes, [])))
    (split : nodes = earlier ++ n :: later) (is : n.is k = true) (declares : k ∈ Grammar.declarations) :
    ∃ front back, chars = front ++ back ∧ n.stop = byteLength front ∧
      Seam front back (writtenIn chars (earlier ++ [n])) := by
  obtain ⟨ts, us, rest, before, inside, at', _⟩ := exists_declaredAt h split is declares
  obtain ⟨us', t, rfl, reads, stop⟩ := at'.ends
  have tokens : (TokenList.ofChars chars).tokens = ts ++ us' ++ t :: rest := by
    rw [at'.split]
    simp
  obtain ⟨g, back, rfl, last, opens, early, late⟩ := exists_opens_of_semicolon (fits_ofChars h) tokens reads
  refine ⟨g ++ [';'], back, rfl, stop.trans last, ?_⟩
  have unmarked : g ++ [';'] = [] → isMarked back = false := fun none =>
    (List.append_ne_nil_of_right_ne_nil g (List.cons_ne_nil _ _) none).elim
  have tokens' : (TokenList.ofChars (g ++ [';'] ++ back)).tokens = ts ++ (us' ++ [t]) ++ rest := by
    exact at'.split.trans (List.append_assoc ..).symm
  rw [← at'.own]
  refine seam_of_run opens unmarked tokens' (by rwa [List.append_assoc] at early) late fun rest' _ => ?_
  exact (at'.seam _ (admits_append at'.declaration.begins rest')).append (at'.declaration.run rest')

/-! ### The declarations of a unit -/

variable {earlierImports laterImports : List ImportDeclaration} {d : ImportDeclaration}

/-- An import that a node declares has the place of the node. -/
theorem place_of_ofNode? {source : Source} (h : ImportDeclaration.ofNode? source n = some d) :
    n.is .importDeclaration = true ∧ d.start = n.start ∧ d.stop = n.stop := by
  rw [ImportDeclaration.ofNode?] at h
  split at h
  · obtain ⟨name, _, rfl⟩ := Option.map_eq_some_iff.1 h
    exact ⟨‹_›, rfl, rfl⟩
  · cases h

theorem writtenIn_eq_map (cs : List Char) (ns : List Node) : writtenIn cs ns =
    (ns.filterMap (ImportDeclaration.ofNode? (sourceOf cs))).map (ImportDeclaration.written (sourceOf cs)) := by
  rw [List.map_filterMap]
  rfl

section

variable (clean : (CompilationUnit.ofString text).hasSyntaxErrors = false)
include clean

/-- The nodes that a text without faults is read as, and its declarations among them. -/
theorem exists_nodes_of_clean : ∃ nodes,
    Reads ruleOf program [] (TokenList.ofChars text.toList).tokens (some (nodes, [])) ∧
      (CompilationUnit.ofString text).imports =
        nodes.filterMap (ImportDeclaration.ofNode? (sourceOf text.toList)) ∧
      ∀ p, (CompilationUnit.ofString text).package = some p →
        ∃ n ∈ nodes, n.is .packageDeclaration = true ∧ p.stop = n.stop := by
  obtain ⟨nodes, complete, same⟩ := exists_complete clean
  have loose := (stands_ofChars text.toList).loose
  refine ⟨nodes, complete?_eq_some_iff.1 complete, ?_, fun p found => ?_⟩
  · have none : (TokenList.ofChars text.toList).trailing.filterMap
        (ImportDeclaration.ofNode? (sourceOf text.toList)) = [] := by
      refine List.filterMap_eq_nil_iff.2 fun m hm => ?_
      rw [ImportDeclaration.ofNode?, Rule.not_is_of_isExtra rfl (loose m hm).extra]
      rfl
    rw [imports_eq same, List.filterMap_append, none, List.append_nil]
  · obtain ⟨n, first, rfl⟩ := Option.map_eq_some_iff.1 found
    have is := List.find?_some first
    have mem : n ∈ (parse text.toList).children :=
      Node.mem_children_of_mem_namedChildren (List.mem_of_find?_eq_some first)
    rw [same] at mem
    rcases List.mem_append.1 mem with mem | mem
    · exact ⟨n, mem, is, rfl⟩
    · rw [Rule.not_is_of_isExtra rfl (loose n mem).extra] at is
      cases is

/-- The node of an import, after the nodes of the imports before it. -/
theorem exists_node_of_import
    (split : (CompilationUnit.ofString text).imports = earlierImports ++ d :: laterImports) :
    ∃ nodes earlier n later,
      Reads ruleOf program [] (TokenList.ofChars text.toList).tokens (some (nodes, [])) ∧
        nodes = earlier ++ n :: later ∧
        earlier.filterMap (ImportDeclaration.ofNode? (sourceOf text.toList)) = earlierImports ∧
        ImportDeclaration.ofNode? (sourceOf text.toList) n = some d ∧
        later.filterMap (ImportDeclaration.ofNode? (sourceOf text.toList)) = laterImports := by
  obtain ⟨nodes, reads, imports, _⟩ := exists_nodes_of_clean clean
  rw [imports] at split
  obtain ⟨first, second, rfl, front, back⟩ := List.filterMap_eq_append_iff.1 split
  obtain ⟨between, n, later, rfl, none, found, rest⟩ := List.filterMap_eq_cons_iff.1 back
  refine ⟨_, first ++ between, n, later, reads, (List.append_assoc ..).symm, ?_, found, rest⟩
  rw [List.filterMap_append, front, List.filterMap_eq_nil_iff.2 none, List.append_nil]

end

/-- A text has a seam at an offset, after a number of its imports. -/
def HasSeam (chars : List Char) (offset count : Nat) : Prop :=
  ∃ front back written, chars = front ++ back ∧ offset = byteLength front ∧ Seam front back written ∧
    written.length = count

theorem hasSeam_start (unmarked : isMarked chars = false) : HasSeam chars 0 0 :=
  ⟨[], chars, [], rfl, rfl, ⟨opens_nil, fun _ => unmarked, [], rfl, fun _ _ => .nil⟩, rfl⟩

section

variable (clean : (CompilationUnit.ofString text).hasSyntaxErrors = false)
  (split : (CompilationUnit.ofString text).imports = earlierImports ++ d :: laterImports)
include clean split

/-- What ends before an import that begins its line ends before the line. -/
theorem stop_le_lineStart (begins : (Source.ofString text).BeginsLine d.start) {start stop : Nat}
    (solid : Solid text.toList start stop) (before : stop ≤ d.start) :
    stop ≤ (Source.ofString text).lineStart d.start := by
  obtain ⟨nodes, earlier, n, later, reads, rfl, _, found, _⟩ := exists_node_of_import clean split
  obtain ⟨is, place, _⟩ := place_of_ofNode? found
  obtain ⟨ts, us, rest, _, _, at', starts⟩ := exists_declaredAt reads rfl is List.mem_cons_self
  obtain ⟨t, us', rfl, first⟩ := starts rfl
  have mem : t ∈ (TokenList.ofChars text.toList).tokens :=
    at'.split ▸ List.mem_append_right _ List.mem_cons_self
  rw [place, first] at begins before ⊢
  obtain ⟨front, blanks, back, whole, lines, blank, lineStart, inLine⟩ :=
    exists_line_of_boundary ((fits_ofChars reads).token mem).first begins
  rw [whole] at solid
  obtain ⟨g, rfl, bound⟩ := solid.before_line lines blank (inLine ▸ before)
  rw [lineStart, byteLength_append]
  omega

theorem hasSeam_before (begins : (Source.ofString text).BeginsLine d.start) :
    HasSeam text.toList ((Source.ofString text).lineStart d.start) earlierImports.length := by
  obtain ⟨nodes, earlier, n, later, reads, same, front, found, _⟩ := exists_node_of_import clean split
  obtain ⟨is, start, _⟩ := place_of_ofNode? found
  rw [start] at begins ⊢
  obtain ⟨first, second, whole, place, seam⟩ := exists_seam_before_node reads same is begins
  refine ⟨first, second, _, whole, place, seam, ?_⟩
  rw [writtenIn_eq_map, front, List.length_map]

theorem hasSeam_after : HasSeam text.toList d.stop (earlierImports.length + 1) := by
  obtain ⟨nodes, earlier, n, later, reads, same, front, found, _⟩ := exists_node_of_import clean split
  obtain ⟨is, _, stop⟩ := place_of_ofNode? found
  rw [stop]
  obtain ⟨first, second, whole, place, seam⟩ := exists_seam_after_node reads same is List.mem_cons_self
  refine ⟨first, second, _, whole, place, seam, ?_⟩
  rw [writtenIn_eq_map, List.filterMap_append, front, List.filterMap_cons_some found, List.length_map,
    List.length_append]
  rfl

/-- An import begins before it ends, and after the imports before it have ended. -/
theorem imports_in_order : d.start ≤ d.stop ∧ Solid text.toList d.start d.stop ∧
    ∀ e ∈ laterImports, d.stop ≤ e.start := by
  obtain ⟨nodes, earlier, n, later, reads, rfl, _, found, rest⟩ := exists_node_of_import clean split
  obtain ⟨is, start, stop⟩ := place_of_ofNode? found
  obtain ⟨⟨mid, placed, _⟩, _⟩ := stands_ofChars text.toList
  obtain ⟨cut, _, after⟩ := (placed_of_derives (derives_of_reads_all reads) placed).of_append
  have mem : n ∈ (parse text.toList).children := by
    rw [parse_of_complete (complete?_eq_some_iff.2 reads)]
    exact List.mem_append_left _ (List.mem_append_right _ List.mem_cons_self)
  have solid := (Node.belongs_of_mem_parse clean mem).spans
  rw [← start, ← stop] at solid
  refine ⟨Nat.le_of_lt solid.wide, solid, fun e he => ?_⟩
  cases after with
  | cons _ _ _ behind =>
    obtain ⟨m, hm, here⟩ := List.mem_filterMap.1 (rest ▸ he)
    rw [stop, (place_of_ofNode? here).2.1]
    exact (behind.of_mem hm).1

end

theorem hasSeam_package (clean : (CompilationUnit.ofString text).hasSyntaxErrors = false)
    (none : (CompilationUnit.ofString text).imports = []) {p : PackageDeclaration}
    (found : (CompilationUnit.ofString text).package = some p) : HasSeam text.toList p.stop 0 := by
  obtain ⟨nodes, reads, imports, package⟩ := exists_nodes_of_clean clean
  obtain ⟨n, mem, is, stop⟩ := package p found
  obtain ⟨earlier, later, rfl⟩ := List.append_of_mem mem
  obtain ⟨first, second, whole, place, seam⟩ :=
    exists_seam_after_node reads rfl is (List.mem_cons_of_mem _ List.mem_cons_self)
  refine ⟨first, second, _, whole, stop ▸ place, seam, ?_⟩
  rw [imports, List.append_cons, List.filterMap_append] at none
  rw [writtenIn_eq_map, (List.append_eq_nil_iff.1 none).1]
  rfl

end MonoTap.Java
