import MonoTap.Proofs.Insertions

/-!
# What a conversion leaves alone

A conversion changes a text where it inserts imports and where it replaces calls, and nowhere else.
It comes to a result unless an import is inserted inside a call that is replaced; this can happen to
a call in an annotation of the package.
-/

set_option autoImplicit false

namespace MonoTap

open Imports (IsPlace)
open Java (CompilationUnit Cursor Node Placed Solid)
open Text (Edit Source Spliced encode inOrder)

/-- Whether the declarations of the package and the imports come before every other node at the top
of a text, comments aside. -/
def DeclarationsFirst (u : CompilationUnit) : Prop :=
  u.root.namedChildren.Pairwise fun a b =>
    isDeclaration b = true → a.isComment = true ∨ isDeclaration a = true

/-- A replacement comes from a turn whose site is that of an eligible call. -/
theorem exists_of_mem_replacements {settings : Settings} {u : CompilationUnit} {file : String}
    {ts : List Turn} (settled : ∀ t ∈ ts, t.IsSettled settings u file) {e : Edit}
    (h : e ∈ replacements ts) :
    ∃ t ∈ ts, t.edit? = some e ∧ ∃ call parameters block, IsSite u file call parameters block t.site ∧
      e.start = callStart call.node ∧ e.stop = call.node.stop := by
  obtain ⟨t, ht, edit⟩ := List.mem_filterMap.1 h
  obtain ⟨call, parameters, block, isSite, _⟩ := settled t ht
  refine ⟨t, ht, edit, call, parameters, block, isSite, ?_⟩
  obtain ⟨r, _, rfl⟩ := Turn.edit?_eq_some_iff.1 edit
  exact ⟨congrArg Int.ofNat isSite.start, congrArg Int.ofNat isSite.stop⟩

section

variable {text : String} (clean : (CompilationUnit.ofString text).hasSyntaxErrors = false)
include clean

/-- The node at the top of a text that a call is in. -/
theorem exists_topNode {call : Cursor}
    (eligible : call ∈ eligibleCalls (CompilationUnit.ofString text)) :
    ∃ c ∈ (Java.parse text.toList).namedChildren, c.isComment = false ∧
      c.start ≤ callStart call.node ∧ call.node.stop ≤ c.stop := by
  obtain ⟨isCall, inside⟩ := isCall_of_mem_eligibleCalls clean eligible
  obtain ⟨c, hc, hcall⟩ := Node.mem_preorderAll.1 inside
  have belongs := Node.belongs_of_mem_parse clean hc
  have bounds := belongs.bounds hcall
  have own := isCall.spans.2
  obtain ⟨named, noComment⟩ := (Callback.isContent_of_isCall isCall).named
  have kind : c.isNamed = true ∧ c.isComment = false := by
    rw [Node.preorder_eq] at hcall
    rcases List.mem_cons.1 hcall with same | deeper
    · exact same ▸ ⟨named, noComment⟩
    · have full : c.children ≠ [] := by
        intro empty
        rw [empty] at deeper
        cases deeper
      refine ⟨?_, ?_⟩
      · obtain ⟨k, r, label, _⟩ := belongs.made.inside full
        rw [Node.isNamed, label]
      · cases comment : c.isComment with
        | false => rfl
        | true => exact (full (belongs.comment_leaf comment)).elim
  exact ⟨c, List.mem_filter.2 ⟨hc, kind.1⟩, kind.2, by omega, bounds.2⟩

/-- An insertion that falls inside a call is at the start of a line, and the call is in a declaration
of the package or an import. -/
theorem exists_of_cuts (first : DeclarationsFirst (CompilationUnit.ofString text)) {call : Cursor}
    (eligible : call ∈ eligibleCalls (CompilationUnit.ofString text)) {offset : Nat}
    (place : IsPlace (Source.ofString text) (.ofUnit (CompilationUnit.ofString text)) offset)
    (after : callStart call.node < offset) (before : offset < call.node.stop) :
    ∃ d ∈ (Java.parse text.toList).namedChildren, isDeclaration d = true ∧
      d.start ≤ callStart call.node ∧ call.node.stop ≤ d.stop := by
  obtain ⟨c, hc, noComment, start, stop⟩ := exists_topNode clean eligible
  have placed : Placed (Solid text.toList) 0 (Java.parse text.toList).namedChildren
      (Text.encodeChars text.toList).length :=
    (Java.placed_parse clean).sublist List.filter_sublist
  have wide {n : Node} (hn : n ∈ (Java.parse text.toList).namedChildren) : n.start < n.stop :=
    (Node.belongs_of_mem_parse clean (Node.mem_children_of_mem_namedChildren hn)).spans.wide
  have notAtEnd {n : Node} (hn : n ∈ (Java.parse text.toList).namedChildren)
      (atEnd : offset = n.stop) : False := by
    have := wide hn
    rcases placed.apart hn hc with rfl | earlier | later <;> omega
  cases place with
  | opening => omega
  | afterPackage known =>
    obtain ⟨n, hn, _, atEnd⟩ := exists_of_package known
    exact (notAtEnd hn atEnd).elim
  | afterImport known =>
    obtain ⟨n, hn, _, _, atEnd⟩ := exists_of_mem_imports known
    exact (notAtEnd hn atEnd).elim
  | @beforeImport d known =>
    obtain ⟨n, hn, declares, atStart, _⟩ := exists_of_mem_imports known
    have spans := (Node.belongs_of_mem_parse clean (Node.mem_children_of_mem_namedChildren hn)).spans
    have earlier := (Text.boundary_lineStart (atStart ▸ spans.first)).2
    obtain ⟨front, back, split⟩ := List.append_of_mem hn
    have first : (Java.parse text.toList).namedChildren.Pairwise fun a b =>
        isDeclaration b = true → a.isComment = true ∨ isDeclaration a = true := first
    rw [split] at hc placed first
    rcases List.mem_append.1 hc with inFront | rest
    · have across := (List.pairwise_append.1 first).2.2 c inFront n List.mem_cons_self
      rcases across declares with comment | declaration
      · rw [noComment] at comment
        cases comment
      · exact ⟨c, split ▸ hc, declaration, start, stop⟩
    · rcases List.mem_cons.1 rest with rfl | inBack
      · exact ⟨c, hn, declares, start, stop⟩
      · obtain ⟨mid, _, placed⟩ := placed.of_append
        cases placed with
        | cons _ _ _ later =>
          have := (later.of_mem inBack).1
          have := spans.wide
          omega

/-- An insertion is not after the nodes that come after all declarations of the package and the
imports. -/
theorem le_of_isPlace {offset : Nat}
    (place : IsPlace (Source.ofString text) (.ofUnit (CompilationUnit.ofString text)) offset)
    {n : Node} (after : ∀ d ∈ (Java.parse text.toList).namedChildren, isDeclaration d = true →
      d.stop ≤ n.start) : offset ≤ n.start := by
  cases place with
  | opening => exact Nat.zero_le _
  | afterPackage known =>
    obtain ⟨d, hd, declares, atEnd⟩ := exists_of_package known
    exact atEnd ▸ after d hd declares
  | afterImport known =>
    obtain ⟨d, hd, declares, _, atEnd⟩ := exists_of_mem_imports known
    exact atEnd ▸ after d hd declares
  | beforeImport known =>
    obtain ⟨d, hd, declares, atStart, _⟩ := exists_of_mem_imports known
    have spans := (Node.belongs_of_mem_parse clean (Node.mem_children_of_mem_namedChildren hd)).spans
    have earlier := (Text.boundary_lineStart (atStart ▸ spans.first)).2
    have wide := spans.wide
    have := after d hd declares
    omega

end

section

variable {settings : Settings} {file text : String} {ts : List Turn} {done : Progress}
  (course : Course settings file text ts done)
  (clean : (CompilationUnit.ofString text).hasSyntaxErrors = false)
  (first : DeclarationsFirst (CompilationUnit.ofString text))
include course clean first

/-- A conversion comes to a result if no call that is replaced stands in a declaration of the package
or an import. -/
theorem Course.exists_of_edits_outside (outside : ∀ e ∈ done.edits,
    ∀ d ∈ (CompilationUnit.ofString text).root.namedChildren, isDeclaration d = true →
      e.within d.start d.stop = false) :
    ∃ conversion, convert settings file text = .ok conversion := by
  refine course.possible.2 fun i hi e he cuts => ?_
  obtain ⟨offset, inserted, rfl, place, _⟩ := exists_of_mem_insertions clean course.table hi
  obtain ⟨t, ht, _, call, parameters, block, isSite, start, stop⟩ :=
    exists_of_mem_replacements course.settled (mem_topmost.1 (course.after ▸ he)).1
  have left : e.start < offset := cuts.1
  have right : (offset : Int) < e.stop := cuts.2
  obtain ⟨d, hd, declares, first, last⟩ :=
    exists_of_cuts clean first isSite.eligible place (by omega) (by omega)
  have inside : e.within d.start d.stop = true := by
    rw [Edit.within, Bool.and_eq_true, decide_eq_true_eq, decide_eq_true_eq]
    omega
  rw [outside e he d hd declares] at inside
  cases inside

theorem Course.exists_of_sites_outside (outside : ∀ site ∈
    (callSites (CompilationUnit.ofString text) file).1,
    ∀ d ∈ (CompilationUnit.ofString text).root.namedChildren, isDeclaration d = true →
      d.stop < site.stop) :
    ∃ conversion, convert settings file text = .ok conversion := by
  refine course.exists_of_edits_outside clean first fun e he d hd declares => ?_
  obtain ⟨t, ht, edit⟩ := List.mem_filterMap.1 (mem_topmost.1 (course.after ▸ he)).1
  obtain ⟨r, _, rfl⟩ := Turn.edit?_eq_some_iff.1 edit
  have after := outside t.site (List.mem_mergeSort.1 (course.sites ▸ List.mem_map_of_mem ht)) d hd
    declares
  rw [Edit.within, Bool.and_eq_false_iff, decide_eq_false_iff_not, decide_eq_false_iff_not]
  exact Or.inr (Int.not_le.2 (Int.ofNat_lt.2 after))

end

/-- A call in a class after a package and an import. -/
def importedText : String :=
  "package a;\n\nimport reactor.core.publisher.Mono;\n\nclass C \x7b\n" ++
  "  Mono<String> f(Mono<String> m) \x7b\n" ++
  "    return m.doAfterSuccessOrError((v, e) -> \x7b h(v, e); \x7d);\n  \x7d\n\x7d\n"

set_option maxRecDepth 100000 in
/-- The text is parsed once for all that is read off it. -/
theorem read_importedText :
    let u := CompilationUnit.ofString importedText
    u.hasSyntaxErrors = false ∧ DeclarationsFirst u ∧ (eligibleCalls u).length = 1 ∧
      ∀ file ∈ ["C.java", "src/C.java"],
        (callSites u file).1.map (fun s => (s.elementType.toOption.isSome,
          u.root.namedChildren.all fun d => !isDeclaration d || d.stop < s.stop)) =
            [(true, true)] := by
  rw [CompilationUnit.ofString_eq_ofCharsOf]
  unfold DeclarationsFirst
  decide +kernel

end MonoTap
