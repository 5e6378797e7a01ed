import MonoTap.Proofs.SkippedTokens
import MonoTap.Proofs.SortedImports

/-!
# Texts that begin with a byte order mark

Imports are put in before the byte order mark of a text that declares neither a package nor an import. There
the mark is a stray token, and is skipped. So the text declares these imports, and no others.
-/

set_option autoImplicit false

namespace MonoTap.Java

open Grammar (ruleOf program)
open Rule (Derives Reads)
open Text (Source)

variable {mark : Char} {cs block : List Char} {names : List String} {n n' : Node} {ns ns' others : List Node}
  {source source' : Source} {text : String}

/-! ### The mark inside a text -/

theorem eq_of_isMarked {chars : List Char} (h : isMarked chars = true) : ∃ cs, chars = '\uFEFF' :: cs := by
  cases chars with
  | nil => cases h
  | cons c cs =>
    have code : (c.toNat == 0xFEFF) = true := by
      rw [isMarked] at h
      simpa using h
    have same : c = '\uFEFF' := Char.toNat_inj.1 (eq_of_beq code)
    exact ⟨cs, congrArg (· :: cs) same⟩

/-- A byte order mark inside a text is stray. -/
theorem scan_byteOrderMark (cs : List Char) : scan '\uFEFF' cs = (.token .stray, 0) := by
  have marks : (longMarks.find? fun mark => mark.toList.isPrefixOf ('\uFEFF' :: cs)) = none := by
    rw [List.find?_eq_none]
    have other : ∀ mark ∈ longMarks, mark.toList ≠ [] ∧ mark.toList.head? ≠ some '\uFEFF' := by decide
    intro mark mem is
    obtain ⟨nonempty, first⟩ := other mark mem
    cases split : mark.toList with
    | nil => exact nonempty split
    | cons c rest =>
      rw [split] at is first
      rw [List.isPrefixOf, Bool.and_eq_true, beq_iff_eq] at is
      exact first (congrArg some is.1)
  have stray : scanMark '\uFEFF' cs = (.token .stray, 0) := by
    rw [scanMark, marks]
    decide
  have word : isWordStart '\uFEFF' = false := by
    rw [isWordStart, Text.isIdentifierStart, Text.inRanges, ← Array.any_toList]
    decide +kernel
  unfold scan
  split <;> first | rw [word, if_neg Bool.false_ne_true, if_neg (by decide), stray] | simp_all

theorem readTokens_byteOrderMark (offset : Nat) (cs : List Char) : readTokens offset [] [] ('\uFEFF' :: cs) =
    ⟨⟨.stray, "\uFEFF", offset, offset + 3, []⟩ :: (readTokens (offset + 3) [] [] cs).tokens,
      (readTokens (offset + 3) [] [] cs).trailing⟩ := by
  rw [readTokens_token (by decide) (scan_byteOrderMark cs), readTokens_eq]
  rfl

/-! ### What shows of an import -/

/-- A node declares no import if it is of another kind or holds no name. -/
theorem ofNode?_eq_none_iff : ImportDeclaration.ofNode? source n = none ↔
    (n.is .importDeclaration = true →
      ∀ label ∈ n.outline.2, label ≠ .kind .scopedIdentifier ∧ label ≠ .kind .identifier) := by
  have named : dottedName? n = none ↔
      ∀ label ∈ n.outline.2, label ≠ .kind .scopedIdentifier ∧ label ≠ .kind .identifier := by
    rw [dottedName?, List.find?_eq_none]
    constructor
    · intro none label mem
      obtain ⟨c, hc, rfl⟩ := List.mem_map.1 mem
      constructor <;> intro same
      all_goals
        refine none c (List.mem_filter.2 ⟨(List.mem_filter.1 hc).1, ?_⟩) ?_
        · rw [Node.isNamed, same]
        · rw [Node.isAny, List.any_cons, List.any_cons, Node.is, Node.is, same]
          rfl
    · intro none c hc dotted
      obtain ⟨hc, _⟩ := List.mem_filter.1 hc
      have label : c.label = .kind .scopedIdentifier ∨ c.label = .kind .identifier := by
        rw [Node.isAny, List.any_cons, List.any_cons, List.any_nil, Bool.or_false, Bool.or_eq_true, Node.is,
          Node.is, beq_iff_eq, beq_iff_eq] at dotted
        exact dotted
      have counts : c.isExtra = false := by
        rw [Node.isExtra, Node.isComment, Node.is]
        rcases label with label | label <;> rw [label] <;> rfl
      obtain ⟨first, second⟩ := none c.label
        (List.mem_map.2 ⟨c, List.mem_filter.2 ⟨hc, by rw [counts]; rfl⟩, rfl⟩)
      exact label.elim first second
  rw [ImportDeclaration.ofNode?]
  split
  · rename_i is
    rw [Option.map_eq_none_iff, named]
    exact ⟨fun h _ => h, fun h => h is⟩
  · rename_i other
    exact ⟨fun _ is => (other is).elim, fun _ => rfl⟩

theorem writtenIn_eq_nil_iff {cs : List Char} : writtenIn cs ns = [] ↔
    ∀ shown ∈ outlines ns, shown.1 = .kind .importDeclaration →
      ∀ label ∈ shown.2, label ≠ .kind .scopedIdentifier ∧ label ≠ .kind .identifier := by
  rw [writtenIn, List.filterMap_eq_nil_iff]
  have each (n : Node) : writtenBy? cs n = none ↔ (n.is .importDeclaration = true →
      ∀ label ∈ n.outline.2, label ≠ .kind .scopedIdentifier ∧ label ≠ .kind .identifier) := by
    rw [writtenBy?, Option.map_eq_none_iff, ofNode?_eq_none_iff]
  constructor
  · intro none shown mem is
    obtain ⟨n, hn, rfl⟩ := List.mem_map.1 mem
    exact (each n).1 (none n (List.mem_filter.1 hn).1) (beq_iff_eq.2 is)
  · intro none n hn
    refine (each n).2 fun is => none n.outline (List.mem_map.2 ⟨n, List.mem_filter.2 ⟨hn, ?_⟩, rfl⟩) (eq_of_beq is)
    rw [Bool.not_eq_true', ← Bool.not_eq_true]
    intro extra
    rw [Rule.not_is_of_isExtra rfl extra] at is
    cases is

/-- Nodes of which the same shows declare no imports in any text if they declare none in one. -/
theorem writtenIn_eq_nil_of_outlines {cs cs' : List Char} (same : outlines ns = outlines ns')
    (none : writtenIn cs ns = []) : writtenIn cs' ns' = [] :=
  writtenIn_eq_nil_iff.2 (same ▸ writtenIn_eq_nil_iff.1 none)

/-! ### Imports before the mark -/

/-- The declarations of some imports are read in the same way before anything. -/
theorem AreImportsOf.exists_tokens (i : AreImportsOf names block) (offset : Nat) :
    ∃ ts nodes, (∀ back, readTokens offset [] [] (block ++ back) =
      ⟨ts ++ (readTokens (offset + byteLength block) [] [] back).tokens,
        (readTokens (offset + byteLength block) [] [] back).trailing⟩) ∧ ∀ rest, Run rest ts nodes := by
  induction i generalizing offset with
  | nil => exact ⟨[], [], fun _ => rfl, fun _ => .nil⟩
  | @cons name names cs ds first more ih =>
    obtain ⟨place, part, parts, plain, valid, read, _⟩ := first.exists_tokens
    obtain ⟨ts, nodes, read', run⟩ := ih (offset + byteLength cs)
    have declaration := @isDeclaration_importTokens part parts (offset + place) []
      (fun m hm => (List.not_mem_nil hm).elim) plain valid
    refine ⟨_, _, fun back => ?_, fun rest => (declaration.run (ts ++ rest)).append (run rest)⟩
    rw [List.append_assoc, read, read', byteLength_append, Nat.add_assoc, List.append_assoc]
    rfl

theorem AreImportsOf.unmarked (i : AreImportsOf names block) (nonempty : names ≠ []) (back : List Char) :
    isMarked (block ++ back) = false := by
  cases i with
  | nil => exact (nonempty rfl).elim
  | cons first more =>
    rw [List.append_assoc]
    exact first.unmarked _

/-- A text that begins with a byte order mark and declares no imports declares those that are put in before
the mark. -/
theorem writtenImports_of_marked (clean : (CompilationUnit.ofString text).hasSyntaxErrors = false)
    (marked : isMarked text.toList = true) (bare : (CompilationUnit.ofString text).imports = [])
    (i : AreImportsOf names block) (nonempty : names ≠ []) :
    (CompilationUnit.ofString (String.ofList (block ++ text.toList))).writtenImports =
      names.map plainImport := by
  obtain ⟨nodes, reads, imports, _⟩ := exists_nodes_of_clean clean
  obtain ⟨cs, same⟩ := eq_of_isMarked marked
  have nothing : writtenIn text.toList nodes = [] := by
    rw [writtenIn_eq_map, ← imports, bare]
    rfl
  rw [same] at reads nothing ⊢
  have tokens : TokenList.ofChars ('\uFEFF' :: cs) = readTokens 3 [] [] cs := rfl
  rw [tokens] at reads
  -- blanks in the place of the mark make a text without faults
  have plain (offset : Nat) : readTokens offset [] [] ("   ".toList ++ cs) = readTokens (offset + 3) [] [] cs :=
    readTokens_blanks (List.all_eq_true.1 rfl) cs
  have blank : Declares ("   ".toList ++ cs) [] := by
    refine ⟨nodes, ?_, writtenIn_eq_nil_of_outlines rfl nothing⟩
    rw [ofChars_eq rfl, plain]
    exact reads
  obtain ⟨ts, own, read, run⟩ := i.exists_tokens 0
  have whole (back : List Char) : TokenList.ofChars (block ++ back) =
      ⟨ts ++ (readTokens (byteLength block) [] [] back).tokens,
        (readTokens (byteLength block) [] [] back).trailing⟩ := by
    rw [ofChars_eq (i.unmarked nonempty back), read, Nat.zero_add]
  have alone : Derives ruleOf program [] (TokenList.ofChars block).tokens own := by
    have tokens := congrArg TokenList.tokens (whole [])
    rw [List.append_nil, readTokens, List.reverse_nil, List.append_nil] at tokens
    rw [tokens]
    exact (run []).derives
  obtain ⟨others, rest, shown⟩ : ∃ others,
      Reads ruleOf program [] (readTokens (byteLength block + 3) [] [] cs).tokens (some (others, [])) ∧
        writtenIn (block ++ ("   ".toList ++ cs)) others = [] := by
    obtain ⟨⟨mid, placed, _⟩, _⟩ := stands_ofChars (block ++ ("   ".toList ++ cs))
    rw [whole] at placed
    obtain ⟨cut, _, later⟩ := placed.of_append
    have continues : Continues ("   ".toList ++ cs) [] := by
      obtain ⟨nodes, reads, written⟩ := blank
      exact ⟨nodes, by rwa [ofChars_eq rfl] at reads, written⟩
    obtain ⟨others, rest, shown⟩ :=
      (continues_iff (fun m hm => (List.not_mem_nil hm).elim) later).1 continues
    exact ⟨others, by rwa [plain] at rest, shown⟩
  have declared : writtenIn block own = names.map plainImport := by
    have seam : Seam [] ("   ".toList ++ cs) [] := ⟨opens_nil, fun _ => rfl, [], rfl, fun _ _ => .nil⟩
    obtain ⟨all, reads, written⟩ := seam.declaresAll i blank
    rw [List.nil_append, whole, plain] at reads
    obtain ⟨rfl, _⟩ := Prod.mk.inj (Option.some.inj (reads.unique ((run _).reads rest)))
    rw [List.nil_append, writtenIn_append, shown, List.append_nil, writtenIn_front alone, List.append_nil] at written
    exact written
  -- the mark itself is skipped
  have marks := whole ('\uFEFF' :: cs)
  rw [readTokens_byteOrderMark] at marks
  obtain ⟨⟨mid, placed, _⟩, loose⟩ := stands_ofChars (block ++ '\uFEFF' :: cs)
  rw [marks] at placed loose
  have extras : ∀ t ∈ (readTokens (byteLength block + 3) [] [] cs).tokens, ∀ m ∈ t.extras, m.isExtra = true :=
    fun t ht m hm => ((placed.proper t (List.mem_append_right _ (List.mem_cons_of_mem _ ht))).loose m hm).extra
  obtain ⟨others', trailing, tree, same', trailing'⟩ := exists_tree_of_stray rfl (congrArg TokenList.tokens marks)
    run rest (fun m hm => (List.not_mem_nil hm).elim) extras fun m hm => (loose m (by rwa [marks] at hm)).extra
  have parsed : parse (String.ofList (block ++ '\uFEFF' :: cs)).toList =
      rootOver .program (own ++ others' ++ trailing) := by
    rw [String.toList_ofList]
    exact tree
  rw [writtenImports_eq parsed, String.toList_ofList, writtenIn_append, writtenIn_append, writtenIn_front alone,
    declared, writtenIn_eq_nil_of_outlines same'.symm shown, writtenIn_of_extras trailing', List.append_nil,
    List.append_nil]

end MonoTap.Java
