import MonoTap.Proofs.ImportPlaces
import MonoTap.Proofs.NotedComments

/-!
# Kept declarations

What the declaration of an import that is put in at a seam leaves as it is: the text stays without faults,
and the package is the same. A package before that place stays where it is; if all imports come after it,
they still do.
-/

set_option autoImplicit false

namespace MonoTap.Java

open Grammar (ruleOf program beforeDeclaration)
open Rule (Derives Reads)
open Text (Source encodeChars)

variable {cs cs' front back inserted : List Char} {n : Node} {ns ms nodes : List Node} {e : Relocation}
  {name : String} {part : List Char} {parts : List (List Char)} {offset place least : Nat} {k : Kind}
  {written : List WrittenImport} {comments : List Node} {p : PackageDeclaration}

/-! ### Packages -/

/-- The package that a node of a text declares, if it declares one. -/
def packageAt (cs : List Char) (n : Node) : PackageDeclaration :=
  ⟨((dottedName? n).map (Node.text (sourceOf cs))).getD "", n.stop⟩

/-- The packages that some nodes of a text declare. -/
def packagesIn (cs : List Char) (ns : List Node) : List PackageDeclaration :=
  (ns.filter (·.is .packageDeclaration)).map (packageAt cs)

theorem packagesIn_append (cs : List Char) (ns ms : List Node) :
    packagesIn cs (ns ++ ms) = packagesIn cs ns ++ packagesIn cs ms := by
  rw [packagesIn, List.filter_append, List.map_append, packagesIn, packagesIn]

theorem packagesIn_of_others (others : ∀ n ∈ ns, n.is .packageDeclaration = false) : packagesIn cs ns = [] := by
  rw [packagesIn, List.filter_eq_nil_iff.2 fun n hn => by rw [others n hn]; exact Bool.false_ne_true]
  rfl

/-- The package of a unit is the first one that the nodes at the top of its tree declare. -/
theorem package_eq {text : String} (same : parse text.toList = rootOver k ns) :
    (CompilationUnit.ofString text).package = (packagesIn text.toList ns).head? := by
  have named : (ns.filter Node.isNamed).filter (·.is .packageDeclaration) =
      ns.filter (·.is .packageDeclaration) := by
    rw [List.filter_filter]
    refine List.filter_congr fun n _ => ?_
    cases is : n.is .packageDeclaration with
    | true =>
      rw [Node.isNamed, eq_of_beq is]
      rfl
    | false => rfl
  show packageOf? (Source.ofString text) (parse text.toList) = _
  rw [ofString_eq_sourceOf, same, packageOf?, Node.ofKind?, Node.namedChildren, ← List.head?_filter, packagesIn,
    List.head?_map]
  exact congrArg (fun ns : List Node => ns.head?.map _) named

/-- Packages keep their names where the texts inside their declarations stay the same. -/
theorem map_name_packagesIn_relocateAll
    (same : ∀ n ∈ ns, n.is .packageDeclaration = true → ∀ m ∈ n.children,
      (sourceOf cs').textOf (e.start m.start) (e.stop m.stop) = (sourceOf cs).textOf m.start m.stop) :
    (packagesIn cs' (Node.relocateAll e ns)).map (·.name) = (packagesIn cs ns).map (·.name) := by
  rw [packagesIn, Node.filter_relocateAll fun n => Node.is_relocate n _,
    Node.relocateAll_of_kept fun n hn => Node.not_drops_of_is (List.mem_filter.1 hn).2 rfl, packagesIn,
    List.map_map, List.map_map, List.map_map]
  refine List.map_congr_left fun n hn => ?_
  obtain ⟨mem, is⟩ := List.mem_filter.1 hn
  have text : (dottedName? (n.relocate e)).map (Node.text (sourceOf cs')) =
      (dottedName? n).map (Node.text (sourceOf cs)) := by
    rw [dottedName?_relocate_eq, Option.map_map]
    refine Option.map_congr fun m found => ?_
    have inside := Node.mem_children_of_mem_namedChildren (List.mem_of_find?_eq_some found)
    rw [Function.comp_apply, Node.text, Node.start_relocate, Node.stop_relocate]
    exact same n mem is m inside
  exact congrArg (·.getD "") text

/-! ### What is read after a place -/

/-- What is read after a place is read on its own as the same, counted from there. -/
theorem reads_beyond {text : List Char} {lo hi : Nat}
    (early : ∀ m ∈ comments, m.isComment = true ∧ m.start < place)
    (placed : TokensPlaced (Solid text) lo (readTokens place comments [] back).tokens hi)
    (h : Reads ruleOf program [] (readTokens place comments [] back).tokens (some (nodes, []))) :
    Reads ruleOf program [] (readTokens 0 [] [] back).tokens
      (some (Node.relocateAll (.beyond place) nodes, [])) := by
  have own : (readTokens place comments [] back).tokens.map (Token.relocate (.beyond place)) =
      (readTokens 0 [] [] back).tokens := congrArg TokenList.tokens (readTokens_beyond early back)
  have late : ∀ t ∈ (readTokens place comments [] back).tokens, place ≤ t.start :=
    fun t ht => (fresh_readTokens (Nat.le_refl _) (fun t ht => by cases ht) t ht).start
  rw [← own]
  have read := readProgram_relocate (e := .beyond place) ⟨keeps_beyond placed late, placed.proper⟩
  have complete := complete?_relocate (e := .beyond place) (readProgram (readTokens place comments [] back).tokens)
  rw [← read, complete?_eq_some_iff.2 h] at complete
  exact complete?_eq_some_iff.1 complete

theorem keeps_ahead (width : Nat) (ts : List Token) : ts.IsChain (Relocation.ahead width).Keeps := by
  induction ts with
  | nil => exact .nil
  | cons t ts ih =>
    cases ts with
    | nil => exact .singleton t
    | cons u ts =>
      refine List.isChain_cons_cons.2 ⟨fun _ => ?_, ih⟩
      rw [Token.adheres, Token.adheres, Token.relocate, Token.relocate, Node.relocateAll_of_kept fun _ _ => rfl,
        List.isEmpty_map]
      refine congrArg (· && u.extras.isEmpty) ?_
      rw [Bool.eq_iff_iff, beq_iff_eq, beq_iff_eq]
      show u.start + width = t.stop + width ↔ _
      omega

/-- What is read on its own is read as the same further on. -/
theorem reads_ahead (place : Nat)
    (h : Reads ruleOf program [] (readTokens 0 [] [] back).tokens (some (nodes, []))) :
    Reads ruleOf program [] (readTokens place [] [] back).tokens
      (some (Node.relocateAll (.ahead place) nodes, [])) := by
  obtain ⟨⟨mid, placed, _⟩, _⟩ : (readTokens 0 [] [] back).Stands back :=
    stands_readTokens (List.nil_append back).symm rfl (.nil (Nat.le_refl 0)) (.nil (Nat.zero_le _)) fun m hm => (List.not_mem_nil hm).elim
  have read := readProgram_relocate (e := .ahead place) ⟨keeps_ahead place _, placed.proper⟩
  have complete := complete?_relocate (e := .ahead place) (readProgram (readTokens 0 [] [] back).tokens)
  rw [← read, complete?_eq_some_iff.2 h] at complete
  rw [readTokens_ahead]
  exact complete?_eq_some_iff.1 complete

/-! ### The node of an import -/

theorem hasError_dottedNode {scope : Node} (h : scope.hasError = false) :
    (dottedNode scope offset parts).hasError = false := by
  induction parts generalizing scope offset with
  | nil => exact h
  | cons part parts ih =>
    refine ih ?_
    rw [← Bool.not_eq_true, Node.hasError_iff]
    rintro (own | ⟨m, hm, fault⟩)
    · cases own
    · rw [scopedName] at hm
      simp only [Node.children, List.mem_cons, List.not_mem_nil, or_false] at hm
      rcases hm with rfl | rfl | rfl
      · rw [Node.hasError_withRole, h] at fault
        cases fault
      · cases fault
      · cases fault

theorem hasError_importNode (offset : Nat) (part : List Char) (parts : List (List Char)) :
    (importNode offset part parts).hasError = false := by
  rw [← Bool.not_eq_true, Node.hasError_iff]
  rintro (own | ⟨m, hm, fault⟩)
  · cases own
  · rw [importNode] at hm
    simp only [Node.children, List.mem_cons, List.not_mem_nil, or_false] at hm
    rcases hm with rfl | rfl | rfl
    · cases fault
    · rw [importedName, hasError_dottedNode rfl] at fault
      cases fault
    · cases fault

/-! ### An import between two parts of a text -/

/-- The nodes of a text into which an import is put: those before it stay, those after it are moved, and
between them there are the import and the comments before it. -/
structure Put (front inserted back : List Char) (before rest added : List Node) : Prop where
  whole : parse (front ++ back) = rootOver .program (before ++ rest)
  result : parse (front ++ (inserted ++ back)) = rootOver .program (before ++ (added ++
    Node.relocateAll (.ahead (byteLength (front ++ inserted))) (Node.relocateAll (.beyond (byteLength front)) rest)))
  first : Derives ruleOf program [] (TokenList.ofChars front).tokens before
  late : ∀ n ∈ rest, n.isExtra = false → byteLength front ≤ n.start
  own : ∀ n ∈ added, n.hasError = false ∧ n.is .packageDeclaration = false ∧
    (n.is .importDeclaration = true → byteLength front ≤ n.start)

theorem Seam.exists_put (h : Seam front back written) (i : IsImportOf name inserted)
    (clean : (parse (front ++ back)).hasError = false) :
    ∃ before rest added, Put front inserted back before rest added := by
  obtain ⟨nodes, complete, whole⟩ := exists_complete clean
  have reads := complete?_eq_some_iff.1 complete
  obtain ⟨⟨mid, placed, _⟩, loose⟩ := stands_ofChars (front ++ back)
  rw [h.ofChars_append] at reads placed whole loose
  obtain ⟨cut, _, later⟩ := placed.of_append
  obtain ⟨before, _, run⟩ := h.run
  obtain ⟨more, rfl, after⟩ := (run _ id).exists_others reads
  have early := early_trailing front
  have alone := reads_beyond early later after
  have trailing : Node.relocateAll (.beyond (byteLength front)) (readAfter front back).trailing =
      (readTokens 0 [] [] back).trailing := congrArg TokenList.trailing (readTokens_beyond early back)
  -- the import is read between the two parts
  obtain ⟨place, part, parts, plain, valid, read, _⟩ := i.exists_tokens
  have extras : ∀ m ∈ (TokenList.ofChars front).trailing, m.isExtra = true := fun m hm =>
    ((stands_ofChars front).loose m hm).extra
  have declaration := @isDeclaration_importTokens part parts (byteLength front + place)
    (TokenList.ofChars front).trailing extras plain valid
  have read' : readAfter front (inserted ++ back) =
      ⟨importTokens (byteLength front + place) (TokenList.ofChars front).trailing part parts ++
        (readTokens (byteLength (front ++ inserted)) [] [] back).tokens,
        (readTokens (byteLength (front ++ inserted)) [] [] back).trailing⟩ := by
    rw [readAfter, read, List.reverse_reverse, byteLength_append]
  have run' := run (readAfter front (inserted ++ back)).tokens fun _ => i.admits _ _ back
  have tokens := congrArg TokenList.tokens (h.put i).ofChars_append
  rw [read'] at run' tokens
  have all := run'.reads ((declaration.run _).reads (reads_ahead (byteLength (front ++ inserted)) alone))
  dsimp only at tokens all
  rw [← tokens] at all
  have result := parse_of_complete (complete?_eq_some_iff.2 all)
  have trailing' : (TokenList.ofChars (front ++ (inserted ++ back))).trailing =
      Node.relocateAll (.ahead (byteLength (front ++ inserted))) (readTokens 0 [] [] back).trailing := by
    rw [(h.put i).ofChars_append, read']
    exact congrArg TokenList.trailing (readTokens_ahead _ back)
  refine ⟨before, more ++ (readAfter front back).trailing,
    (TokenList.ofChars front).trailing ++ [importNode (byteLength front + place) part parts],
    by rw [whole, List.append_assoc], ?_, (run _ id).derives, ?_, ?_⟩
  · rw [result, trailing', Node.relocateAll_append, trailing, Node.relocateAll_append, List.append_assoc,
      List.append_assoc]
  · intro n hn counts
    rcases List.mem_append.1 hn with hn | hn
    · have late : ∀ t ∈ (readAfter front back).tokens, byteLength front ≤ t.start := fun t ht =>
        (fresh_readTokens (Nat.le_refl _) (fun t ht => by cases ht) t ht).start
      exact (derives_of_reads_all after).le_start later.proper late (fun m hm => (List.not_mem_nil hm).elim) n hn
        counts
    · rw [(loose n hn).extra] at counts
      cases counts
  · refine List.forall_mem_append.2 ⟨fun m hm => ?_, List.forall_mem_singleton.2 ?_⟩
    · have comment := (early m (List.mem_reverse.2 hm)).1
      refine ⟨Node.hasError_of_comment comment ((stands_ofChars front).loose m hm).children,
        Rule.not_is_of_isExtra rfl (extras m hm), fun is => ?_⟩
      rw [Rule.not_is_of_isExtra rfl (extras m hm)] at is
      cases is
    · exact ⟨hasError_importNode _ part parts, rfl, fun _ => Nat.le_add_right _ place⟩

namespace Put

variable {before rest added : List Node} (h : Put front inserted back before rest added)
include h

/-- The text with the import has no faults either. -/
theorem clean (clean : (parse (front ++ back)).hasError = false) :
    (parse (front ++ (inserted ++ back))).hasError = false := by
  have faultless : hasFault (before ++ rest) = false := by
    rw [← Bool.not_eq_true]
    intro fault
    have whole := hasError_rootOver (k := .program) fault
    rw [← h.whole, clean] at whole
    cases whole
  rw [hasFault_append, Bool.or_eq_false_iff] at faultless
  have leaf : ∀ n ∈ Node.preorderAll rest, (Relocation.beyond (byteLength front)).drops n = true →
      n.children = [] := by
    intro n hn dropped
    obtain ⟨top, htop, inside⟩ := Node.mem_preorderAll.1 hn
    have mem : top ∈ (parse (front ++ back)).children := by
      rw [h.whole]
      exact List.mem_append_right _ htop
    exact ((Node.belongs_of_mem_parse clean mem).inside inside).comment_leaf
      ((Relocation.beyond _).comment n dropped)
  have kept {e : Relocation} {ns : List Node} (leaf : ∀ n ∈ Node.preorderAll ns, e.drops n = true → n.children = [])
      (fault : hasFault (Node.relocateAll e ns) = true) : hasFault ns = true :=
    hasFault_of_relocateAll (Node.relocateAll_still _).symm leaf (fun _ _ dropped => by cases dropped) fault
  rw [h.result, ← Bool.not_eq_true, Node.hasError_iff]
  rintro (own | ⟨n, hn, fault⟩)
  · cases own
  · rcases List.mem_append.1 hn with hn | hn
    · have := List.any_eq_true.2 ⟨n, hn, fault⟩
      exact Bool.false_ne_true (faultless.1.symm.trans this)
    · rcases List.mem_append.1 hn with hn | hn
      · rw [(h.own n hn).1] at fault
        cases fault
      · have moved := kept (fun _ _ dropped => by cases dropped) (List.any_eq_true.2 ⟨n, hn, fault⟩)
        exact Bool.false_ne_true (faultless.2.symm.trans (kept leaf moved))

theorem packagesIn_before (back' : List Char) :
    packagesIn (front ++ back') before = packagesIn front before := by
  obtain ⟨⟨mid, placed, trailing⟩, _⟩ := stands_ofChars front
  have nodesPlaced := placed_of_derives h.first placed
  have bound := trailing.le
  rw [← byteLength_eq] at bound
  refine List.map_congr_left fun n hn => ?_
  obtain ⟨_, inside, _, stop⟩ := nodesPlaced.of_mem (List.mem_filter.1 hn).1
  have text : (dottedName? n).map (Node.text (sourceOf (front ++ back'))) =
      (dottedName? n).map (Node.text (sourceOf front)) := by
    refine Option.map_congr fun m found => textOf_front ?_ back'
    have := (inside.of_mem (Node.mem_children_of_mem_namedChildren (List.mem_of_find?_eq_some found))).2.2.2
    omega
  rw [packageAt, text, packageAt]

theorem packagesIn_added (cs : List Char) : packagesIn cs added = [] :=
  packagesIn_of_others fun n hn => (h.own n hn).2.1

/-- The packages have the same names. -/
theorem map_name_packagesIn (clean : (parse (front ++ back)).hasError = false) :
    (packagesIn (front ++ (inserted ++ back)) (before ++ (added ++ Node.relocateAll
        (.ahead (byteLength (front ++ inserted))) (Node.relocateAll (.beyond (byteLength front)) rest)))).map
          (·.name) =
      (packagesIn (front ++ back) (before ++ rest)).map (·.name) := by
  have alone : (packagesIn back (Node.relocateAll (.beyond (byteLength front)) rest)).map (·.name) =
      (packagesIn (front ++ back) rest).map (·.name) := by
    refine map_name_packagesIn_relocateAll fun n hn is m hm => (textOf_back ?_ _ _).symm
    have counts : n.isExtra = false := by
      rw [← Bool.not_eq_true]
      intro extra
      rw [Rule.not_is_of_isExtra rfl extra] at is
      cases is
    have mem : n ∈ (parse (front ++ back)).children := by
      rw [h.whole]
      exact List.mem_append_right _ hn
    have first := h.late n hn counts
    have := ((Node.belongs_of_mem_parse clean mem).placed.of_mem hm).1
    omega
  have moved : (packagesIn (front ++ inserted ++ back) (Node.relocateAll (.ahead (byteLength (front ++ inserted)))
        (Node.relocateAll (.beyond (byteLength front)) rest))).map (·.name) =
      (packagesIn back (Node.relocateAll (.beyond (byteLength front)) rest)).map (·.name) := by
    refine map_name_packagesIn_relocateAll fun n _ _ m _ => ?_
    have text := textOf_back (Nat.le_add_left (byteLength (front ++ inserted)) m.start)
      (m.stop + byteLength (front ++ inserted)) back
    rwa [Nat.add_sub_cancel, Nat.add_sub_cancel] at text
  rw [packagesIn_append, packagesIn_append, packagesIn_append, h.packagesIn_before, h.packagesIn_before,
    h.packagesIn_added, List.nil_append, ← List.append_assoc, List.map_append, List.map_append, moved, alone]

/-- A package that ends before the import stays the first one. -/
theorem head?_packagesIn (clean : (parse (front ++ back)).hasError = false)
    (found : (packagesIn (front ++ back) (before ++ rest)).head? = some p) (early : p.stop ≤ byteLength front)
    (others : List Node) : (packagesIn (front ++ (inserted ++ back)) (before ++ others)).head? = some p := by
  rw [packagesIn_append, h.packagesIn_before] at found ⊢
  cases first : packagesIn front before with
  | cons q qs =>
    rw [first] at found
    exact found
  | nil =>
    rw [first, List.nil_append] at found
    obtain ⟨n, hn, rfl⟩ := List.mem_map.1 (List.mem_of_mem_head? found)
    obtain ⟨mem, is⟩ := List.mem_filter.1 hn
    have counts : n.isExtra = false := by
      rw [← Bool.not_eq_true]
      intro extra
      rw [Rule.not_is_of_isExtra rfl extra] at is
      cases is
    have top : n ∈ (parse (front ++ back)).children := by
      rw [h.whole]
      exact List.mem_append_right _ mem
    have late := h.late n mem counts
    have wide := (Node.belongs_of_mem_parse clean top).spans.wide
    have stop : n.stop ≤ byteLength front := early
    omega

end Put

/-- What does not change when imports are put into a text, none of them before a place. -/
structure Kept (least : Nat) (text result : String) : Prop where
  clean : (CompilationUnit.ofString result).hasSyntaxErrors = false
  comments : (CompilationUnit.ofString result).commentTexts = (CompilationUnit.ofString text).commentTexts
  marked : isMarked result.toList = isMarked text.toList
  package : (CompilationUnit.ofString result).package.map (·.name) =
    (CompilationUnit.ofString text).package.map (·.name)
  order : ∀ p, (CompilationUnit.ofString text).package = some p → p.stop ≤ least →
    (∀ d ∈ (CompilationUnit.ofString text).imports, p.stop ≤ d.start) →
    (CompilationUnit.ofString result).package = some p ∧
      ∀ d ∈ (CompilationUnit.ofString result).imports, p.stop ≤ d.start

theorem Kept.refl {text : String} (clean : (CompilationUnit.ofString text).hasSyntaxErrors = false) :
    Kept least text text :=
  ⟨clean, rfl, rfl, rfl, fun _ found _ order => ⟨found, order⟩⟩

theorem Kept.mono {text result : String} {limit : Nat} (h : Kept least text result) (le : limit ≤ least) :
    Kept limit text result :=
  ⟨h.clean, h.comments, h.marked, h.package, fun p found early => h.order p found (Nat.le_trans early le)⟩

theorem Kept.trans {text mid result : String} (first : Kept least text mid) (second : Kept least mid result) :
    Kept least text result where
  clean := second.clean
  comments := second.comments.trans first.comments
  marked := second.marked.trans first.marked
  package := second.package.trans first.package
  order p found early order := by
    obtain ⟨found', order'⟩ := first.order p found early order
    exact second.order p found' early order'

theorem ofNode?_start {source source' : Source} {n : Node} {d : ImportDeclaration}
    (h : ImportDeclaration.ofNode? source n = some d) :
    ∃ d', ImportDeclaration.ofNode? source' n = some d' ∧ d'.start = d.start := by
  obtain ⟨is, start, _⟩ := place_of_ofNode? h
  rw [ImportDeclaration.ofNode?, if_pos is] at h ⊢
  obtain ⟨name, found, rfl⟩ := Option.map_eq_some_iff.1 h
  rw [found]
  exact ⟨_, rfl, rfl⟩

/-- One import is put in at a seam. -/
theorem Seam.kept {text result : String} (h : Seam front back written) (i : IsImportOf name inserted)
    (late : least ≤ byteLength front) (clean : (CompilationUnit.ofString text).hasSyntaxErrors = false)
    (here : text.toList = front ++ back) (there : result.toList = front ++ (inserted ++ back)) :
    Kept least text result := by
  have whole : (parse (front ++ back)).hasError = false := here ▸ clean
  obtain ⟨before, rest, added, put⟩ := h.exists_put i whole
  have clean' : (CompilationUnit.ofString result).hasSyntaxErrors = false := by
    show (parse result.toList).hasError = false
    rw [there]
    exact put.clean whole
  have same := put.whole
  have same' := put.result
  rw [← here] at same
  rw [← there] at same'
  have package := package_eq same
  have package' := package_eq same'
  have imports := imports_eq same
  have imports' := imports_eq same'
  rw [here] at package
  rw [there] at package'
  refine ⟨clean', ?_, ?_, ?_, fun p found early order => ?_⟩
  · rw [commentTexts_ofString clean', commentTexts_ofString clean, here, there,
      commentTexts_put h.opens h.unmarked i]
  · rw [here, there]
    cases front with
    | nil => exact (i.unmarked back).trans (h.unmarked rfl).symm
    | cons c front => rfl
  · rw [package, package', ← List.head?_map, ← List.head?_map, put.map_name_packagesIn whole]
  · rw [package] at found
    refine ⟨package'.trans (put.head?_packagesIn whole found (Nat.le_trans early late) _), fun d hd => ?_⟩
    rw [imports', List.filterMap_append, List.filterMap_append] at hd
    rcases List.mem_append.1 hd with hd | hd
    · obtain ⟨n, hn, known⟩ := List.mem_filterMap.1 hd
      obtain ⟨d', known', start⟩ := ofNode?_start known
      rw [← start]
      refine order d' ?_
      rw [imports, List.filterMap_append]
      exact List.mem_append_left _ (List.mem_filterMap.2 ⟨n, hn, known'⟩)
    · rcases List.mem_append.1 hd with hd | hd
      · obtain ⟨n, hn, known⟩ := List.mem_filterMap.1 hd
        obtain ⟨is, start, _⟩ := place_of_ofNode? known
        have := (put.own n hn).2.2 is
        omega
      · obtain ⟨n, hn, known⟩ := List.mem_filterMap.1 hd
        obtain ⟨_, start, _⟩ := place_of_ofNode? known
        obtain ⟨m, _, _, rfl⟩ := Node.mem_relocateAll.1 hn
        rw [Node.start_relocate] at start
        have moved : d.start = m.start + byteLength (front ++ inserted) := start
        rw [byteLength_append] at moved
        omega

end MonoTap.Java
