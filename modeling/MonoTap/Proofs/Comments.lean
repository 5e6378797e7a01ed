import MonoTap.Proofs.Lexemes
import MonoTap.Proofs.Partition
import MonoTap.Proofs.Passage

/-!
# Comments in a callback

A comment in a callback is in a leaf of it, or in a guard that gives way to its branches and outside
those. In a leaf it is in one piece, and passes into the listener with it. Beside the branches of a
guard it is in no piece.
-/

set_option autoImplicit false

namespace MonoTap.Callback

open Java (Node Solid)
open Text (Source)

variable {text : List Char} {source : Source} {p : Parameters} {r : Resolution} {n g block : Node}

theorem isNamed_of_isComment (h : n.isComment = true) : n.isNamed = true := by
  rw [Node.isComment] at h
  rw [Node.isNamed]
  split at h
  · rfl
  · cases h

/-- A node beside the branches of a statement that gives way to them. -/
structure Beside (p : Parameters) (r : Resolution) (g n : Node) : Prop where
  splits : p.splits r g = true
  inside : n ∈ Node.preorderAll g.children
  outside : ∀ part ∈ [Java.Role.consequence, .alternative], ∀ branch,
    g.child? part = some branch → n ∉ branch.preorder

theorem branchNodes_of_not_block {part : Java.Role} {branch : Node}
    (found : g.child? part = some branch) (other : branch.is .block = false) :
    branchNodes g part = [branch] := by
  rw [branchNodes, found]
  dsimp only
  rw [other, if_neg Bool.false_ne_true]

theorem branchNodes_of_block {part : Java.Role} {branch : Node}
    (found : g.child? part = some branch) (is : branch.is .block = true) :
    branchNodes g part = branch.namedChildren := by
  rw [branchNodes, found]
  dsimp only
  rw [is, if_pos rfl]

/-- A comment in a branch is in one of its nodes. -/
theorem exists_branchNode_of_comment (h : g.Belongs text) {part : Java.Role} {branch : Node}
    (found : g.child? part = some branch) (inside : n ∈ branch.preorder)
    (comment : n.isComment = true) : ∃ leaf ∈ branchNodes g part, n ∈ leaf.preorder := by
  cases is : branch.is .block with
  | false =>
    rw [branchNodes_of_not_block found is]
    exact ⟨branch, List.mem_singleton_self branch, inside⟩
  | true =>
    rw [branchNodes_of_block found is]
    have belongs := h.child (Node.mem_children_of_child? found)
    refine belongs.exists_mem_namedChildren ?_ (isNamed_of_isComment comment)
    rw [Node.preorder_eq] at inside
    rcases List.mem_cons.1 inside with rfl | inside
    · have label : n.label = .kind .block := eq_of_beq is
      rw [Node.isComment, label] at comment
      cases comment
    · exact inside

/-- A comment in a callback is in a leaf, or beside the branches of a guard. -/
theorem leaf_or_beside (h : block.Belongs text) (inside : n ∈ Node.preorderAll block.children)
    (comment : n.isComment = true) :
    (∃ leaf ∈ leafNodes p r block, n ∈ leaf.preorder) ∨
      ∃ g ∈ block.namedChildren, Beside p r g n := by
  obtain ⟨c, hc, hn⟩ := h.exists_mem_namedChildren inside (isNamed_of_isComment comment)
  have belongs := h.child (Node.mem_children_of_mem_namedChildren hc)
  have leaf {m : Node} (hm : m ∈ leafNodesAt p r c) (inner : n ∈ m.preorder) :
      ∃ leaf ∈ leafNodes p r block, n ∈ leaf.preorder :=
    ⟨m, List.mem_flatMap.2 ⟨c, hc, hm⟩, inner⟩
  cases splits : p.splits r c with
  | false => exact Or.inl (leaf (leafNodesAt_eq_self splits ▸ List.mem_singleton_self c) hn)
  | true =>
    have deeper : n ∈ Node.preorderAll c.children := by
      rw [Node.preorder_eq] at hn
      rcases List.mem_cons.1 hn with rfl | hn
      · rw [splits_of_isComment comment] at splits
        cases splits
      · exact hn
    by_cases held : ∃ part ∈ [Java.Role.consequence, .alternative], ∃ branch,
        c.child? part = some branch ∧ n ∈ branch.preorder
    · obtain ⟨part, hpart, branch, found, hn⟩ := held
      obtain ⟨m, hm, inner⟩ := exists_branchNode_of_comment belongs found hn comment
      refine Or.inl (leaf (m := m) ?_ inner)
      rw [leafNodesAt, splits, if_pos rfl, List.mem_append]
      simp only [List.mem_cons, List.not_mem_nil, or_false] at hpart
      rcases hpart with rfl | rfl
      · exact Or.inl hm
      · exact Or.inr hm
    · exact Or.inr ⟨c, hc, splits, deeper, fun part hpart branch found hn =>
        held ⟨part, hpart, branch, found, hn⟩⟩

/-! ### Slots beside comments -/

/-- The slots that a slot stands for lie in it. -/
theorem leafSlotsAt_inside (h : block.Belongs text) {s u : Slot} (hu : u ∈ slotsOf source r block)
    (hs : s ∈ leafSlotsAt source p r u) : u.start ≤ s.start ∧ s.stop ≤ u.stop := by
  rw [leafSlotsAt] at hs
  split at hs
  · cases List.mem_singleton.1 hs
    exact ⟨Nat.le_refl _, Nat.le_refl _⟩
  · rename_i n statement
    split at hs
    · rename_i splits
      obtain ⟨test, guard⟩ := Option.isSome_iff_exists.1 (isGuard_of_splits splits)
      have mem := statement_of_mem_slotsOf hu statement
      have belongs := h.child (Node.mem_children_of_mem_namedChildren mem)
      obtain ⟨first, others, holds, _, _⟩ := (grouped_slotsOf source block).group_of_mem
        (h.placed.sublist List.filter_sublist)
        (fun m hm => h.child (Node.mem_children_of_mem_namedChildren hm)) hu
      obtain ⟨_, _, span⟩ := holds.eq_of_guard statement guard
      rw [Slot.span, Prod.mk.injEq] at span
      have inBranch {part : Java.Role} (hs : s ∈ branchSlots source r n part) :
          n.start ≤ s.start ∧ s.stop ≤ n.stop := by
        obtain ⟨low, high, lower, upper, placed⟩ := placed_branch belongs part
        have bounds := ((grouped_branchSlots belongs part).spans placed fun m hm =>
          belongs.inside_children (mem_children_of_mem_branchNodes hm)).1 s hs
        omega
      rw [span.1, span.2]
      exact (List.mem_append.1 hs).elim inBranch inBranch
    · cases List.mem_singleton.1 hs
      exact ⟨Nat.le_refl _, Nat.le_refl _⟩

/-- The slots of a branch are apart from what stands beside the branches. -/
theorem Beside.branchSlots_apart (h : Beside p r g n) (belongs : g.Belongs text) {part : Java.Role}
    (hpart : part ∈ [Java.Role.consequence, .alternative]) {s : Slot}
    (hs : s ∈ branchSlots source r g part) : s.stop ≤ n.start ∨ n.stop ≤ s.start := by
  cases found : g.child? part with
  | none =>
    rw [branchSlots, found] at hs
    cases hs
  | some branch =>
    have child := Node.mem_children_of_child? found
    have bounds := ((grouped_branchSlots belongs part).spans (placed_branchNodes belongs found)
      fun m hm => belongs.inside_children (mem_children_of_mem_branchNodes hm)).1 s hs
    obtain ⟨c, hc, hn⟩ := Node.mem_preorderAll.1 h.inside
    have range := (belongs.child hc).bounds hn
    rcases belongs.placed.apart hc child with rfl | before | after
    · exact (h.outside part hpart c found hn).elim
    · omega
    · omega

/-- The slots of a callback are apart from what stands beside the branches of a guard. -/
theorem Beside.leafSlots_apart (h : Beside p r g n) (belongs : block.Belongs text)
    (hg : g ∈ block.namedChildren) {s : Slot} (hs : s ∈ leafSlots source p r block) :
    s.stop ≤ n.start ∨ n.stop ≤ s.start := by
  obtain ⟨u, hu, hs⟩ := List.mem_flatMap.1 hs
  have child := belongs.child (Node.mem_children_of_mem_namedChildren hg)
  have groups := grouped_slotsOf (r := r) source block
  have placed := belongs.placed.sublist (List.filter_sublist (p := Node.isNamed))
  have each : ∀ m ∈ block.namedChildren, m.Belongs text := fun m hm =>
    belongs.child (Node.mem_children_of_mem_namedChildren hm)
  obtain ⟨first, others, holds, _, same⟩ := groups.group_of_mem placed each hu
  have range := (child.bounds (Node.mem_preorder_of_inside g.self_mem_preorder h.inside))
  by_cases here : covers u.span g = true
  · -- the slot is that of the guard
    have statement : u.statement = some g := by
      have mem : g ∈ (first :: others).filter (!·.isComment) := by
        refine List.mem_filter.2 ⟨same ▸ List.mem_filter.2 ⟨hg, here⟩, ?_⟩
        cases comment : g.isComment with
        | false => rfl
        | true => exact absurd h.splits (by rw [splits_of_isComment comment]; exact Bool.false_ne_true)
      rw [holds.statement] at mem
      exact Option.mem_toList.1 mem
    rw [leafSlotsAt, statement] at hs
    dsimp only at hs
    rw [h.splits, if_pos rfl] at hs
    rcases List.mem_append.1 hs with hs | hs
    · exact h.branchSlots_apart child (by decide) hs
    · exact h.branchSlots_apart child (by decide) hs
  · obtain ⟨before, v, after, split, low, high⟩ := groups.exists_slot placed hg
    have inside := leafSlotsAt_inside belongs hu hs
    have ordered := (groups.spans placed each).2
    rw [split] at ordered hu
    obtain ⟨_, later, earlier⟩ := List.pairwise_append.1 ordered
    rcases List.mem_append.1 hu with hu | hu
    · have := earlier u hu v List.mem_cons_self
      omega
    · rcases List.mem_cons.1 hu with rfl | hu
      · exact (here (covers_iff.2 ⟨low, high⟩)).elim
      · have := (List.pairwise_cons.1 later).1 u hu
        omega

end MonoTap.Callback

namespace MonoTap

open Callback (Beside leafNodes)
open Java (CompilationUnit Node)
open Listener (carriedThrough)
open Text (Source allBlank encodeChars splitAt trim trimRight)

/-! ### Comments of a text -/

/-- The characters of a comment of a text. -/
theorem Java.exists_comment {text : String}
    (clean : (CompilationUnit.ofString text).hasSyntaxErrors = false) {n : Node}
    (inText : n ∈ Node.preorderAll (Java.parse text.toList).children)
    (comment : n.isComment = true) :
    ∃ front c cs back, text.toList = front ++ ((c :: cs) ++ back) ∧
      n.start = (encodeChars front).length ∧ n.stop = n.start + (encodeChars (c :: cs)).length ∧
      Text.isBlank c = false ∧ Text.EndsSolid (c :: cs) := by
  obtain ⟨k, label, is⟩ : ∃ k, n.label = .kind k ∧ k.isComment = true := by
    rw [Node.isComment] at comment
    split at comment
    · rename_i k label
      exact ⟨k, label, comment⟩
    · cases comment
  have scanned : Scanned text.toList (.comment k) n.start n.stop :=
    (scans_of_mem_parse clean inText).lexeme _ (by rw [label, Label.lexeme?, if_pos is])
  exact scanned.exists_chars fun same => by cases same

/-! ### Comments in a listener -/

/-- A comment in the callback of a converted site is in one piece if it is in a leaf, and is apart from
all pieces if it is beside the branches of a guard. If it is in a leaf of each callback around it, what
the site is replaced by holds its lines, but for the blanks at their ends. -/
theorem convert_carries_comments (settings : Settings) (file text : String)
    (clean : (CompilationUnit.ofString text).hasSyntaxErrors = false) (valid : settings.Valid)
    (inLine : '\n' ∉ settings.indent.toList) :
    let u := CompilationUnit.ofString text
    let newline := (Text.newlineOf u.source.toBytes).toList
    ∃ ts done, Run settings u.source.toBytes (begun u file) ts done ∧
      ts.map Turn.site = innermostFirst (callSites u file).1 ∧
      (∀ t ∈ ts, t.outcome.converted = true ↔
        ∃ elementType, t.site.elementType = .ok elementType) ∧
      ∀ t ∈ ts, ∀ replacement, t.outcome.result = .ok replacement →
        ∃ parameters block pieces, t.Makes settings u file parameters block pieces ∧
          ∀ n ∈ Node.preorderAll block.children, n.isComment = true →
            ((∃ leaf ∈ leafNodes t.site.parameters (scopeOf u parameters block) block,
                n ∈ leaf.preorder) ∧
              (pieces.filter (·.slot.carries n.start n.stop)).length = 1 ∨
            (∃ g ∈ block.namedChildren,
                Beside t.site.parameters (scopeOf u parameters block) g n) ∧
              ∀ q ∈ pieces, q.slot.stop ≤ n.start ∨ n.stop ≤ q.slot.start) ∧
            (Held file text ts t.site n →
              ∃ comment moves, u.source.slice n.start n.stop = encodeChars comment ∧
                Passage settings file text ts n.start n.stop t moves ∧
                carriedThrough newline moves (trimRight comment) <:+: replacement.text.toList ∧
                (splitAt '\n' (carriedThrough newline moves (trimRight comment))).map trim =
                  (splitAt '\n' comment).map trim) := by
  intro u newline
  obtain ⟨ts, done, course⟩ := exists_course clean settings file
  refine ⟨ts, done, course.run, course.sites, fun t ht => (course.settled t ht).converted_iff, ?_⟩
  intro t ht replacement result
  have edit : t.edit? = some (t.site.edit replacement.text) :=
    Turn.edit?_eq_some_iff.2 ⟨replacement, result, rfl⟩
  obtain ⟨parameters, block, pieces, makes⟩ := (course.settled t ht).exists_pieces edit
  obtain ⟨call, isSite⟩ := makes.site
  have belongs := isSite.belongs clean
  refine ⟨parameters, block, pieces, makes, fun n inBlock comment => ⟨?_, fun held => ?_⟩⟩
  · rcases Callback.leaf_or_beside (p := t.site.parameters) (r := scopeOf u parameters block)
      belongs inBlock comment with ⟨leaf, hleaf, inLeaf⟩ | ⟨g, hg, beside⟩
    · left
      have inner := belongs.inside_children (Callback.mem_preorder_of_mem_leafNodes hleaf)
      have range := inner.bounds inLeaf
      obtain ⟨q, carrier⟩ := makes.exists_carrier clean hleaf (inner.inside inLeaf).spans.wide
        range.1 range.2
      exact ⟨⟨leaf, hleaf, inLeaf⟩, by rw [carrier]; rfl⟩
    · right
      refine ⟨⟨g, hg, beside⟩, fun q hq => ?_⟩
      have slot : q.slot ∈ pieces.map Piece.slot := List.mem_map_of_mem hq
      rw [makes.dealt.slots] at slot
      exact beside.leafSlots_apart belongs hg slot
  · have inText : n ∈ Node.preorderAll (Java.parse text.toList).children := by
      obtain ⟨c, hc, inTree⟩ :=
        Node.mem_preorderAll.1 (isCall_of_mem_eligibleCalls clean isSite.eligible).2
      refine Node.mem_preorderAll.2 ⟨c, hc, ?_⟩
      exact Node.mem_preorder_of_inside (Node.mem_preorder_of_inside inTree isSite.inside) inBlock
    obtain ⟨front, c, cs, back, split, start, stop, opens, solid⟩ :=
      Java.exists_comment clean inText comment
    have bounds := isSite.bounds clean
    have range := belongs.placed.bounds inBlock
    obtain ⟨moves, passes⟩ := course.exists_passes clean inText
      ((belongs.inside_children inBlock).comment_leaf comment) ht (Turn.converted_of_edit edit) held
      (by omega) (by omega)
    -- blanks at the end of a comment are not carried
    obtain ⟨blanks, trimmed⟩ := Text.prefix_trimRight (c :: cs)
    have split' : text.toList = front ++ (trimRight (c :: cs) ++ (blanks ++ back)) := by
      rw [split, ← List.append_assoc (trimRight _), trimmed]
    have size := congrArg (fun l => (encodeChars l).length) trimmed
    simp only [Text.encodeChars_append, List.length_append] at size
    obtain ⟨e, before, after, made, same⟩ := course.exists_of_passes clean valid passes ht split'
      start (by omega) (Listener.tight_trimRight opens cs)
    rw [edit] at made
    cases made
    have starts := course.of_mem_passes (P := fun c => Text.isBlank c = true ∧ c ≠ '\n')
      (fun c indent => ⟨Text.isBlank_of_isIndent indent, by rintro rfl; cases indent⟩)
      (fun c hc => ⟨List.all_eq_true.1 valid.indentBlank c hc, fun feed => inLine (feed ▸ hc)⟩)
      passes ht
    refine ⟨c :: cs, moves, ?_, passes, ⟨before, after, ?_⟩, ?_⟩
    · rw [show u.source = Source.ofString text from rfl, Source.slice_eq, Source.toBytes_ofString,
        Text.encode_eq, split]
      exact Text.encodeChars_between start stop
    · rw [List.append_assoc]
      exact same.symm
    · rw [Listener.map_trim_carriedThrough (toList_newlineOf_cases _), solid.map_trim_trimRight]
      intro move hmove
      exact ⟨List.all_eq_true.2 fun c hc => (starts move hmove c hc).1,
        fun mem => (starts move hmove '\n' mem).2 rfl⟩

/-- A comment in a branch of a guard, and one between the branches. -/
def commentedText : String :=
  "package reactor.core.publisher;\nclass C \x7b\n  void f(Mono<String> m) \x7b\n" ++
  "    m.doAfterSuccessOrError((v, e) -> \x7b\n      if (v != null) \x7b\n        // kept\n" ++
  "        g(v);\n      \x7d // lost\n      else h(e);\n    \x7d);\n  \x7d\n\x7d\n"

set_option maxRecDepth 100000 in
theorem convert_carries_comment_in_branch :
    let u := CompilationUnit.ofString commentedText
    u.hasSyntaxErrors = false ∧ Settings.Valid default ∧ '\n' ∉ (Settings.indent default).toList ∧
      ∃ site ∈ (callSites u "C.java").1, ∃ replacement : Replacement, ∃ comment moved,
        u.source.slice 140 147 = encodeChars comment ∧ moved <:+: replacement.text.toList ∧
        (splitAt '\n' moved).map trim = (splitAt '\n' comment).map trim := by
  intro u
  have quick : u = .ofCharsOf commentedText := CompilationUnit.ofString_eq_ofCharsOf _
  obtain ⟨clean, known, alone, held⟩ : u.hasSyntaxErrors = false ∧
      (callSites u "C.java").1.map (·.elementType.isOk) = [true] ∧
      (eligibleCalls u).length = 1 ∧ (eligibleCalls u).all (fun call =>
        (callbackParts u.source (callbackOf call.node)).toOption.any fun parts =>
          (leafNodes (parametersOf parts.1) (scopeOf u parts.1 parts.2) parts.2).any fun leaf =>
            leaf.preorder.any fun n => n.isComment && n.start == 140 && n.stop == 147) = true := by
    rw [quick]
    decide +kernel
  have valid : Settings.Valid default := Settings.valid_default
  have inLine : '\n' ∉ (Settings.indent default).toList := by decide +kernel
  obtain ⟨site, single⟩ := List.length_eq_one_iff.1
    (show (callSites u "C.java").1.length = 1 by rw [← List.length_map, known]; rfl)
  have listed : site ∈ (callSites u "C.java").1 := single ▸ List.mem_singleton_self site
  have ok : site.elementType.isOk = true :=
    List.mem_singleton.1 (known ▸ List.mem_map_of_mem listed)
  refine ⟨clean, valid, inLine, site, listed, ?_⟩
  obtain ⟨ts, done, _, same, converted, carries⟩ :=
    convert_carries_comments default "C.java" commentedText clean valid inLine
  obtain ⟨t, ht, rfl, replacement, result⟩ := exists_turn same converted listed ok
  obtain ⟨parameters, block, pieces, makes, each⟩ := carries t ht replacement result
  obtain ⟨call, isSite⟩ := makes.site
  have found := List.all_eq_true.1 held call isSite.eligible
  rw [isSite.parts] at found
  obtain ⟨leaf, hleaf, found⟩ := List.any_eq_true.1 found
  obtain ⟨n, inLeaf, place⟩ := List.any_eq_true.1 found
  simp only [Bool.and_eq_true, beq_iff_eq] at place
  obtain ⟨⟨comment, start⟩, stop⟩ := place
  have parametersSame : t.site.parameters = parametersOf parameters := by
    rw [isSite.same]
    rfl
  have inBlock : n ∈ Node.preorderAll block.children := by
    obtain ⟨c, hc, hm⟩ := Node.mem_preorderAll.1 (Callback.mem_preorder_of_mem_leafNodes hleaf)
    exact Node.mem_preorderAll.2 ⟨c, hc, Node.mem_preorder_trans hm inLeaf⟩
  have inside : Held "C.java" commentedText ts t.site n := by
    intro _ _ _ _ _ _ _ _ _ _ otherSite
    obtain ⟨rfl, rfl, site⟩ := isSite.unique alone otherSite
    rw [← site, parametersSame]
    exact ⟨leaf, hleaf, inLeaf⟩
  obtain ⟨comment, moves, slice, _, infixed, lines⟩ := (each n inBlock comment).2 inside
  rw [start, stop] at slice
  exact ⟨replacement, comment, _, slice, infixed, lines⟩

end MonoTap
