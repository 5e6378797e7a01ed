import MonoTap.Proofs.ImportSeams

/-!
# Declared imports

What a text declares as its imports. A text that is cut at a seam declares what its two parts do, where the
second one is read on its own; so the declaration of a further import can be put in there, and it stands
between the imports of the first part and those of the second one.
-/

set_option autoImplicit false

namespace MonoTap.Java

open Grammar (ruleOf program beforeDeclaration)
open Rule (Derives Reads)
open Text (Source encodeChars)

/-- What an import declares, and how it is written. -/
structure WrittenImport where
  name : String
  isStatic : Bool
  isWildcard : Bool
  text : String
  deriving DecidableEq, Repr

/-- The import as it is written in a source. -/
def ImportDeclaration.written (source : Source) (d : ImportDeclaration) : WrittenImport :=
  ⟨d.name, d.isStatic, d.isWildcard, source.textOf d.start d.stop⟩

/-- The source that holds some characters. -/
def sourceOf (cs : List Char) : Source :=
  .ofBytes (encodeChars cs)

/-- The import that a node of a text declares. -/
def writtenBy? (cs : List Char) (n : Node) : Option WrittenImport :=
  (ImportDeclaration.ofNode? (sourceOf cs) n).map (ImportDeclaration.written (sourceOf cs))

/-- The imports that some nodes of a text declare. -/
def writtenIn (cs : List Char) (ns : List Node) : List WrittenImport :=
  ns.filterMap (writtenBy? cs)

variable {cs cs' front back rest : List Char} {offset n : Nat} {comments nodes ns : List Node} {m : Node}
  {tokens ts : List Token} {e : Relocation} {written others : List WrittenImport}

theorem writtenIn_append (cs : List Char) (ns ms : List Node) :
    writtenIn cs (ns ++ ms) = writtenIn cs ns ++ writtenIn cs ms :=
  List.filterMap_append

theorem writtenBy?_of_isExtra (extra : m.isExtra = true) : writtenBy? cs m = none := by
  rw [writtenBy?, ImportDeclaration.ofNode?, Rule.not_is_of_isExtra rfl extra]
  rfl

theorem writtenIn_of_extras (extras : ∀ m ∈ ns, m.isExtra = true) : writtenIn cs ns = [] :=
  List.filterMap_eq_nil_iff.2 fun m hm => writtenBy?_of_isExtra (extras m hm)

/-! ### Parts of a text -/

theorem textOf_eq (cs : List Char) (start stop : Nat) : (sourceOf cs).textOf start stop =
    String.ofList (Text.decodeLossy (((encodeChars cs).drop start).take (stop - start))) := by
  rw [Source.textOf, Source.slice_eq, sourceOf, Source.toBytes_ofBytes]

/-- What stands in the first part of a text. -/
theorem textOf_front {start stop : Nat} (inside : stop ≤ byteLength front) (back : List Char) :
    (sourceOf (front ++ back)).textOf start stop = (sourceOf front).textOf start stop := by
  rw [byteLength_eq] at inside
  rw [textOf_eq, textOf_eq, Text.encodeChars_append, List.drop_append, List.take_append_of_le_length]
  rw [List.length_drop]
  omega

/-- What stands in the second part of a text. -/
theorem textOf_back {start : Nat} (first : byteLength front ≤ start) (stop : Nat) (back : List Char) : (sourceOf (front ++ back)).textOf start stop =
      (sourceOf back).textOf (start - byteLength front) (stop - byteLength front) := by
  rw [textOf_eq, textOf_eq, Text.encodeChars_append, List.drop_append, byteLength_eq,
    List.drop_eq_nil_of_le (by rwa [← byteLength_eq]), List.nil_append]
  rw [byteLength_eq] at first
  congr 3
  omega

/-- The text between two parts of it. -/
theorem textOf_middle (front middle back : List Char) :
    (sourceOf (front ++ (middle ++ back))).textOf (byteLength front) (byteLength front + byteLength middle) =
      String.ofList middle := by
  rw [textOf_eq, byteLength_eq, byteLength_eq, Text.encodeChars_between rfl rfl,
    Text.decodeLossy_encodeChars]

/-- Whether an import and the nodes inside it read the same in another text, at their new places. -/
def SameTexts (e : Relocation) (cs cs' : List Char) (n : Node) : Prop :=
  n.is .importDeclaration = true → ∀ m, m = n ∨ m ∈ n.children →
    (sourceOf cs').textOf (e.start m.start) (e.stop m.stop) = (sourceOf cs).textOf m.start m.stop

theorem writtenBy?_relocate {n : Node} (same : SameTexts e cs cs' n) :
    writtenBy? cs' (n.relocate e) = writtenBy? cs n := by
  cases is : n.is .importDeclaration with
  | false =>
    rw [writtenBy?, ImportDeclaration.ofNode?, Node.is_relocate, is, writtenBy?, ImportDeclaration.ofNode?, is]
    rfl
  | true =>
    have name : ∀ name, dottedName? n = some name →
        (name.relocate e).text (sourceOf cs') = name.text (sourceOf cs) := by
      intro name found
      rw [Node.text, Node.start_relocate, Node.stop_relocate]
      exact same is name (.inr (Node.mem_children_of_mem_namedChildren (List.mem_of_find?_eq_some found)))
    rw [writtenBy?, ofNode?_relocate_of_text name, Option.map_map, writtenBy?]
    refine Option.map_congr fun d found => ?_
    have place : d.start = n.start ∧ d.stop = n.stop := by
      rw [ImportDeclaration.ofNode?, if_pos is] at found
      obtain ⟨name, _, rfl⟩ := Option.map_eq_some_iff.1 found
      exact ⟨rfl, rfl⟩
    have whole := same is n (.inl rfl)
    rw [← place.1, ← place.2] at whole
    exact congrArg (WrittenImport.mk d.name d.isStatic d.isWildcard) whole

theorem writtenIn_relocateAll (same : ∀ n ∈ ns, SameTexts e cs cs' n) :
    writtenIn cs' (Node.relocateAll e ns) = writtenIn cs ns := by
  refine Node.filterMap_relocateAll (fun n _ dropped => ?_) fun n hn => writtenBy?_relocate (same n hn)
  exact writtenBy?_of_isExtra (by rw [Node.isExtra, e.comment n dropped, Bool.true_or])

/-! ### Relocations -/

mutual

theorem Node.relocate_still (n : Node) : n.relocate .still = n := by
  cases n with
  | mk label role start stop children =>
    rw [relocate, relocateAll_still children]
    rfl

theorem Node.relocateAll_still (ns : List Node) : relocateAll .still ns = ns := by
  cases ns with
  | nil => rfl
  | cons n ns =>
    rw [relocateAll_cons rfl, relocate_still n, relocateAll_still ns]

end

theorem TokenList.relocate_still (l : TokenList) : l.relocate .still = l := by
  have each (t : Token) : t.relocate .still = t := by
    rw [Token.relocate, Node.relocateAll_still]
    rfl
  rw [relocate, Node.relocateAll_still, List.map_congr_left fun t _ => each t, List.map_id']

/-- What stands after a place, counted from there. -/
def Relocation.beyond (place : Nat) : Relocation where
  drops n := n.isComment && n.start < place
  start o := o - place
  stop o := o - place
  comment _ dropped := (Bool.and_eq_true_iff.1 dropped).1

/-- What is read after a place does not depend on what stands before it. -/
theorem readTokens_beyond (early : ∀ m ∈ comments, m.isComment = true ∧ m.start < offset) (cs : List Char) :
    (readTokens offset comments [] cs).relocate (.beyond offset) = readTokens 0 [] [] cs := by
  have alike : (Relocation.beyond offset).Alike .still offset 0 (byteLength cs) := by
    refine ⟨fun d _ => ?_, fun d _ _ => ?_, fun d _ k stop stop' => ?_⟩
    · show offset + d - offset = 0 + d
      omega
    · show offset + d - offset = 0 + d
      omega
    · show ((Node.mk (.kind k) none (offset + d) stop []).isComment && decide (offset + d < offset)) = false
      rw [decide_eq_false (by omega), Bool.and_false]
  have none : Node.relocateAll (.beyond offset) comments = Node.relocateAll .still [] := by
    rw [Node.relocateAll_eq, List.filter_eq_nil_iff.2]
    · rfl
    · intro m hm
      obtain ⟨comment, before⟩ := early m hm
      show ¬ (!(m.isComment && decide (m.start < offset))) = true
      rw [comment, decide_eq_true before]
      exact Bool.false_ne_true
  have read : (readTokens offset comments [] cs).relocate (.beyond offset) =
      (readTokens 0 [] [] cs).relocate .still := readTokens_relocate alike none rfl
  rwa [TokenList.relocate_still] at read

theorem keeps_beyond {P : Nat → Nat → Prop} {lo hi place : Nat} (placed : TokensPlaced P lo ts hi)
    (late : ∀ t ∈ ts, place ≤ t.start) : ts.IsChain (Relocation.beyond place).Keeps := by
  induction ts generalizing lo with
  | nil => exact .nil
  | cons t ts ih =>
    cases placed with
    | cons _ _ width _ rest =>
      cases ts with
      | nil => exact .singleton t
      | cons u ts =>
        refine List.isChain_cons_cons.2 ⟨fun _ => ?_, ih rest fun t ht => late t (List.mem_cons_of_mem _ ht)⟩
        have first := late t List.mem_cons_self
        have second := late u (List.mem_cons_of_mem _ List.mem_cons_self)
        cases rest with
        | cons _ extras _ _ _ =>
          have kept : ∀ m ∈ u.extras, (Relocation.beyond place).drops m = false := by
            intro m hm
            have after := (extras.of_mem hm).1
            show (m.isComment && decide (m.start < place)) = false
            rw [decide_eq_false (by omega), Bool.and_false]
          rw [Token.adheres, Token.adheres, Token.relocate, Token.relocate, Node.relocateAll_of_kept kept,
            List.isEmpty_map]
          refine congrArg (· && u.extras.isEmpty) ?_
          rw [Bool.eq_iff_iff, beq_iff_eq, beq_iff_eq]
          show u.start - place = t.stop - place ↔ _
          omega

/-! ### Places of nodes -/

/-- Nodes start where the tokens do from which they are derived. -/
theorem Rule.Derives.le_start {S : Type} {grammar : S → Rule S} {rule : Rule S} {op : List Node} {place : Nat}
    (h : Derives grammar rule op ts nodes) (proper : ∀ t ∈ ts, t.Proper) (late : ∀ t ∈ ts, place ≤ t.start)
    (operand : ∀ m ∈ op, m.isExtra = false → place ≤ m.start) :
    ∀ m ∈ nodes, m.isExtra = false → place ≤ m.start := by
  have toNodes {t : Token} {label : Label} (proper : t.Proper) (late : place ≤ t.start) :
      ∀ m ∈ t.toNodes label, m.isExtra = false → place ≤ m.start := by
    intro m hm counts
    rcases List.mem_append.1 hm with hm | hm
    · rw [(proper.loose m hm).extra] at counts
      cases counts
    · rw [List.mem_singleton.1 hm]
      exact late
  induction h with
  | empty | manyNil | «unless» => exact fun m hm => (List.not_mem_nil hm).elim
  | left => exact operand
  | token | leaf | name | literal => exact toNodes (proper _ List.mem_cons_self) (late _ List.mem_cons_self)
  | glued =>
    intro m hm counts
    rcases List.mem_append.1 hm with hm | hm
    · rw [((proper _ List.mem_cons_self).loose m hm).extra] at counts
      cases counts
    · rw [List.mem_singleton.1 hm]
      exact late _ List.mem_cons_self
  | ref _ ih | altLeft _ ih | altRight _ ih | chainBase _ ih => exact ih proper late operand
  | seq _ _ first second | manyCons _ _ first second =>
    rw [List.forall_mem_append] at proper late
    exact List.forall_mem_append.2 ⟨first proper.1 late.1 operand, second proper.2 late.2 operand⟩
  | @node r k op nodes ts _ ih =>
    have inside := ih proper late operand
    rcases Node.wrap_cases k nodes with ⟨_, same⟩ | ⟨outside, first, others, _, split, _, counts, _, same⟩
    · rwa [same]
    · rw [same, List.forall_mem_append]
      refine ⟨fun m hm => inside m (split ▸ List.mem_append_left _ hm), fun m hm _ => ?_⟩
      rw [List.mem_singleton.1 hm]
      exact inside first (split ▸ List.mem_append_right _ List.mem_cons_self) counts
  | @field r part op nodes ts _ ih =>
    intro m hm counts
    obtain ⟨n, hn, rfl⟩ := List.mem_map.1 hm
    have start : (if n.isExtra then n else n.withRole part).start = n.start := by
      split
      · rfl
      · cases n
        rfl
    rw [start]
    refine ih proper late operand n hn ?_
    rw [← Bool.not_eq_true]
    intro extra
    rw [if_pos extra, extra] at counts
    cases counts
  | chainMore _ _ _ first second third =>
    rw [List.forall_mem_append, List.forall_mem_append] at proper late
    exact third proper.2.2 late.2.2 (second proper.2.1 late.2.1 (first proper.1 late.1 operand))

/-! ### The rest of a text -/

/-- The imports that a text declares where it is read on its own, also if it begins with a byte order
mark. -/
def Continues (cs : List Char) (written : List WrittenImport) : Prop :=
  ∃ nodes, Reads ruleOf program [] (readTokens 0 [] [] cs).tokens (some (nodes, [])) ∧
    writtenIn cs nodes = written

/-- The nodes that some tokens of a text give stand where these do. -/
theorem placed_of_derives {text : List Char} {lo hi : Nat} (h : Derives ruleOf program [] ts nodes)
    (placed : TokensPlaced (Solid text) lo ts hi) : Placed (Solid text) lo nodes hi :=
  (h.keeps (joins_solid text) isRegularGrammar_ruleOf.closed gluesGenuine_ruleOf rfl).never rfl lo hi placed

/-- Reading all of some tokens is deriving from them. -/
theorem derives_of_reads_all (h : Reads ruleOf program [] ts (some (nodes, []))) :
    Derives ruleOf program [] ts nodes := by
  obtain ⟨us, same, derives⟩ := h.derives Grammar.enters_ruleOf
  rw [List.append_nil] at same
  exact same ▸ derives

/-- The rest of a text declares the same imports as it does on its own. -/
theorem continues_iff {text : List Char} {lo hi : Nat}
    (early : ∀ m ∈ comments, m.isComment = true ∧ m.start < byteLength front)
    (placed : TokensPlaced (Solid text) lo (readTokens (byteLength front) comments [] back).tokens hi) :
    Continues back written ↔ ∃ nodes,
      Reads ruleOf program [] (readTokens (byteLength front) comments [] back).tokens (some (nodes, [])) ∧
        writtenIn (front ++ back) nodes = written := by
  have own : (readTokens (byteLength front) comments [] back).tokens.map
      (Token.relocate (.beyond (byteLength front))) = (readTokens 0 [] [] back).tokens :=
    congrArg TokenList.tokens (readTokens_beyond early back)
  have late : ∀ t ∈ (readTokens (byteLength front) comments [] back).tokens, byteLength front ≤ t.start :=
    fun t ht => (fresh_readTokens (Nat.le_refl _) (fun t ht => by cases ht) t ht).start
  rw [Continues, ← own]
  generalize (readTokens (byteLength front) comments [] back).tokens = ts at placed late
  have read := readProgram_relocate (e := .beyond (byteLength front)) ⟨keeps_beyond placed late, placed.proper⟩
  have complete := complete?_relocate (e := .beyond (byteLength front)) (readProgram ts)
  rw [← read] at complete
  have texts (nodes : List Node) (reads : Reads ruleOf program [] ts (some (nodes, []))) :
      writtenIn back (Node.relocateAll (.beyond (byteLength front)) nodes) = writtenIn (front ++ back) nodes := by
    have derives := derives_of_reads_all reads
    have starts := derives.le_start placed.proper late fun m hm => (List.not_mem_nil hm).elim
    refine writtenIn_relocateAll fun n hn is m hm => (textOf_back ?_ _ _).symm
    have first : byteLength front ≤ n.start := by
      refine starts n hn ?_
      rw [← Bool.not_eq_true]
      intro extra
      rw [Rule.not_is_of_isExtra rfl extra] at is
      cases is
    rcases hm with rfl | hm
    · exact first
    · have inside := ((placed_of_derives derives placed).of_mem hn).2.1.of_mem hm
      omega
  constructor
  · rintro ⟨moved, reads, rfl⟩
    rw [complete?_eq_some_iff.2 reads, eq_comm, Option.map_eq_some_iff] at complete
    obtain ⟨nodes, whole, rfl⟩ := complete
    have reads := complete?_eq_some_iff.1 whole
    exact ⟨nodes, reads, (texts nodes reads).symm⟩
  · rintro ⟨nodes, reads, rfl⟩
    rw [complete?_eq_some_iff.2 reads] at complete
    exact ⟨_, complete?_eq_some_iff.1 complete, texts nodes reads⟩

/-! ### Seams of a text -/

/-- The imports that a text declares, if it is read as it stands. -/
def Declares (cs : List Char) (written : List WrittenImport) : Prop :=
  ∃ nodes, Reads ruleOf program [] (TokenList.ofChars cs).tokens (some (nodes, [])) ∧
    writtenIn cs nodes = written

/-- A text that is cut between its declarations. The first part is read in the same way whatever comes next,
or at least if it begins like a declaration as the second part does. -/
structure Seam (front back : List Char) (written : List WrittenImport) : Prop where
  opens : Opens front
  unmarked : front = [] → isMarked back = false
  run : ∃ nodes, writtenIn front nodes = written ∧ ∀ rest,
    (beforeDeclaration.edge.Admits (readAfter front back).tokens → beforeDeclaration.edge.Admits rest) →
      Run rest (TokenList.ofChars front).tokens nodes

theorem isComment_readTokens (h : ∀ m ∈ comments, m.isComment = true) :
    ∀ m ∈ (readTokens offset comments tokens cs).trailing, m.isComment = true := by
  fun_induction readTokens offset comments tokens cs with
  | case1 offset comments tokens => exact fun m hm => h m (List.mem_reverse.1 hm)
  | case2 offset comments tokens c cs space ih => exact ih h
  | case3 =>
    rename_i offset comments tokens c cs space n taken stop k found ih
    refine ih (List.forall_mem_cons.2 ⟨?_, h⟩)
    have sound := isSound_scan c cs
    rwa [found] at sound
  | case4 =>
    rename_i ih
    rw [List.unattach_reverse, List.unattach_attach] at ih
    exact ih fun m hm => (List.not_mem_nil hm).elim

/-- The comments after the last token of the first part. -/
theorem early_trailing (front : List Char) :
    ∀ m ∈ (TokenList.ofChars front).trailing.reverse, m.isComment = true ∧ m.start < byteLength front := by
  intro m hm
  have hm := List.mem_reverse.1 hm
  obtain ⟨⟨mid, _, placed⟩, loose⟩ := stands_ofChars front
  have comment : m.isComment = true := by
    cases front with
    | nil => cases hm
    | cons c cs =>
      rw [TokenList.ofChars] at hm
      split at hm <;> exact isComment_readTokens (fun m hm => (List.not_mem_nil hm).elim) m hm
  obtain ⟨_, _, spans, stop⟩ := placed.of_mem hm
  have wide := (spans (Node.hasError_of_comment comment (loose m hm).children)).wide
  rw [byteLength_eq]
  exact ⟨comment, by omega⟩

/-- What the first part declares does not depend on the second one. -/
theorem writtenIn_front (h : Derives ruleOf program [] (TokenList.ofChars front).tokens nodes)
    (back : List Char) : writtenIn (front ++ back) nodes = writtenIn front nodes := by
  obtain ⟨⟨mid, placed, trailing⟩, _⟩ := stands_ofChars front
  have nodesPlaced := placed_of_derives h placed
  have bound := trailing.le
  rw [← byteLength_eq] at bound
  have same : writtenIn (front ++ back) (Node.relocateAll .still nodes) = writtenIn front nodes := by
    refine writtenIn_relocateAll fun n hn _ m hm => ?_
    obtain ⟨_, inside, _, stop⟩ := nodesPlaced.of_mem hn
    refine textOf_front ?_ back
    show m.stop ≤ byteLength front
    rcases hm with rfl | hm
    · omega
    · have := (inside.of_mem hm).2.2.2
      omega
  rwa [Node.relocateAll_still] at same

namespace Seam

variable (h : Seam front back written)
include h

theorem ofChars_append : TokenList.ofChars (front ++ back) =
    ⟨(TokenList.ofChars front).tokens ++ (readAfter front back).tokens, (readAfter front back).trailing⟩ :=
  h.opens back h.unmarked

theorem continues_iff : Continues back others ↔ ∃ nodes,
    Reads ruleOf program [] (readAfter front back).tokens (some (nodes, [])) ∧
      writtenIn (front ++ back) nodes = others := by
  obtain ⟨⟨mid, placed, _⟩, _⟩ := stands_ofChars (front ++ back)
  rw [h.ofChars_append] at placed
  obtain ⟨cut, _, later⟩ := placed.of_append
  exact Java.continues_iff (early_trailing front) later

/-- The text declares what its two parts do. -/
theorem declares_iff (all : List WrittenImport) : Declares (front ++ back) all ↔
    ∃ others, all = written ++ others ∧ Continues back others := by
  obtain ⟨nodes, rfl, run⟩ := h.run
  have own := run _ id
  constructor
  · rintro ⟨ns, reads, rfl⟩
    rw [h.ofChars_append] at reads
    obtain ⟨more, rfl, after⟩ := own.exists_others reads
    refine ⟨_, ?_, h.continues_iff.2 ⟨more, after, rfl⟩⟩
    rw [writtenIn_append, writtenIn_front own.derives]
  · rintro ⟨others, rfl, continues⟩
    obtain ⟨more, after, rfl⟩ := h.continues_iff.1 continues
    refine ⟨nodes ++ more, ?_, ?_⟩
    · rw [h.ofChars_append]
      exact own.reads after
    · rw [writtenIn_append, writtenIn_front own.derives]

end Seam

/-! ### The declaration of a further import -/

/-- The import of a name, as it is written on its own. -/
def plainImport (name : String) : WrittenImport :=
  ⟨name, false, false, Imports.declarationOf name⟩

/-- A text that declares the import of a qualified name, between blanks. -/
structure IsImportOf (name : String) (cs : List Char) : Prop where
  qualified : isQualifiedName name = true
  blanks : ∃ before after, cs = before ++ ((Imports.declarationOf name).toList ++ after) ∧
    (∀ c ∈ before, isSpace c = true) ∧ ∀ c ∈ after, isSpace c = true

theorem joinWith_dot (part : List Char) (parts : List (List Char)) :
    Text.joinWith ['.'] (part :: parts) = part ++ dotted parts := by
  induction parts generalizing part with
  | nil => exact (List.append_nil part).symm
  | cons next parts ih =>
    rw [Text.joinWith, ih, dotted, dotted, List.flatMap_cons, List.append_assoc]
    · rfl
    · exact List.cons_ne_nil next parts

/-- A qualified name is a part, and after it further ones with dots before them. -/
theorem exists_parts {name : String} (h : isQualifiedName name = true) :
    ∃ part parts, name.toList = part ++ dotted parts ∧ isPlainIdentifier part = true ∧
      ∀ part ∈ parts, isPlainIdentifier part = true := by
  have whole := Text.joinWith_splitAt '.' name.toList
  rw [isQualifiedName, List.all_eq_true] at h
  cases split : Text.splitAt '.' name.toList with
  | nil => cases Text.splitAt_ne_nil '.' name.toList split
  | cons part parts =>
    rw [split] at whole h
    obtain ⟨first, others⟩ := List.forall_mem_cons.1 h
    exact ⟨part, parts, by rw [← joinWith_dot, whole], first, others⟩

theorem readTokens_blanks {blanks : List Char} (all : ∀ c ∈ blanks, isSpace c = true) (cs : List Char) :
    readTokens offset comments tokens (blanks ++ cs) =
      readTokens (offset + byteLength blanks) comments tokens cs := by
  induction blanks generalizing offset with
  | nil => rfl
  | cons c blanks ih =>
    obtain ⟨first, others⟩ := List.forall_mem_cons.1 all
    rw [List.cons_append, readTokens_space first, ih others, byteLength_cons, Nat.add_assoc]

namespace IsImportOf

variable {name : String} {inserted : List Char} (h : IsImportOf name inserted)
include h

/-- What such a text is read as, and what it declares. -/
theorem exists_tokens : ∃ place part parts, isPlainIdentifier part = true ∧
    (∀ part ∈ parts, isPlainIdentifier part = true) ∧
    (∀ offset comments back, readTokens offset comments [] (inserted ++ back) =
      ⟨importTokens (offset + place) comments.reverse part parts ++
        (readTokens (offset + byteLength inserted) [] [] back).tokens,
        (readTokens (offset + byteLength inserted) [] [] back).trailing⟩) ∧
    ∀ back, writtenBy? (inserted ++ back) (importNode place part parts) = some (plainImport name) := by
  obtain ⟨before, after, rfl, blank, blank'⟩ := h.blanks
  obtain ⟨part, parts, split, first, valid⟩ := exists_parts h.qualified
  have declaration : (Imports.declarationOf name).toList =
      "import ".toList ++ (part ++ (dotted parts ++ [';'])) := by
    rw [Imports.declarationOf, String.toList_append, String.toList_append, split]
    simp
  have width : byteLength (Imports.declarationOf name).toList = 7 + byteLength (part ++ dotted parts) + 1 := by
    rw [declaration, byteLength_append, byteLength_append, byteLength_append, byteLength_append]
    show 7 + (byteLength part + (byteLength (dotted parts) + 1)) = _
    omega
  refine ⟨byteLength before, part, parts, first, valid, fun offset comments back => ?_, fun back => ?_⟩
  · have whole : before ++ ((Imports.declarationOf name).toList ++ after) ++ back =
        before ++ ("import ".toList ++ (part ++ (dotted parts ++ ';' :: (after ++ back)))) := by
      rw [declaration]
      simp
    have stop : offset + byteLength before + 7 + byteLength (part ++ dotted parts) + 1 + byteLength after =
        offset + byteLength (before ++ ((Imports.declarationOf name).toList ++ after)) := by
      rw [byteLength_append before, byteLength_append _ after, width]
      omega
    rw [whole, readTokens_blanks blank, readTokens_import first valid, readTokens_blanks blank', readTokens_eq,
      List.append_nil, List.reverse_reverse, stop]
  · have text := textOf_middle before (Imports.declarationOf name).toList (after ++ back)
    rw [width, String.ofList_toList] at text
    have called := textOf_middle (before ++ "import ".toList) (part ++ dotted parts) (';' :: (after ++ back))
    rw [← split, String.ofList_toList, byteLength_append, split,
      show byteLength "import ".toList = 7 from rfl] at called
    have whole : before ++ ((Imports.declarationOf name).toList ++ after) ++ back =
        before ++ "import ".toList ++ (part ++ dotted parts ++ ';' :: (after ++ back)) := by
      rw [declaration]
      simp
    have whole' : before ++ ((Imports.declarationOf name).toList ++ after) ++ back =
        before ++ ((Imports.declarationOf name).toList ++ (after ++ back)) := by
      simp
    rw [writtenBy?, ofNode?_importNode, Option.map_some, ImportDeclaration.written]
    dsimp only
    rw [whole, called, ← whole, whole', Nat.add_assoc _ 7, Nat.add_assoc, text]
    rfl

/-- The tokens of such a text begin like a declaration. -/
theorem admits (offset : Nat) (comments : List Node) (back : List Char) :
    beforeDeclaration.edge.Admits (readTokens offset comments [] (inserted ++ back)).tokens := by
  obtain ⟨place, part, parts, first, valid, read, _⟩ := h.exists_tokens
  rw [read]
  exact ⟨_, _, rfl, rfl, "import", by decide, wordToken_reads "import" (offset + place) comments.reverse⟩

/-- The text and what comes after it declare the import and what the rest does. -/
theorem continues (after : Continues back others) : Continues (inserted ++ back) (plainImport name :: others) := by
  obtain ⟨place, part, parts, first, valid, read, here⟩ := h.exists_tokens
  have stands : (readTokens (byteLength inserted) [] [] back).Stands (inserted ++ back) :=
    stands_readTokens rfl (byteLength_eq inserted) (.nil (Nat.le_refl 0)) (.nil (Nat.zero_le _))
      fun m hm => (List.not_mem_nil hm).elim
  obtain ⟨⟨mid, placed, _⟩, _⟩ := stands
  obtain ⟨nodes, reads, rfl⟩ := (continues_iff (fun m hm => (List.not_mem_nil hm).elim) placed).1 after
  have declaration : IsDeclaration (importTokens place [] part parts) ([] ++ [importNode place part parts]) :=
    isDeclaration_importTokens (fun m hm => (List.not_mem_nil hm).elim) first valid
  refine ⟨[importNode place part parts] ++ nodes, ?_, ?_⟩
  · rw [read, Nat.zero_add, Nat.zero_add]
    exact (declaration.run _).reads reads
  · rw [writtenIn_append, writtenIn, List.filterMap_cons_some (here back)]
    rfl

theorem unmarked (back : List Char) : isMarked (inserted ++ back) = false := by
  obtain ⟨before, after, rfl, blank, _⟩ := h.blanks
  cases before with
  | nil => 
    rw [Imports.declarationOf, String.toList_append, String.toList_append]
    rfl
  | cons c before =>
    have space := blank c List.mem_cons_self
    show (c.toNat == 0xFEFF) = false
    rw [beq_eq_false_iff_ne]
    intro mark
    rw [isSpace, mark] at space
    cases space

end IsImportOf

namespace Seam

variable {name : String} {inserted middle : List Char} 

/-- A seam remains one if an import is put in there. -/
theorem put (h : Seam front back written) (i : IsImportOf name inserted) :
    Seam front (inserted ++ back) written where
  opens := h.opens
  unmarked _ := i.unmarked back
  run := by
    obtain ⟨nodes, same, run⟩ := h.run
    exact ⟨nodes, same, fun rest admits => run rest fun _ => admits (i.admits _ _ back)⟩

/-- The declaration of an import may be put in at a seam. -/
theorem declares (h : Seam front back written) (i : IsImportOf name inserted)
    (whole : Declares (front ++ back) (written ++ others)) :
    Declares (front ++ (inserted ++ back)) (written ++ plainImport name :: others) := by
  obtain ⟨others', same, continues⟩ := (h.declares_iff _).1 whole
  cases List.append_cancel_left same
  exact ((h.put i).declares_iff _).2 ⟨_, rfl, i.continues continues⟩

/-- What is read after the first part is what is read in the second one, and then what comes after it. -/
theorem tokens_readAfter (opens : Opens front) (opens' : Opens (front ++ middle))
    (unmarked : front = [] → isMarked (middle ++ back) = false) :
    (readAfter front (middle ++ back)).tokens =
      (readAfter front middle).tokens ++ (readAfter (front ++ middle) back).tokens := by
  have first := opens (middle ++ back) unmarked
  have second := opens' back fun none => by
    obtain ⟨rfl, rfl⟩ := List.append_eq_nil_iff.1 none
    exact unmarked rfl
  have third := opens middle fun none => by
    have plain := unmarked none
    cases middle with
    | nil => rfl
    | cons c middle => exact plain
  rw [← List.append_assoc, second, third, TokenList.mk.injEq, List.append_assoc] at first
  exact (List.append_cancel_left first.1).symm

/-- A seam remains one if an import is put in further back. -/
theorem put_further (h : Seam front (middle ++ back) written) (opens : Opens (front ++ middle))
    (i : IsImportOf name inserted) : Seam front (middle ++ (inserted ++ back)) written := by
  have unmarked : front = [] → isMarked (middle ++ (inserted ++ back)) = false := fun none => by
    cases middle with
    | nil => exact i.unmarked back
    | cons c middle => exact h.unmarked none
  obtain ⟨nodes, same, run⟩ := h.run
  refine ⟨h.opens, unmarked, nodes, same, fun rest admits => run rest fun before => admits ?_⟩
  rw [tokens_readAfter h.opens opens unmarked]
  rw [tokens_readAfter h.opens opens h.unmarked] at before
  -- what comes next is in between, or it is the import
  cases between : (readAfter front middle).tokens with
  | nil => exact i.admits _ _ back
  | cons t ts =>
    rw [between] at before
    obtain ⟨u, us, same, begins⟩ := before
    obtain ⟨rfl, _⟩ := List.cons.inj same
    exact ⟨t, _, rfl, begins⟩

end Seam

/-! ### The imports of a unit -/

/-- The imports of a unit, as they are written. -/
def CompilationUnit.writtenImports (u : CompilationUnit) : List WrittenImport :=
  u.imports.map (ImportDeclaration.written u.source)

theorem ofString_eq_sourceOf (text : String) : Source.ofString text = sourceOf text.toList := by
  have bytes : (Source.ofString text).toBytes = (sourceOf text.toList).toBytes := by
    rw [Source.toBytes_ofString, sourceOf, Source.toBytes_ofBytes, Text.encode_eq]
  exact congrArg Source.mk (Array.toList_inj.1 bytes)

/-- The imports of a unit are those of the nodes at the top of its tree. -/
theorem imports_eq {text : String} {k : Kind} (same : parse text.toList = rootOver k ns) :
    (CompilationUnit.ofString text).imports =
      ns.filterMap (ImportDeclaration.ofNode? (sourceOf text.toList)) := by
  have named : ∀ n ∈ ns, n.isNamed = false → ImportDeclaration.ofNode? (sourceOf text.toList) n = none := by
    intro n _ bare
    rw [ImportDeclaration.ofNode?, if_neg]
    intro is
    rw [Node.isNamed, eq_of_beq is] at bare
    cases bare
  show importsOf (Source.ofString text) (parse text.toList) = _
  rw [ofString_eq_sourceOf, same, importsOf, Node.namedChildren, List.filterMap_filter]
  refine List.filterMap_congr fun n hn => ?_
  cases bare : n.isNamed with
  | true => rfl
  | false => exact (named n hn bare).symm

theorem writtenImports_eq {text : String} {k : Kind} (same : parse text.toList = rootOver k ns) :
    (CompilationUnit.ofString text).writtenImports = writtenIn text.toList ns := by
  rw [CompilationUnit.writtenImports, imports_eq same, List.map_filterMap]
  show ns.filterMap (fun n => (ImportDeclaration.ofNode? (sourceOf text.toList) n).map
    (ImportDeclaration.written (Source.ofString text))) = _
  rw [ofString_eq_sourceOf]
  rfl

/-- A text that is read as it stands declares the imports of its unit. -/
theorem Declares.writtenImports {text : String} (h : Declares text.toList written) :
    (CompilationUnit.ofString text).writtenImports = written := by
  obtain ⟨nodes, reads, rfl⟩ := h
  have loose := (stands_ofChars text.toList).loose
  rw [writtenImports_eq (parse_of_complete (complete?_eq_some_iff.2 reads)), writtenIn_append,
    writtenIn_of_extras fun m hm => (loose m hm).extra, List.append_nil]

/-- A text without faults is read as it stands. -/
theorem declares_of_clean {text : String} (clean : (CompilationUnit.ofString text).hasSyntaxErrors = false) :
    Declares text.toList (CompilationUnit.ofString text).writtenImports := by
  obtain ⟨nodes, complete, _⟩ := exists_complete clean
  have declares : Declares text.toList (writtenIn text.toList nodes) :=
    ⟨nodes, complete?_eq_some_iff.1 complete, rfl⟩
  rwa [declares.writtenImports]

end MonoTap.Java
