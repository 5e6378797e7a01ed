import MonoTap.Proofs.AnnotatedTypes
import MonoTap.Proofs.RelocatedCalls

/-!
# Harmless comments

A block comment between two tokens leaves the call sites of a text and the types of their receivers and
elements as they are, unless it stands among type arguments, in a dotted name, first in parentheses,
among the arguments of a factory call or in the type of a callback's parameter.
-/

set_option autoImplicit false

namespace MonoTap.Java

open Text (Source encodeChars)

variable {text commented : String} {front comment back : List Char} {n m : Node}

/-! ### Harmless places -/

/-- Whether a comment at a place inside a node leaves alone what is read from the node: it is neither in a
word or a name nor among type arguments, nor where it would be taken for an operand or an argument, nor
in the type of a parameter. -/
def Node.bears (source : Source) (place : Nat) (n : Node) : Bool :=
  !(n.children.isEmpty || n.isName || n.is .typeArguments || telling.contains (n.text source)) &&
    (!n.is .parenthesizedExpression || n.namedChildren.head?.any (·.start < place)) &&
    (!n.isFactory source || (n.child? .arguments).all fun arguments =>
      !arguments.covers place || arguments.children.any (covers place)) &&
    (!n.is .lambdaExpression || (n.child? .parameters).all fun parameters =>
      parameters.namedChildren.all fun p => (p.child? .type).all (!covers place ·))

/-- A block comment is put in between two tokens of a text, where it does no harm. -/
structure Harmless (text commented : String) (front comment back : List Char) : Prop where
  before : text.toList = front ++ back
  after : commented.toList = front ++ comment ++ back
  parts : Parts front comment back
  inside : (parse text.toList).covers (byteLength front) = true
  apart : joinsAt (byteLength front) (TokenList.ofChars text.toList).tokens = false
  borne : ∀ n ∈ Node.preorderAll (parse text.toList).children, n.covers (byteLength front) = true →
    n.bears (.ofString text) (byteLength front) = true

/-! ### The texts of nodes -/

theorem toBytes_of_toList {text : String} {cs : List Char} (same : text.toList = cs) :
    (Source.ofString text).toBytes = encodeChars cs := by
  rw [Source.toBytes_ofString, Text.encode_eq, same]

/-- A node beside the comment has the same text. -/
theorem Node.text_widening (here : text.toList = front ++ back)
    (there : commented.toList = front ++ comment ++ back) (wide : n.start < n.stop)
    (outside : n.covers (byteLength front) = false) :
    (n.relocate (.widening (byteLength front) (byteLength comment))).text (.ofString commented) =
      n.text (.ofString text) := by
  rw [covers, Bool.and_eq_false_iff, decide_eq_false_iff_not, decide_eq_false_iff_not] at outside
  rw [Node.text, Node.text, Source.textOf, Source.textOf, Source.slice_eq, Source.slice_eq,
    toBytes_of_toList here, toBytes_of_toList there, start_relocate, stop_relocate,
    Text.encodeChars_append, Text.encodeChars_append, Text.encodeChars_append]
  refine congrArg (fun bytes => String.ofList (Text.decodeLossy bytes)) ?_
  have width := byteLength_eq front
  have width' := byteLength_eq comment
  rcases Nat.lt_or_ge n.start (byteLength front) with before | after
  · have last : n.stop ≤ byteLength front := by omega
    rw [Relocation.start_widening_of_lt before, Relocation.stop_widening_of_le last, List.append_assoc,
      List.drop_append_of_le_length (by omega), List.drop_append_of_le_length (by omega),
      List.take_append_of_le_length (by rw [List.length_drop]; omega),
      List.take_append_of_le_length (by rw [List.length_drop]; omega)]
  · have plain : (encodeChars front ++ encodeChars back).drop n.start =
        (encodeChars back).drop (n.start - byteLength front) := by
      rw [List.drop_append, List.drop_eq_nil_of_le (by omega), List.nil_append, width]
    have moved : (encodeChars front ++ encodeChars comment ++ encodeChars back).drop
          (n.start + byteLength comment) =
        (encodeChars back).drop (n.start - byteLength front) := by
      rw [List.drop_append, List.drop_eq_nil_of_le (by rw [List.length_append]; omega), List.nil_append,
        List.length_append, ← width, ← width', Nat.add_sub_add_right]
    rw [Relocation.start_widening_of_le after, Relocation.stop_widening_of_lt (by omega), moved, plain,
      Nat.add_sub_add_right]

/-- A block comment begins with a slash. -/
theorem Parts.mem_comment (parts : Parts front comment back) (nonempty : front ≠ []) : '/' ∈ comment := by
  obtain ⟨own, _⟩ := ofChars_append nonempty (List.append_assoc front comment back ▸ parts.within)
  obtain ⟨c, cs, rfl, solid⟩ := exists_of_mem_lexemes (own ▸ List.mem_cons_self)
  rw [List.cons_append, lexemes_cons solid, List.cons.injEq, Prod.mk.injEq] at own
  obtain ⟨⟨kind, taken⟩, _⟩ := own
  have scanned : scan c (cs ++ back) = (.comment .blockComment, (scan c (cs ++ back)).2) := by
    rw [← kind]
  have opens := opensComment_of_scan scanned
  rw [taken] at opens
  unfold opensComment at opens
  split at opens
  · rename_i same
    exact same ▸ List.mem_cons_self
  · rename_i same
    exact same ▸ List.mem_cons_self
  · cases opens

/-- The text of a node around the comment holds a slash. -/
theorem Node.Belongs.mem_text_widening (h : n.Belongs text.toList) (here : text.toList = front ++ back)
    (there : commented.toList = front ++ comment ++ back) (slash : '/' ∈ comment)
    (around : n.covers (byteLength front) = true) :
    '/' ∈ ((n.relocate (.widening (byteLength front) (byteLength comment))).text
      (.ofString commented)).toList := by
  obtain ⟨first, last⟩ := covers_iff.1 around
  rw [byteLength_eq] at first last
  -- the node is cut in two by the comment
  obtain ⟨before, rest, split, start⟩ := h.spans.first
  obtain ⟨upto, after, split', stop⟩ := h.spans.last
  rw [Nat.zero_add] at start stop
  rw [here] at split split'
  obtain ⟨one, rfl⟩ : ∃ one, front = before ++ one := by
    rcases List.append_eq_append_iff.1 split with ⟨more, same, _⟩ | ⟨one, same, _⟩
    · rw [same, Text.encodeChars_append, List.length_append] at start
      omega
    · exact ⟨one, same⟩
  obtain ⟨two, rfl, rfl⟩ : ∃ two, upto = before ++ one ++ two ∧ back = two ++ after := by
    rcases List.append_eq_append_iff.1 split' with ⟨two, same, rest⟩ | ⟨more, same, _⟩
    · exact ⟨two, same, rest⟩
    · rw [same, Text.encodeChars_append, List.length_append] at last
      omega
  have whole : before ++ one ++ comment ++ (two ++ after) =
      before ++ ((one ++ comment ++ two) ++ after) := by simp only [List.append_assoc]
  have width := byteLength_eq (before ++ one)
  have width' := byteLength_eq comment
  rw [Node.text, Source.textOf, Source.slice_eq, toBytes_of_toList there, start_relocate, stop_relocate,
    Relocation.start_widening_of_lt (by omega), Relocation.stop_widening_of_lt (by omega), whole,
    Text.encodeChars_between start, Text.decodeLossy_encodeChars, String.toList_ofList]
  · exact List.mem_append_left _ (List.mem_append_right _ slash)
  · rw [stop, start, width']
    simp only [Text.encodeChars_append, List.length_append]
    omega

/-! ### The text without the comment -/

theorem Harmless.nonempty (h : Harmless text commented front comment back) : front ≠ [] := by
  rintro rfl
  exact (Nat.not_lt_zero _ (Node.covers_iff.1 h.inside).1).elim

theorem not_mem_telling {word : String} (known : word ∈ telling) : '/' ∉ word.toList := by
  simp only [telling, List.mem_cons, List.not_mem_nil, or_false] at known
  rcases known with rfl | rfl | rfl <;> decide

/-- A node inside one that is not around the comment is not around it either. -/
theorem Node.Belongs.not_covers_of_inside {place : Nat} (h : n.Belongs text.toList)
    (outside : n.covers place = false) (hm : m ∈ n.preorder) : m.covers place = false := by
  obtain ⟨first, last⟩ := h.bounds hm
  rw [← Bool.not_eq_true, Node.covers_iff] at outside ⊢
  omega

theorem Node.mem_preorderAll_of_inside {ns : List Node} (hn : n ∈ preorderAll ns) (hm : m ∈ n.preorder) :
    m ∈ preorderAll ns := by
  obtain ⟨top, htop, inside⟩ := mem_preorderAll.1 hn
  exact mem_preorderAll.2 ⟨top, htop, mem_preorder_trans inside hm⟩

namespace Harmless

variable (h : Harmless text commented front comment back)
  (clean : (parse text.toList).hasError = false)
include h clean

theorem text_widening (hn : n ∈ Node.preorderAll (parse text.toList).children)
    (outside : n.covers (byteLength front) = false) :
    (n.relocate (.widening (byteLength front) (byteLength comment))).text (.ofString commented) =
      n.text (.ofString text) :=
  Node.text_widening h.before h.after
    (Receiver.belongs_below (belongs_parse clean) hn).spans.wide outside

/-- The nodes of the text without the comment keep what types are read from. -/
theorem faithful_widening : (Relocation.widening (byteLength front) (byteLength comment)).Faithful
    (.ofString text) (.ofString commented) (parse text.toList) := by
  have outside {n : Node} (hn : n ∈ Node.preorderAll (parse text.toList).children)
      (plain : (n.children.isEmpty || n.isName || n.is .typeArguments ||
        telling.contains (n.text (.ofString text))) = true) : n.covers (byteLength front) = false := by
    rw [← Bool.not_eq_true]
    intro around
    have bears := h.borne n hn around
    rw [Node.bears, plain] at bears
    cases bears
  constructor
  case larger =>
    rw [← Source.length_toBytes, ← Source.length_toBytes, toBytes_of_toList h.before,
      toBytes_of_toList h.after]
    simp only [Text.encodeChars_append, List.length_append]
    omega
  case order =>
    intro a b
    show (if a < _ then a else a + _) < (if b < _ then b else b + _) ↔ a < b
    split <;> split <;> omega
  case leaf =>
    intro n hn leaf _
    refine h.text_widening clean hn (outside hn ?_)
    rw [leaf]
    rfl
  case name =>
    intro n hn isName
    refine h.text_widening clean hn (outside hn ?_)
    rw [isName, Bool.or_true, Bool.true_or, Bool.true_or]
  case word =>
    intro n hn word known
    cases around : n.covers (byteLength front) with
    | false => rw [h.text_widening clean hn around]
    | true =>
      -- neither is such a word: without the comment by assumption, and with it because of the slash
      have slash := (Receiver.belongs_below (belongs_parse clean) hn).mem_text_widening h.before h.after
        (h.parts.mem_comment h.nonempty) around
      constructor
      · intro same
        rw [same] at slash
        exact (not_mem_telling known slash).elim
      · intro same
        rw [outside hn (by rw [same, List.contains_iff_mem.2 known, Bool.or_true])] at around
        cases around
  case arguments =>
    intro n hn is c hc
    have own := Receiver.belongs_below (belongs_parse clean) hn
    have apart := outside hn (by rw [is, Bool.or_true, Bool.true_or])
    obtain ⟨d, hd, inside⟩ := Node.mem_preorderAll.1 hc
    have below := Node.mem_preorder_of_mem_children hd inside
    exact ⟨rfl, h.text_widening clean (Node.mem_preorderAll_of_inside hn below)
      (own.not_covers_of_inside apart below)⟩
  case annotated => exact fun _ _ _ _ _ => rfl
  case parenthesis => exact fun _ _ _ _ _ => rfl
  case factory => exact fun _ _ _ _ _ _ _ => rfl
  case parameter =>
    intro n hn lambda parameters found p hp type typed
    have own := Receiver.belongs_below (belongs_parse clean) hn
    have below : type ∈ n.preorder :=
      Node.mem_preorder_of_mem_children (Node.mem_children_of_child? found)
        (Node.mem_preorder_of_mem_children (Node.mem_children_of_mem_namedChildren hp)
          (Node.mem_preorder_of_mem_children (Node.mem_children_of_child? typed) type.self_mem_preorder))
    refine h.text_widening clean (Node.mem_preorderAll_of_inside hn below) ?_
    cases around : n.covers (byteLength front) with
    | false => exact own.not_covers_of_inside around below
    | true =>
      have bears := h.borne n hn around
      simp only [Node.bears, Bool.and_eq_true, lambda, Bool.not_true, Bool.false_or, found, Option.all_some,
        List.all_eq_true] at bears
      have apart := bears.2 p hp
      rw [typed, Option.all_some, Bool.not_eq_true'] at apart
      exact apart

end Harmless

/-! ### The text with the comment -/

/-- What is inside a node does not begin with a comment. -/
theorem Node.Belongs.head_counts {text : List Char} {n c : Node} (h : n.Belongs text)
    (head : n.children.head? = some c) : c.isExtra = false := by
  obtain ⟨k, r, _, _, fills⟩ := h.made.inside (List.ne_nil_of_mem (List.mem_of_mem_head? head))
  obtain ⟨_, op, ts, nodes, _, _, _, same⟩ := fills
  have first := List.head?_dropWhile_not Node.isExtra nodes
  rw [← same, head] at first
  simpa using first

/-- A comment stands after the beginning of each node around it. -/
theorem Node.Belongs.start_lt_comment {text : List Char} {n c : Node} (h : n.Belongs text)
    (hc : c ∈ preorderAll n.children) (comment : c.isComment = true) : n.start < c.start := by
  generalize size : sizeOf n = k
  induction k using Nat.strongRecOn generalizing n with
  | ind k ih =>
    obtain ⟨d, hd, inside⟩ := mem_preorderAll.1 hc
    have own := h.child hd
    cases head : n.children with
    | nil =>
      rw [head] at hd
      cases hd
    | cons first others =>
      have counts : first.isExtra = false := h.head_counts (by rw [head]; rfl)
      have placed := h.placed
      rw [head] at hd placed
      rcases List.mem_cons.1 hd with rfl | later
      · -- in the first node, which is no comment
        have start := (placed.of_mem List.mem_cons_self).1
        rw [preorder_eq] at inside
        rcases List.mem_cons.1 inside with rfl | inside
        · rw [isExtra, comment] at counts
          cases counts
        · have smaller := Node.sizeOf_lt_of_mem_children (n := n) (c := d) (by rw [head]; exact List.mem_cons_self)
          have := ih (sizeOf d) (size ▸ smaller) own inside rfl
          omega
      · cases placed with
        | cons after within _ rest =>
          have wide := (h.child (c := first) (by rw [head]; exact List.mem_cons_self)).spans.wide
          have := (rest.of_mem later).1
          have := (own.bounds inside).1
          omega

namespace Harmless

variable (h : Harmless text commented front comment back)
  (clean : (parse text.toList).hasError = false)
include h clean

/-- The tree of the text with the comment. -/
theorem parse_relocate : (parse commented.toList).hasError = false ∧
    (parse text.toList).relocate (.widening (byteLength front) (byteLength comment)) =
      (parse commented.toList).relocate (.omitting (byteLength front)) := by
  have clean := clean
  have inside := h.inside
  have apart := h.apart
  rw [h.before] at clean inside apart ⊢
  rw [h.after]
  exact h.parts.parse_relocate clean inside apart

/-- A node of the text with the comment has its place in the text without it. -/
theorem exists_widening (hm : m ∈ Node.preorderAll (parse commented.toList).children)
    (kept : (Relocation.omitting (byteLength front)).drops m = false) :
    ∃ n ∈ Node.preorderAll (parse text.toList).children,
      n.relocate (.widening (byteLength front) (byteLength comment)) =
        m.relocate (.omitting (byteLength front)) := by
  obtain ⟨clean', same⟩ := h.parse_relocate clean
  have children := congrArg Node.children same
  rw [Node.children_relocate, Node.children_relocate] at children
  have leaf {text : String} (clean : (parse text.toList).hasError = false) (e : Relocation) :
      ∀ n ∈ Node.preorderAll (parse text.toList).children, e.drops n = true → n.children = [] :=
    fun n hn dropped => (Receiver.belongs_below (belongs_parse clean) hn).comment_leaf (e.comment n dropped)
  obtain ⟨n, hn, _, there⟩ := exists_of_relocateAll children (leaf clean _) (leaf clean' _) hm kept
  exact ⟨n, hn, there⟩

/-- A node around the comment is around its place in the text without it. -/
theorem covers_of_drops {c : Node} (hm : m ∈ Node.preorderAll (parse commented.toList).children)
    (same : n.relocate (.widening (byteLength front) (byteLength comment)) =
      m.relocate (.omitting (byteLength front)))
    (hc : c ∈ Node.preorderAll m.children) (dropped : (Relocation.omitting (byteLength front)).drops c = true) :
    n.covers (byteLength front) = true := by
  have isComment := (Relocation.omitting _).comment c dropped
  have place : c.start = byteLength front := eq_of_beq (Bool.and_eq_true_iff.1 dropped).2
  have own := Receiver.belongs_below (belongs_parse (h.parse_relocate clean).1) hm
  have first := own.start_lt_comment hc isComment
  have below : c ∈ m.preorder := by
    rw [Node.preorder_eq]
    exact List.mem_cons_of_mem _ hc
  have last := (own.bounds below).2
  have wide := (own.inside below).spans.wide
  have start := congrArg Node.start same
  have stop := congrArg Node.stop same
  rw [Node.start_relocate, Node.start_relocate] at start
  rw [Node.stop_relocate, Node.stop_relocate] at stop
  change (if n.start < _ then _ else _) = m.start at start
  change (if n.stop ≤ _ then _ else _) = m.stop at stop
  rw [Node.covers_iff]
  split at start <;> split at stop <;> omega

/-- A node that holds the comment has its place in the text without it, around that of the comment. -/
theorem exists_around {c : Node} (hm : m ∈ Node.preorderAll (parse commented.toList).children)
    (hc : c ∈ Node.preorderAll m.children) (dropped : (Relocation.omitting (byteLength front)).drops c = true) :
    ∃ n ∈ Node.preorderAll (parse text.toList).children, n.covers (byteLength front) = true ∧
      n.relocate (.widening (byteLength front) (byteLength comment)) =
        m.relocate (.omitting (byteLength front)) := by
  have kept : (Relocation.omitting (byteLength front)).drops m = false := by
    rw [← Bool.not_eq_true]
    intro leaf
    rw [(Receiver.belongs_below (belongs_parse (h.parse_relocate clean).1) hm).comment_leaf
      ((Relocation.omitting _).comment m leaf)] at hc
    cases hc
  obtain ⟨n, hn, same⟩ := h.exists_widening clean hm kept
  exact ⟨n, hn, h.covers_of_drops clean hm same hc dropped, same⟩

omit h clean in
/-- The children of two nodes at one place are at the same places. -/
theorem exists_child {c : Node} (same : n.relocate (.widening (byteLength front) (byteLength comment)) =
      m.relocate (.omitting (byteLength front))) (hc : c ∈ n.children) :
    ∃ d ∈ m.children, c.relocate (.widening (byteLength front) (byteLength comment)) =
      d.relocate (.omitting (byteLength front)) := by
  have children := congrArg Node.children same
  rw [Node.children_relocate, Node.children_relocate] at children
  have moved : c.relocate (.widening (byteLength front) (byteLength comment)) ∈
      Node.relocateAll (.omitting (byteLength front)) m.children := by
    rw [← children]
    exact Node.mem_relocateAll.2 ⟨c, hc, rfl, rfl⟩
  obtain ⟨d, hd, _, there⟩ := Node.mem_relocateAll.1 moved
  exact ⟨d, hd, there.symm⟩

end Harmless

theorem Node.text_omitting {source : Source} {place : Nat} (n : Node) :
    (n.relocate (.omitting place)).text source = n.text source := by
  rw [text, start_relocate, stop_relocate, text]
  rfl

/-- A call is a factory call wherever its names keep their texts. -/
theorem Node.isFactory_relocate {source target : Source} {e : Relocation} {text : List Char}
    (belongs : ∀ c ∈ n.children, c.Belongs text)
    (word : ∀ c ∈ n.children, ∀ w ∈ telling, (c.relocate e).text target = w ↔ c.text source = w)
    (name : ∀ c ∈ n.children, c.isName = true → (c.relocate e).text target = c.text source) :
    (n.relocate e).isFactory target = n.isFactory source := by
  rw [isFactory, isFactory, is_relocate, child?_relocate belongs, child?_relocate belongs, Option.any_map,
    Option.any_map]
  refine congrArg₂ (· && ·) (congrArg _ ?_) ?_
  · cases found : n.child? .object with
    | none => rfl
    | some o =>
      have told := word o (mem_children_of_child? found)
      rw [Option.any_some, Option.any_some, Bool.eq_iff_iff, List.contains_iff_mem,
        List.contains_iff_mem]
      simp only [List.mem_cons, List.not_mem_nil, or_false]
      rw [told _ (by simp [telling]), told _ (by simp [telling])]
  · cases found : n.child? .name with
    | none => rfl
    | some m =>
      have isName : m.isName = true := by
        rw [Node.isName, role_of_child? found]
        rfl
      rw [Option.any_some, Option.any_some, name m (mem_children_of_child? found) isName]

namespace Harmless

variable (h : Harmless text commented front comment back)
  (clean : (parse text.toList).hasError = false)
include h clean

/-- The comment is not the first in parentheses. -/
theorem parenthesis_omitting {c : Node} (hm : m ∈ Node.preorderAll (parse commented.toList).children)
    (is : m.is .parenthesizedExpression = true) (head : m.namedChildren.head? = some c) :
    (Relocation.omitting (byteLength front)).drops c = false := by
  rw [← Bool.not_eq_true]
  intro dropped
  have among := Node.mem_children_of_mem_namedChildren (List.mem_of_mem_head? head)
  obtain ⟨n, hn, around, same⟩ := h.exists_around clean hm
    (Node.mem_preorderAll.2 ⟨c, among, c.self_mem_preorder⟩) dropped
  have paren : n.is .parenthesizedExpression = true := by
    rw [← Node.is_relocate (e := .widening (byteLength front) (byteLength comment)), same, Node.is_relocate, is]
  have bears := h.borne n hn around
  simp only [Node.bears, Bool.and_eq_true, paren, Bool.not_true, Bool.false_or] at bears
  -- what stands first without the comment stands before it
  cases first : n.namedChildren with
  | nil =>
    rw [first] at bears
    cases bears.1.1.2
  | cons a others =>
    have before : a.start < byteLength front := by
      have := bears.1.1.2
      rw [first] at this
      exact of_decide_eq_true this
    have named : a ∈ n.namedChildren := first ▸ List.mem_cons_self
    obtain ⟨d, hd, there⟩ := exists_child same (Node.mem_children_of_mem_namedChildren named)
    have start := congrArg Node.start there
    rw [Node.start_relocate, Node.start_relocate, Relocation.start_widening_of_lt before] at start
    change a.start = d.start at start
    have isNamed : d.isNamed = true := by
      rw [← Node.isNamed_relocate (e := .omitting (byteLength front)), ← there, Node.isNamed_relocate]
      exact (List.mem_filter.1 named).2
    have sorted : m.namedChildren.Pairwise fun a b => a.start ≤ b.start :=
      (Node.pairwise_start (Receiver.belongs_below (belongs_parse (h.parse_relocate clean).1) hm).placed).sublist
        List.filter_sublist
    have inside : d ∈ m.namedChildren := List.mem_filter.2 ⟨hd, isNamed⟩
    obtain ⟨more, whole⟩ := List.head?_eq_some_iff.1 head
    have place : c.start = byteLength front := eq_of_beq (Bool.and_eq_true_iff.1 dropped).2
    rw [whole] at inside sorted
    rcases List.mem_cons.1 inside with rfl | later
    · omega
    · have := (List.pairwise_cons.1 sorted).1 d later
      omega

/-- The comment is not among the arguments of a factory call. -/
theorem factory_omitting {arguments c : Node} (hm : m ∈ Node.preorderAll (parse commented.toList).children)
    (factory : m.isFactory (.ofString commented) = true) (found : m.child? .arguments = some arguments)
    (hc : c ∈ arguments.children) : (Relocation.omitting (byteLength front)).drops c = false := by
  rw [← Bool.not_eq_true]
  intro dropped
  have clean' := (h.parse_relocate clean).1
  have among := Node.mem_children_of_child? found
  have directly : c ∈ Node.preorderAll arguments.children :=
    Node.mem_preorderAll.2 ⟨c, hc, c.self_mem_preorder⟩
  have inside : c ∈ Node.preorderAll m.children := Node.mem_preorderAll.2 ⟨arguments, among, by
    rw [Node.preorder_eq]
    exact List.mem_cons_of_mem _ directly⟩
  obtain ⟨n, hn, around, same⟩ := h.exists_around clean hm inside dropped
  have belongs : ∀ x ∈ n.children, x.Belongs text.toList := fun _ =>
    (Receiver.belongs_below (belongs_parse clean) hn).child
  have belongs' : ∀ x ∈ m.children, x.Belongs commented.toList := fun _ =>
    (Receiver.belongs_below (belongs_parse clean') hm).child
  have below {x : Node} (hx : x ∈ n.children) : x ∈ Node.preorderAll (parse text.toList).children :=
    Node.mem_preorderAll_of_inside hn (Node.mem_preorder_of_mem_children hx x.self_mem_preorder)
  have faithful := h.faithful_widening clean
  have isFactory : n.isFactory (.ofString text) = true := by
    have moved := Node.isFactory_relocate belongs (fun x hx => faithful.word x (below hx))
      fun x hx => faithful.name x (below hx)
    rw [← moved, same, Node.isFactory_relocate belongs' (fun x _ w _ => by rw [x.text_omitting])
      (fun x _ _ => x.text_omitting), factory]
  -- the arguments without the comment
  have found' := Node.child?_relocate (e := .widening (byteLength front) (byteLength comment)) belongs .arguments
  rw [same, Node.child?_relocate belongs' .arguments, found, Option.map_some, eq_comm,
    Option.map_eq_some_iff] at found'
  obtain ⟨without, found', there⟩ := found'
  have inner : arguments ∈ Node.preorderAll (parse commented.toList).children :=
    Node.mem_preorderAll_of_inside hm (Node.mem_preorder_of_mem_children among arguments.self_mem_preorder)
  have covers := h.covers_of_drops clean inner there directly dropped
  have bears := h.borne n hn around
  simp only [Node.bears, Bool.and_eq_true, isFactory, Bool.not_true, Bool.false_or, found', Option.all_some,
    covers, List.any_eq_true] at bears
  obtain ⟨a, ha, across⟩ := bears.1.2
  obtain ⟨first, last⟩ := Node.covers_iff.1 across
  obtain ⟨d, hd, moved⟩ := exists_child there ha
  have start := congrArg Node.start moved
  have stop := congrArg Node.stop moved
  rw [Node.start_relocate, Node.start_relocate, Relocation.start_widening_of_lt first] at start
  rw [Node.stop_relocate, Node.stop_relocate, Relocation.stop_widening_of_lt last] at stop
  change a.start = d.start at start
  change a.stop + byteLength comment = d.stop at stop
  have place : c.start = byteLength front := eq_of_beq (Bool.and_eq_true_iff.1 dropped).2
  have own := Receiver.belongs_below (belongs_parse clean') inner
  have wide := (own.child hc).spans.wide
  rcases own.placed.apart hd hc with rfl | apart | apart <;> omega

/-- The nodes of the text with the comment keep what types are read from when it is left out. -/
theorem faithful_omitting : (Relocation.omitting (byteLength front)).Faithful
    (.ofString commented) (.ofString commented) (parse commented.toList) := by
  have clean' := (h.parse_relocate clean).1
  constructor
  case larger => exact Nat.le_refl _
  case order => exact fun _ _ => Iff.rfl
  case leaf => exact fun m _ _ _ => m.text_omitting
  case name => exact fun m _ _ => m.text_omitting
  case word => exact fun m _ w _ => by rw [m.text_omitting]
  case arguments =>
    refine fun m hm is c hc => ⟨?_, c.text_omitting⟩
    rw [← Bool.not_eq_true]
    intro dropped
    obtain ⟨n, hn, around, same⟩ := h.exists_around clean hm hc dropped
    have typeArguments : n.is .typeArguments = true := by
      rw [← Node.is_relocate (e := .widening (byteLength front) (byteLength comment)), same, Node.is_relocate,
        is]
    have bears := h.borne n hn around
    rw [Node.bears, typeArguments, Bool.or_true, Bool.true_or] at bears
    cases bears
  case annotated =>
    intro m hm is c last
    exact Node.not_drops ((Receiver.belongs_below (belongs_parse clean') hm).getLast?_annotated is last).2
  case parenthesis => exact fun m hm is c head => h.parenthesis_omitting clean hm is head
  case factory => exact fun m hm is arguments found c hc => h.factory_omitting clean hm is found hc
  case parameter => exact fun _ _ _ _ _ _ _ type _ => type.text_omitting

end Harmless

instance (front comment back : List Char) : Decidable (Parts front comment back) :=
  decidable_of_iff (lexemesOf (front ++ back) = lexemesOf front ++ lexemes back ∧
      lexemesOf (front ++ comment ++ back) =
        lexemesOf front ++ (.comment .blockComment, comment) :: lexemes back)
    ⟨fun ⟨without, within⟩ => ⟨without, within⟩, fun ⟨without, within⟩ => ⟨without, within⟩⟩

instance (text commented : String) (front comment back : List Char) :
    Decidable (Harmless text commented front comment back) :=
  decidable_of_iff (Text.charsOf text = front ++ back ∧ Text.charsOf commented = front ++ comment ++ back ∧
      Parts front comment back ∧ (parse (Text.charsOf text)).covers (byteLength front) = true ∧
      joinsAt (byteLength front) (TokenList.ofChars (Text.charsOf text)).tokens = false ∧
      ∀ n ∈ Node.preorderAll (parse (Text.charsOf text)).children, n.covers (byteLength front) = true →
        n.bears (.ofString text) (byteLength front) = true) <| by
    rw [← Text.toList_eq_charsOf, ← Text.toList_eq_charsOf]
    exact ⟨fun ⟨before, after, parts, inside, apart, borne⟩ => ⟨before, after, parts, inside, apart, borne⟩,
      fun h => ⟨h.before, h.after, h.parts, h.inside, h.apart, h.borne⟩⟩

end MonoTap.Java

namespace MonoTap

open Java (CompilationUnit Cursor Harmless Node Relocation byteLength)
open Text (Source)

variable {text commented file : String} {front comment back : List Char} {places : List (Nat × Nat)}

/-! ### Call sites -/

/-- The two texts have the same tree, each in its own way. -/
theorem relocate_eq (h : Harmless text commented front comment back)
    (clean : (CompilationUnit.ofString text).hasSyntaxErrors = false) :
    (CompilationUnit.ofString text).relocate (.widening (byteLength front) (byteLength comment))
        (.ofString commented) =
      (CompilationUnit.ofString commented).relocate (.omitting (byteLength front)) (.ofString commented) := by
  have same := (h.parse_relocate clean).2
  have root : (CompilationUnit.ofString text).root.relocate
        (.widening (byteLength front) (byteLength comment)) =
      (CompilationUnit.ofString commented).root.relocate (.omitting (byteLength front)) := same
  rw [CompilationUnit.relocate, CompilationUnit.relocate, root]

namespace Java.Harmless

variable (h : Harmless text commented front comment back)
  (clean : (CompilationUnit.ofString text).hasSyntaxErrors = false)
include h clean

theorem widened : Relocated text (.ofString commented)
    (.widening (byteLength front) (byteLength comment)) :=
  ⟨clean, h.faithful_widening clean⟩

theorem omitted : Relocated commented (.ofString commented) (.omitting (byteLength front)) :=
  ⟨(h.parse_relocate clean).1, h.faithful_omitting clean⟩

/-- One comment moves the eligible calls, and no other call becomes or ceases to be one. -/
theorem starts_eligibleCalls :
    (eligibleCalls (.ofString commented)).map (callStart ·.node) =
      (eligibleCalls (.ofString text)).map fun call =>
        (Relocation.widening (byteLength front) (byteLength comment)).start (callStart call.node) := by
  have starts {text : String} {target : Source} {e : Relocation} (r : Relocated text target e) :
      (eligibleCalls ((CompilationUnit.ofString text).relocate e target)).map (callStart ·.node) =
        (eligibleCalls (.ofString text)).map fun call => e.start (callStart call.node) := by
    rw [r.eligibleCalls_relocate, List.map_map]
    refine List.map_congr_left fun call eligible => ?_
    have within := Cursor.Within.of_mem_cursors _ .here (List.mem_filter.1 eligible).1
    exact callStart_relocate r.belongs within.mem_preorder
  rw [← starts (h.widened clean), relocate_eq h clean, starts (h.omitted clean)]
  rfl

/-- One comment moves the call sites and leaves the types as they are. -/
theorem typing_callSites :
    (callSites (.ofString commented) file).1.map CallSite.typing =
      (callSites (.ofString text) file).1.map fun site => site.typing.map
        (Relocation.widening (byteLength front) (byteLength comment)).start id := by
  rw [← (h.widened clean).callSites_relocate, relocate_eq h clean, (h.omitted clean).callSites_relocate]
  rfl

end Java.Harmless

/-! ### Any number of comments -/

/-- Block comments are put in one after the other, each where it does no harm: where each of them goes,
and how wide it is. -/
inductive Commented (text : String) : List (Nat × Nat) → String → Prop
  | none : Commented text [] text
  | more {places : List (Nat × Nat)} {mid commented : String} {front comment back : List Char}
      (before : Commented text places mid) (last : Harmless mid commented front comment back) :
      Commented text (places ++ [(byteLength front, byteLength comment)]) commented

/-- Where an offset goes when comments are put in. -/
def movedBy (places : List (Nat × Nat)) (offset : Nat) : Nat :=
  places.foldl (fun o place => (Relocation.widening place.1 place.2).start o) offset

theorem movedBy_concat (places : List (Nat × Nat)) (place : Nat × Nat) (offset : Nat) :
    movedBy (places ++ [place]) offset =
      (Relocation.widening place.1 place.2).start (movedBy places offset) := by
  rw [movedBy, List.foldl_concat, movedBy]

/-- Comments that do no harm leave the text without syntax errors, the same calls eligible and the same
call sites, with the same types of their receivers and of their elements. -/
theorem comments_keep_typing (file : String)
    (clean : (CompilationUnit.ofString text).hasSyntaxErrors = false)
    (h : Commented text places commented) :
    (CompilationUnit.ofString commented).hasSyntaxErrors = false ∧
      (eligibleCalls (.ofString commented)).map (callStart ·.node) =
        (eligibleCalls (.ofString text)).map (fun call => movedBy places (callStart call.node)) ∧
      (callSites (.ofString commented) file).1.map CallSite.typing =
        (callSites (.ofString text) file).1.map fun site => site.typing.map (movedBy places) id := by
  induction h with
  | none => exact ⟨clean, rfl, rfl⟩
  | @more places mid commented front comment back before last ih =>
    obtain ⟨clean, starts, typing⟩ := ih
    let e := Relocation.widening (byteLength front) (byteLength comment)
    have starts' := congrArg (List.map e.start) starts
    have typing' := congrArg (List.map (Prod.map e.start id)) typing
    rw [List.map_map, List.map_map] at starts' typing'
    refine ⟨(last.omitted clean).clean, (last.starts_eligibleCalls clean).trans (starts'.trans ?_),
      (last.typing_callSites clean).trans (typing'.trans ?_)⟩
    · refine List.map_congr_left fun call _ => ?_
      rw [movedBy_concat]
      rfl
    · refine List.map_congr_left fun site _ => Prod.ext ?_ rfl
      rw [Prod.map_fst, movedBy_concat]
      rfl

/-- A call whose receiver stands in parentheses. -/
def wrappedText : String :=
  "import reactor.core.publisher.Mono;class C\x7bvoid f(Mono<A> m)\x7b(m).doAfterSuccessOrError((v,e)->\x7b\x7d);\x7d\x7d"

/-- The text with a comment after the receiver. -/
def wrappedTextOnce : String :=
  "import reactor.core.publisher.Mono;class C\x7bvoid f(Mono<A> m)\x7b(m/*a*/).doAfterSuccessOrError((v,e)->\x7b\x7d);\x7d\x7d"

/-- The text with a second comment, after the name of the type of the parameter. -/
def wrappedTextTwice : String :=
  "import reactor.core.publisher.Mono;class C\x7bvoid f(Mono/*b*/<A> m)\x7b(m/*a*/).doAfterSuccessOrError((v,e)->\x7b\x7d);\x7d\x7d"

set_option maxRecDepth 100000 in
theorem commented_wrappedText : Commented wrappedText [(63, 5), (54, 5)] wrappedTextTwice := by
  have first : Harmless wrappedText wrappedTextOnce ((Text.charsOf wrappedText).take 63)
      (Text.charsOf "/*a*/") ((Text.charsOf wrappedText).drop 63) := by
    decide +kernel
  have second : Harmless wrappedTextOnce wrappedTextTwice ((Text.charsOf wrappedTextOnce).take 54)
      (Text.charsOf "/*b*/") ((Text.charsOf wrappedTextOnce).drop 54) := by
    decide +kernel
  exact .more (.more .none first) second

set_option maxRecDepth 100000 in
/-- The call is found with the same types, ten bytes further on. -/
theorem comments_keep_typing_of_parentheses :
    (CompilationUnit.ofString wrappedText).hasSyntaxErrors = false ∧
      Commented wrappedText [(63, 5), (54, 5)] wrappedTextTwice ∧
      (CompilationUnit.ofString wrappedTextTwice).hasSyntaxErrors = false ∧
      (callSites (.ofString wrappedTextTwice) "C.java").1.map CallSite.typing =
        [(75, some ⟨"Mono", ["A"]⟩, .ok "A")] := by
  have clean : (CompilationUnit.ofString wrappedText).hasSyntaxErrors = false := by
    rw [CompilationUnit.ofString_eq_ofCharsOf]
    decide +kernel
  have typing : ((callSites (.ofString wrappedText) "C.java").1.map fun site =>
      site.typing.map (movedBy [(63, 5), (54, 5)]) id) = [(75, some ⟨"Mono", ["A"]⟩, .ok "A")] := by
    rw [CompilationUnit.ofString_eq_ofCharsOf]
    decide +kernel
  obtain ⟨clean', _, same⟩ := comments_keep_typing "C.java" clean commented_wrappedText
  exact ⟨clean, commented_wrappedText, clean', same.trans typing⟩

end MonoTap
