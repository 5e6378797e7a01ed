import MonoTap.Proofs.Lexemes
import MonoTap.Proofs.Returns

/-!
# Syntax trees and carriage returns

The tree of a text in lines that end in both is like the tree of the text in lines that end in line
feeds: the same nodes at the moved offsets. Only a line comment also takes in the carriage return that
now stands before the end of its line.
-/

set_option autoImplicit false

namespace MonoTap.Java

open Text (Ends Source crlfText crlfText_eq_iff encodeChars)

/-! ### Moved nodes -/

namespace Node

/-- Where a node ends that ended at `stop`: a line comment behind the carriage return before the line
feed, and a whole text where the last node in it ends. -/
def stopIn (s : Source) (label : Label) (stop : Nat) (children : List Node) : Nat :=
  match label, children.getLast? with
  | .kind .lineComment, _ =>
    if s.toBytes[stop]? = some 10 then s.moved stop + 1 else s.moved stop
  | .kind .program, some last => last.stop
  | _, _ => s.moved stop

mutual

/-- The node with a carriage return put before each line feed. -/
def crlf (s : Source) : Node → Node
  | mk label role start stop children =>
    mk label role (s.moved start) (stopIn s label stop (crlfAll s children)) (crlfAll s children)

/-- The nodes with a carriage return put before each line feed. -/
def crlfAll (s : Source) : List Node → List Node
  | [] => []
  | n :: ns => crlf s n :: crlfAll s ns

end

variable {s : Source}

theorem crlfAll_eq (s : Source) (ns : List Node) : crlfAll s ns = ns.map (crlf s) := by
  induction ns with
  | nil => rfl
  | cons n ns ih => rw [crlfAll, ih, List.map_cons]

@[simp] theorem label_crlf (n : Node) : (n.crlf s).label = n.label := by
  cases n
  rfl

@[simp] theorem role_crlf (n : Node) : (n.crlf s).role = n.role := by
  cases n
  rfl

@[simp] theorem start_crlf (n : Node) : (n.crlf s).start = s.moved n.start := by
  cases n
  rfl

@[simp] theorem children_crlf (n : Node) : (n.crlf s).children = n.children.map (crlf s) := by
  cases n
  exact crlfAll_eq ..

theorem stop_crlf (n : Node) :
    (n.crlf s).stop = stopIn s n.label n.stop (n.children.map (crlf s)) := by
  cases n
  rw [← crlfAll_eq]
  rfl

@[simp] theorem is_crlf (n : Node) (k : Kind) : (n.crlf s).is k = n.is k := by
  rw [is, label_crlf, is]

@[simp] theorem isAny_crlf (n : Node) (ks : List Kind) : (n.crlf s).isAny ks = n.isAny ks := by
  rw [isAny, isAny, show (n.crlf s).is = n.is from funext n.is_crlf]

@[simp] theorem isNamed_crlf (n : Node) : (n.crlf s).isNamed = n.isNamed := by
  rw [isNamed, label_crlf, isNamed]

@[simp] theorem isComment_crlf (n : Node) : (n.crlf s).isComment = n.isComment := by
  rw [isComment, label_crlf, isComment]

/-! ### Parts of moved nodes -/

theorem filter_map_crlf {p : Node → Bool} (same : ∀ n : Node, p (n.crlf s) = p n) (ns : List Node) :
    (ns.map (crlf s)).filter p = (ns.filter p).map (crlf s) := by
  rw [List.filter_map]
  exact congrArg (List.map _) (List.filter_congr fun n _ => same n)

theorem find?_map_crlf {p q : Node → Bool} {ns : List Node}
    (same : ∀ n ∈ ns, p (n.crlf s) = q n) :
    (ns.map (crlf s)).find? p = (ns.find? q).map (crlf s) := by
  induction ns with
  | nil => rfl
  | cons n ns ih =>
    rw [List.map_cons, List.find?_cons, List.find?_cons, same n List.mem_cons_self,
      ih fun m hm => same m (List.mem_cons_of_mem _ hm)]
    cases q n <;> rfl

@[simp] theorem namedChildren_crlf (n : Node) :
    (n.crlf s).namedChildren = n.namedChildren.map (crlf s) := by
  rw [namedChildren, children_crlf, filter_map_crlf isNamed_crlf, namedChildren]

@[simp] theorem childrenOf_crlf (n : Node) (r : Role) :
    (n.crlf s).childrenOf r = (n.childrenOf r).map (crlf s) := by
  rw [childrenOf, children_crlf, filter_map_crlf (fun m => by rw [role_crlf]), childrenOf]

@[simp] theorem child?_crlf (n : Node) (r : Role) :
    (n.crlf s).child? r = (n.child? r).map (crlf s) := by
  rw [child?, children_crlf, find?_map_crlf (fun m _ => by rw [role_crlf]), child?]

@[simp] theorem ofKind?_crlf (n : Node) (k : Kind) :
    (n.crlf s).ofKind? k = (n.ofKind? k).map (crlf s) := by
  rw [ofKind?, namedChildren_crlf, find?_map_crlf (fun m _ => is_crlf m k), ofKind?]

mutual

theorem preorder_crlf (n : Node) : (n.crlf s).preorder = n.preorder.map (crlf s) := by
  cases n with
  | mk label role start stop children =>
    rw [crlf, preorder, preorder, List.map_cons, ← preorderAll_crlf children, crlfAll_eq, crlf,
      crlfAll_eq]

theorem preorderAll_crlf (ns : List Node) :
    preorderAll (ns.map (crlf s)) = (preorderAll ns).map (crlf s) := by
  cases ns with
  | nil => rfl
  | cons n ns =>
    rw [List.map_cons, preorderAll, preorderAll, List.map_append, ← preorder_crlf n,
      ← preorderAll_crlf ns]

end

theorem firstFault?_crlf (n : Node) : (n.crlf s).firstFault? = n.firstFault?.map (crlf s) := by
  rw [firstFault?, preorder_crlf, find?_map_crlf fun m _ => isAny_crlf m _, firstFault?]

/-- Carriage returns make no difference to whether a text is Java. -/
theorem hasError_crlf (n : Node) : (n.crlf s).hasError = n.hasError := by
  rw [hasError, firstFault?_crlf, hasError, Option.isSome_map]

theorem firstErrorLine_crlf (n : Node) :
    (n.crlf s).firstErrorLine s.crlf = n.firstErrorLine s := by
  rw [firstErrorLine, firstFault?_crlf, firstErrorLine]
  cases n.firstFault? with
  | none => rfl
  | some m =>
    show s.crlf.line (m.crlf s).start = s.line m.start
    rw [start_crlf, s.line_crlf]

end Node

/-- The cursor with a carriage return put before each line feed. -/
def Cursor.crlf (s : Source) (c : Cursor) : Cursor :=
  ⟨c.node.crlf s, c.ancestors.map (Node.crlf s)⟩

@[simp] theorem Cursor.node_crlf {s : Source} (c : Cursor) : (c.crlf s).node = c.node.crlf s := rfl

theorem Cursor.down_crlf {s : Source} (c : Cursor) (n : Node) :
    (c.crlf s).down (n.crlf s) = (c.down n).crlf s := rfl

namespace Node

variable {s : Source}

mutual

theorem cursors_crlf (ancestors : List Node) (n : Node) :
    (n.crlf s).cursors (ancestors.map (crlf s)) = (n.cursors ancestors).map (Cursor.crlf s) := by
  cases n with
  | mk label role start stop children =>
    have inside := cursorsAll_crlf (mk label role start stop children :: ancestors) children
    rw [List.map_cons, crlf, crlfAll_eq] at inside
    rw [crlf, cursors, cursors, List.map_cons, crlfAll_eq, inside, Cursor.crlf, crlf, crlfAll_eq]

theorem cursorsAll_crlf (ancestors ns : List Node) :
    cursorsAll (ancestors.map (crlf s)) (ns.map (crlf s)) =
      (cursorsAll ancestors ns).map (Cursor.crlf s) := by
  cases ns with
  | nil => rfl
  | cons n ns =>
    rw [List.map_cons, cursorsAll, cursorsAll, isNamed_crlf, List.map_append,
      cursorsAll_crlf ancestors ns]
    split
    · rw [cursors_crlf ancestors n]
    · rfl

end

/-! ### Texts of moved nodes -/

variable {text : String} {n c : Node}

theorem Belongs.not_program (h : n.Belongs text.toList) (program : n.is .program = true) :
    n.children = [] := by
  cases children : n.children with
  | nil => rfl
  | cons c cs =>
    obtain ⟨r, known, _⟩ := h.exists_rule program (children ▸ List.mem_cons_self : c ∈ n.children)
    -- no rule gives a whole text
    have none : (fun _ => false) r = true :=
      known.all (p := fun _ => false) (by decide +kernel) fun s => by cases s <;> decide +kernel
    cases none

theorem not_lineComment (h : n.isComment = false) : n.is .lineComment = false := by
  cases comment : n.is .lineComment with
  | false => rfl
  | true =>
    rw [is, beq_iff_eq] at comment
    rw [isComment, comment] at h
    cases h

/-- A node that is no line comment ends at the same place. -/
theorem Belongs.stop_crlf (h : n.Belongs text.toList) (plain : n.is .lineComment = false) :
    (n.crlf s).stop = s.moved n.stop := by
  rw [Node.stop_crlf]
  unfold stopIn
  split
  · rename_i label
    rw [is, label] at plain
    cases plain
  · rename_i label last
    have program : n.is .program = true := by rw [is, label, beq_self_eq_true]
    rw [h.not_program program] at last
    cases last
  · rfl

/-- A node ends at the same place, or behind the carriage return if it is a line comment. -/
theorem Belongs.exists_ends (h : n.Belongs text.toList) :
    ∃ tail, Ends s.toBytes n.stop (n.crlf s).stop tail := by
  cases comment : n.is .lineComment with
  | false => exact ⟨"", h.stop_crlf comment ▸ .here⟩
  | true =>
    rw [is, beq_iff_eq] at comment
    rw [Node.stop_crlf, comment, stopIn]
    split
    · rename_i feed
      exact ⟨"\r", .behind feed⟩
    · exact ⟨"", .here⟩

theorem Belongs.text_crlf (h : n.Belongs text.toList) (plain : n.is .lineComment = false) :
    (n.crlf s).text s.crlf = crlfText (n.text s) := by
  rw [Node.text, start_crlf, h.stop_crlf plain, Source.textOf_crlf, Node.text]

/-- The text of a part of a node. -/
theorem Belongs.text_child (h : n.Belongs text.toList) {r : Role} :
    ((n.crlf s).child? r).map (Node.text s.crlf) = ((n.child? r).map (Node.text s)).map crlfText := by
  rw [child?_crlf]
  cases found : n.child? r with
  | none => rfl
  | some c =>
    have own := (h.child (mem_children_of_child? found)).text_crlf (s := s)
      (not_lineComment (h.not_isComment_of_child? found))
    exact congrArg some own

end Node

/-! ### Names and comments -/

theorem opensComment_crlf (cs : List Char) : opensComment (Text.crlf cs) = opensComment cs := by
  match cs with
  | [] => rfl
  | [c] =>
    by_cases feed : c = '\n'
    · rw [feed]
      rfl
    · rw [Text.crlf_cons feed, Text.crlf_nil]
  | c :: d :: cs =>
    by_cases feed : c = '\n'
    · subst feed
      rw [Text.crlf_cons_lineFeed, opensComment_cons, opensComment_cons]
      rfl
    · by_cases next : d = '\n'
      · subst next
        rw [Text.crlf_cons feed, Text.crlf_cons_lineFeed, opensComment_cons, opensComment_cons]
        rfl
      · rw [Text.crlf_cons feed, Text.crlf_cons next, opensComment_cons, opensComment_cons]

/-- No token starts at a line feed. -/
theorem Scanned.not_lineFeed {text : List Char} {lexeme : Lexeme} {start stop : Nat}
    (h : Scanned text lexeme start stop) (genuine : lexeme ≠ .token .stray) :
    (encodeChars text)[start]? ≠ some 10 := by
  obtain ⟨front, c, cs, back, rfl, rfl, _, solid, _⟩ := h.exists_chars genuine
  intro feed
  obtain ⟨b, bytes, encoded, _⟩ := Text.readChar_utf8EncodeChar c []
  rw [List.append_nil] at encoded
  rw [Text.encodeChars_append, List.getElem?_append_right (Nat.le_refl _), Nat.sub_self,
    List.cons_append, Text.encodeChars_cons, encoded] at feed
  have first : b = 10 := Option.some.inj feed
  have mem : (10 : UInt8) ∈ String.utf8EncodeChar c := by
    rw [encoded, first]
    exact List.mem_cons_self
  rw [Text.eq_lineFeed_of_mem mem] at solid
  cases solid

end MonoTap.Java
