import MonoTap.CallSite.Matching
import MonoTap.Proofs.Constructs

/-!
# Where calls stand

Of two nodes of a text, one lies inside the other or ends before the other begins. What a call site
replaces begins after the receiver, so of two eligible calls one is nested in what the other one
replaces, or the two replacements are apart.
-/

set_option autoImplicit false

namespace MonoTap.Java

namespace Node

/-- A property that goes from nodes to the nodes inside them. -/
theorem preorder_induction {motive : Node → Prop}
    (down : ∀ n, motive n → ∀ c ∈ n.children, motive c) {n m : Node} (h : motive n)
    (hm : m ∈ n.preorder) : motive m := by
  generalize hs : sizeOf n = size
  induction size using Nat.strongRecOn generalizing n with
  | ind size ih =>
    rw [preorder_eq] at hm
    rcases List.mem_cons.1 hm with rfl | hm
    · exact h
    · obtain ⟨c, hc, hm⟩ := mem_preorderAll.1 hm
      exact ih _ (hs ▸ sizeOf_lt_of_mem_children hc) (down n h c hc) hm rfl

theorem self_mem_preorder (n : Node) : n ∈ n.preorder := by
  rw [preorder_eq]
  exact List.mem_cons_self

theorem mem_preorder_of_mem_children {n c m : Node} (hc : c ∈ n.children) (hm : m ∈ c.preorder) :
    m ∈ n.preorder := by
  rw [preorder_eq]
  exact List.mem_cons_of_mem _ (mem_preorderAll.2 ⟨c, hc, hm⟩)

/-- What is inside a node inside a node is inside that one. -/
theorem mem_preorder_trans {n m c : Node} (hm : m ∈ n.preorder) (hc : c ∈ m.preorder) :
    c ∈ n.preorder := by
  refine preorder_induction (motive := fun k => ∀ c ∈ k.preorder, c ∈ n.preorder)
    (fun k inside d hd c hc => ?_) (fun _ hc => hc) hm c hc
  exact inside c (mem_preorder_of_mem_children hd hc)

theorem mem_preorder_of_inside {n m c : Node} (hm : m ∈ n.preorder)
    (hc : c ∈ preorderAll m.children) : c ∈ n.preorder := by
  refine mem_preorder_trans hm ?_
  rw [preorder_eq]
  exact List.mem_cons_of_mem _ hc

end Node

variable {P : Nat → Nat → Prop} {lo hi : Nat} {ns : List Node}

/-- Where the nodes inside placed nodes stand. -/
theorem Placed.bounds (h : Placed P lo ns hi) {m : Node} (hm : m ∈ Node.preorderAll ns) :
    lo ≤ m.start ∧ m.start ≤ m.stop ∧ m.stop ≤ hi := by
  induction h with
  | nil => exact (List.not_mem_nil hm).elim
  | @cons lo hi n ns after inside covers rest ihInside ihRest =>
    have width := inside.le
    have later := rest.le
    rw [Node.preorderAll, Node.preorder_eq] at hm
    rcases List.mem_append.1 hm with hm | hm
    · rcases List.mem_cons.1 hm with rfl | hm
      · exact ⟨after, width, later⟩
      · have := ihInside hm
        omega
    · have := ihRest hm
      omega

/-- Of two nodes, the second lies inside the first or begins where the first has ended. -/
theorem Placed.pairwise_preorder (h : Placed P lo ns hi) :
    (Node.preorderAll ns).Pairwise fun a b =>
      b ∈ Node.preorderAll a.children ∨ a.stop ≤ b.start := by
  induction h with
  | nil => exact .nil
  | @cons lo hi n ns after inside covers rest ihInside ihRest =>
    rw [Node.preorderAll, Node.preorder_eq]
    refine List.pairwise_append.2 ⟨?_, ihRest, fun a ha b hb => Or.inr ?_⟩
    · exact List.pairwise_cons.2 ⟨fun b hb => Or.inl hb, ihInside⟩
    · have later := (rest.bounds hb).1
      rcases List.mem_cons.1 ha with rfl | ha
      · exact later
      · have := (inside.bounds ha).2.2
        omega

/-- Of two nodes side by side, one ends before the other begins. -/
theorem Placed.apart (h : Placed P lo ns hi) {a b : Node} (ha : a ∈ ns) (hb : b ∈ ns) :
    a = b ∨ a.stop ≤ b.start ∨ b.stop ≤ a.start := by
  induction h with
  | nil => exact (List.not_mem_nil ha).elim
  | cons after inside covers rest _ ih =>
    rcases List.mem_cons.1 ha with rfl | later
    · rcases List.mem_cons.1 hb with rfl | later
      · exact Or.inl rfl
      · exact Or.inr (Or.inl (rest.of_mem later).1)
    · rcases List.mem_cons.1 hb with rfl | laterB
      · exact Or.inr (Or.inr (rest.of_mem later).1)
      · exact ih later laterB

namespace Node

variable {text : List Char} {n m : Node}

theorem Belongs.inside (h : n.Belongs text) (hm : m ∈ n.preorder) : m.Belongs text :=
  preorder_induction (fun _ h _ hc => h.child hc) h hm

theorem Belongs.inside_children (h : n.Belongs text) (hm : m ∈ preorderAll n.children) :
    m.Belongs text := by
  refine h.inside ?_
  rw [preorder_eq]
  exact List.mem_cons_of_mem _ hm

theorem Belongs.bounds (h : n.Belongs text) (hm : m ∈ n.preorder) :
    n.start ≤ m.start ∧ m.stop ≤ n.stop := by
  rw [preorder_eq] at hm
  rcases List.mem_cons.1 hm with rfl | hm
  · exact ⟨Nat.le_refl _, Nat.le_refl _⟩
  · obtain ⟨first, _, last⟩ := h.placed.bounds hm
    exact ⟨first, last⟩

/-- What is inside a node and has a kind of its own is in a named node of it. -/
theorem Belongs.exists_mem_namedChildren (h : n.Belongs text) (hm : m ∈ preorderAll n.children)
    (named : m.isNamed = true) : ∃ c ∈ n.namedChildren, m ∈ c.preorder := by
  obtain ⟨c, hc, hm⟩ := mem_preorderAll.1 hm
  have belongs := h.child hc
  refine ⟨c, List.mem_filter.2 ⟨hc, ?_⟩, hm⟩
  cases inside : c.children with
  | nil =>
    rw [preorder_eq, inside] at hm
    rwa [← List.mem_singleton.1 hm]
  | cons d ds =>
    obtain ⟨k, r, label, _⟩ := belongs.made.inside (inside ▸ List.cons_ne_nil d ds)
    rw [isNamed, label]

/-- What is inside a node, has a kind of its own and is no comment is in a named node that is none. -/
theorem Belongs.exists_namedChild (h : n.Belongs text) (hm : m ∈ preorderAll n.children)
    (named : m.isNamed = true) (noComment : m.isComment = false) :
    ∃ c ∈ n.namedChildren, c.isComment = false ∧ m ∈ c.preorder := by
  obtain ⟨c, hc, hm⟩ := h.exists_mem_namedChildren hm named
  refine ⟨c, hc, ?_, hm⟩
  cases comment : c.isComment with
  | false => rfl
  | true =>
    rw [preorder_eq, (h.child (mem_children_of_mem_namedChildren hc)).comment_leaf comment] at hm
    rw [List.mem_singleton.1 hm, comment] at noComment
    cases noComment

end Node

namespace Node

mutual

/-- The nodes that cursors go to are nodes inside, in order. -/
theorem map_node_cursors (ancestors : List Node) (n : Node) :
    ((n.cursors ancestors).map Cursor.node).Sublist n.preorder := by
  cases n with
  | mk label role start stop children =>
    rw [cursors, preorder, List.map_cons]
    exact (map_node_cursorsAll _ children).cons_cons _

theorem map_node_cursorsAll (ancestors ns : List Node) :
    ((cursorsAll ancestors ns).map Cursor.node).Sublist (preorderAll ns) := by
  cases ns with
  | nil => exact .slnil
  | cons n ns =>
    rw [cursorsAll, preorderAll, List.map_append]
    refine List.Sublist.append ?_ (map_node_cursorsAll ancestors ns)
    split
    · exact map_node_cursors ancestors n
    · exact List.nil_sublist _

end

end Node

end MonoTap.Java

namespace MonoTap

open Java (CompilationUnit Cursor Node Spans)
open Text (encodeChars)

/-- The offset from which on a conversion replaces a call: that of the name of the method. -/
def callStart (call : Node) : Nat :=
  ((call.child? .name).map Node.start).getD call.start

/-- The offset after the name of the method of a call. -/
def nameStop (call : Node) : Nat :=
  ((call.child? .name).map Node.stop).getD call.start

/-- A call in a text without faults, by the name of its method. -/
structure IsCall (text : List Char) (n : Node) : Prop where
  belongs : n.Belongs text
  invocation : n.is .methodInvocation = true
  named : (n.child? .name).isSome

variable {text : List Char} {a b call : Node}

/-- What a conversion replaces begins with a name, which holds nothing. -/
theorem IsCall.exists_name (h : IsCall text call) :
    ∃ name ∈ call.children, name.role = some .name ∧ callStart call = name.start ∧
      nameStop call = name.stop ∧ name.children = [] ∧ name.Belongs text := by
  obtain ⟨name, hname⟩ := Option.isSome_iff_exists.1 h.named
  have mem := Node.mem_children_of_child? hname
  have part : name.role = some .name := by
    have := List.find?_some hname
    exact eq_of_beq this
  have leaf := h.belongs.name_leaf h.invocation mem part
  refine ⟨name, mem, part, ?_, ?_, leaf, h.belongs.child mem⟩
  · rw [callStart, hname]
    rfl
  · rw [nameStop, hname]
    rfl

theorem IsCall.spans (h : IsCall text call) :
    Spans text (callStart call) call.stop ∧ call.start ≤ callStart call := by
  obtain ⟨name, mem, _, start, _, _, belongs⟩ := h.exists_name
  obtain ⟨first, last⟩ :=
    h.belongs.bounds (Node.mem_preorder_of_mem_children mem name.self_mem_preorder)
  have wide := belongs.spans.wide
  rw [start]
  exact ⟨⟨belongs.spans.first, h.belongs.spans.last, by omega⟩, first⟩

/-- A call inside another one lies in the receiver, or after the name of the method. -/
theorem IsCall.nested (ha : IsCall text a) (hb : IsCall text b)
    (inside : b ∈ Node.preorderAll a.children) :
    b.stop ≤ callStart a ∨
      callStart a < nameStop a ∧ nameStop a ≤ callStart b ∧ b.stop ≤ a.stop := by
  obtain ⟨name, mem, _, start, stop, leaf, belongs⟩ := ha.exists_name
  obtain ⟨c, hc, hbc⟩ := Node.mem_preorderAll.1 inside
  obtain ⟨first, last⟩ := (ha.belongs.child hc).bounds hbc
  have wide := belongs.spans.wide
  have within := (ha.belongs.placed.of_mem hc).2.2.2
  have own := hb.spans.2
  rw [start, stop]
  rcases ha.belongs.placed.apart hc mem with rfl | before | after
  · -- the name of the method holds nothing, but a call holds the name of a method
    rw [Node.preorder_eq, leaf] at hbc
    cases List.mem_singleton.1 hbc
    obtain ⟨_, inName, _⟩ := hb.exists_name
    rw [leaf] at inName
    cases inName
  · exact Or.inl (by omega)
  · exact Or.inr ⟨wide, by omega, by omega⟩

/-- What the conversions of two calls replace: the second lies inside the first, or one ends before
the other begins. -/
def Follows (a b : Node) : Prop :=
  callStart a < callStart b ∧ b.stop ≤ a.stop ∨ a.stop ≤ callStart b ∨ b.stop ≤ callStart a

/-! ### Eligible calls -/

theorem named_of_isEligible {u : CompilationUnit} {call : Cursor} (h : isEligible u call = true) :
    call.node.is .methodInvocation = true ∧ (call.node.child? .name).isSome := by
  rw [isEligible, Bool.and_eq_true, Bool.and_eq_true] at h
  obtain ⟨⟨invocation, name⟩, _⟩ := h
  refine ⟨invocation, ?_⟩
  cases hname : call.node.child? .name with
  | some _ => rfl
  | none =>
    rw [partText, hname] at name
    have absent : ("" == methodName) = true := name
    exact absurd absent (by decide)

section

variable {text : String} (clean : (CompilationUnit.ofString text).hasSyntaxErrors = false)
include clean

/-- Eligible calls are calls inside the text. -/
theorem isCall_of_mem_eligibleCalls {call : Cursor}
    (h : call ∈ eligibleCalls (CompilationUnit.ofString text)) :
    IsCall text.toList call.node ∧
      call.node ∈ Node.preorderAll (Java.parse text.toList).children := by
  obtain ⟨mem, eligible⟩ := List.mem_filter.1 h
  obtain ⟨invocation, named⟩ := named_of_isEligible eligible
  have inTree : call.node ∈ (Java.parse text.toList).preorder :=
    (Node.map_node_cursors [] _).subset (List.mem_map_of_mem mem)
  rw [Node.preorder_eq] at inTree
  have inside : call.node ∈ Node.preorderAll (Java.parse text.toList).children := by
    rcases List.mem_cons.1 inTree with root | inside
    · obtain ⟨_, _, _, _, same⟩ := Java.exists_reading clean
      rw [root, same] at invocation
      cases invocation
    · exact inside
  obtain ⟨c, hc, hcall⟩ := Node.mem_preorderAll.1 inside
  exact ⟨⟨(Node.belongs_of_mem_parse clean hc).inside hcall, invocation, named⟩, inside⟩

/-- Of two eligible calls, the second is nested in what the conversion of the first replaces, or the
two replacements are apart. -/
theorem eligibleCalls_pairwise :
    (eligibleCalls (CompilationUnit.ofString text)).Pairwise fun a b => Follows a.node b.node := by
  have isCall {call : Cursor} (h : call ∈ eligibleCalls (CompilationUnit.ofString text)) :=
    isCall_of_mem_eligibleCalls clean h
  have placed := Java.placed_parse clean
  have order : (Java.parse text.toList).preorder.Pairwise fun a b =>
      b ∈ Node.preorderAll a.children ∨ a.stop ≤ b.start := by
    rw [Node.preorder_eq]
    exact List.pairwise_cons.2 ⟨fun b hb => Or.inl hb, placed.pairwise_preorder⟩
  have nodes : ((eligibleCalls (CompilationUnit.ofString text)).map Cursor.node).Pairwise
      fun a b => b ∈ Node.preorderAll a.children ∨ a.stop ≤ b.start :=
    order.sublist ((List.filter_sublist.map _).trans (Node.map_node_cursors [] _))
  rw [List.pairwise_map] at nodes
  refine nodes.imp_of_mem fun {a b} ha hb h => ?_
  rcases h with inside | later
  · rcases (isCall ha).1.nested (isCall hb).1 inside with before | nested
    · exact Or.inr (Or.inr before)
    · exact Or.inl ⟨by omega, nested.2.2⟩
  · have own := (isCall hb).1.spans.2
    exact Or.inr (Or.inl (by omega))

end

end MonoTap
