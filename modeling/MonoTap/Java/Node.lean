import MonoTap.Java.Kind
import MonoTap.Text.Source

/-!
# Syntax trees

A node covers a range of bytes of its source and holds the nodes inside it, in order. A node is
either named, when it has a kind, or a bare token, which is known by its text. Comments are nodes
like any other, wherever they stand.
-/

set_option autoImplicit false

namespace MonoTap.Java

/-- What a node is: of some kind, or the token with some text. -/
inductive Label where
  | kind (k : Kind)
  | token (text : String)
  deriving DecidableEq, Repr

/-- A node of a syntax tree: what it is, its part in the parent, the bytes it covers, and the nodes
inside it. -/
inductive Node where
  | mk (label : Label) (role : Option Role) (start stop : Nat) (children : List Node)

namespace Node

instance : Inhabited Node := ⟨mk (.kind .missing) none 0 0 []⟩

/-- What the node is. -/
def label : Node → Label
  | mk label _ _ _ _ => label

/-- The part the node plays in its parent. -/
def role : Node → Option Role
  | mk _ role _ _ _ => role

/-- The offset of the first byte. -/
def start : Node → Nat
  | mk _ _ start _ _ => start

/-- The offset after the last byte. -/
def stop : Node → Nat
  | mk _ _ _ stop _ => stop

/-- The nodes inside, in source order. -/
def children : Node → List Node
  | mk _ _ _ _ children => children

/-- Whether the node is of the given kind. -/
def is (n : Node) (k : Kind) : Bool :=
  n.label == .kind k

/-- Whether the node is of one of the given kinds. -/
def isAny (n : Node) (ks : List Kind) : Bool :=
  ks.any n.is

/-- Whether the node has a kind. -/
def isNamed (n : Node) : Bool :=
  match n.label with
  | .kind _ => true
  | .token _ => false

/-- Whether the node is a comment. -/
def isComment (n : Node) : Bool :=
  match n.label with
  | .kind k => k.isComment
  | .token _ => false

/-- The node with another part in its parent. -/
def withRole (n : Node) (r : Role) : Node :=
  match n with
  | mk label _ start stop children => mk label (some r) start stop children

/-- The named nodes inside. -/
def namedChildren (n : Node) : List Node :=
  n.children.filter isNamed

/-- The nodes inside that play the given part. -/
def childrenOf (n : Node) (r : Role) : List Node :=
  n.children.filter (·.role == some r)

/-- The first node inside that plays the given part. -/
def child? (n : Node) (r : Role) : Option Node :=
  n.children.find? (·.role == some r)

/-- The first node inside of the given kind. -/
def ofKind? (n : Node) (k : Kind) : Option Node :=
  n.namedChildren.find? (·.is k)

/-- The text of the node in its source. -/
def text (source : Text.Source) (n : Node) : String :=
  source.textOf n.start n.stop

theorem sizeOf_lt_of_mem_children {c n : Node} (h : c ∈ n.children) : sizeOf c < sizeOf n := by
  cases n with
  | mk label role start stop children =>
    have := List.sizeOf_lt_of_mem (show c ∈ children from h)
    simp only [mk.sizeOf_spec]
    omega

theorem mem_children_of_mem_namedChildren {c n : Node} (h : c ∈ n.namedChildren) :
    c ∈ n.children :=
  (List.mem_filter.1 h).1

theorem mem_children_of_mem_childrenOf {c n : Node} {r : Role} (h : c ∈ n.childrenOf r) :
    c ∈ n.children :=
  (List.mem_filter.1 h).1

theorem mem_children_of_child? {c n : Node} {r : Role} (h : n.child? r = some c) :
    c ∈ n.children :=
  List.mem_of_find?_eq_some h

mutual

/-- The node and all nodes inside it, outer before inner and left before right. -/
def preorder : Node → List Node
  | mk label role start stop children => mk label role start stop children :: preorderAll children

/-- The nodes of a list and all nodes inside them. -/
def preorderAll : List Node → List Node
  | [] => []
  | n :: ns => preorder n ++ preorderAll ns

end

/-- The node that shows where the text is no Java, if there is one: the first in `preorder`. -/
def firstFault? (n : Node) : Option Node :=
  n.preorder.find? fun m => m.isAny [.error, .missing]

/-- Whether the text of the node is no Java. -/
def hasError (n : Node) : Bool :=
  n.firstFault?.isSome

/-- The line of the first fault, counted from one; 0 without a fault. -/
def firstErrorLine (source : Text.Source) (n : Node) : Nat :=
  match n.firstFault? with
  | some m => source.line m.start
  | none => 0

end Node

/-- A node together with the nodes around it, innermost first. -/
structure Cursor where
  node : Node
  ancestors : List Node

namespace Cursor

/-- The cursor at a node inside the current one. -/
def down (c : Cursor) (n : Node) : Cursor :=
  ⟨n, c.node :: c.ancestors⟩

end Cursor

namespace Node

mutual

/-- Cursors at the node and at the named nodes inside it, outer before inner and left before
right. -/
def cursors (ancestors : List Node) : Node → List Cursor
  | mk label role start stop children =>
    ⟨mk label role start stop children, ancestors⟩ ::
      cursorsAll (mk label role start stop children :: ancestors) children

/-- Cursors at the named nodes of a list and at the named nodes inside them. -/
def cursorsAll (ancestors : List Node) : List Node → List Cursor
  | [] => []
  | n :: ns => (if n.isNamed then cursors ancestors n else []) ++ cursorsAll ancestors ns

end

end Node

end MonoTap.Java
