import MonoTap.Proofs.Lexemes
import MonoTap.Proofs.Relocation
import MonoTap.Proofs.Spelling

/-!
# Names in relocated trees

In a relocated tree a name is declared at the same place, if the relocation keeps the order of the nodes
and the texts of names.
-/

set_option autoImplicit false

namespace MonoTap.Java

open Text (Source)

/-! ### Parameters without types -/

namespace Rule

variable {S : Type} {grammar : S → Rule S} {rule : Rule S} {op nodes : List Node} {ts : List Token}

/-- Whether a rule gives no nodes but those of tokens. -/
def isFlat : Rule S → Bool
  | .seq a b | .alt a b => a.isFlat && b.isFlat
  | .many r | .field _ r => r.isFlat
  | .node _ _ | .chain _ _ | .left | .ref _ => false
  | _ => true

/-- The nodes of tokens hold nothing. -/
theorem Derives.leaves (h : Derives grammar rule op ts nodes) (flat : rule.isFlat = true)
    (proper : ∀ t ∈ ts, t.Proper) : ∀ n ∈ nodes, n.children = [] := by
  have single {t : Token} {label : Label} {stop : Nat} (proper : t.Proper) :
      ∀ n ∈ t.extras ++ [Node.mk label none t.start stop []], n.children = [] := by
    intro n hn
    rcases List.mem_append.1 hn with hn | hn
    · exact (proper.loose n hn).children
    · cases List.mem_singleton.1 hn
      rfl
  induction h with
  | empty | manyNil | «unless» => exact fun n hn => (List.not_mem_nil hn).elim
  | token | glued | leaf | name | literal => exact single (proper _ List.mem_cons_self)
  | seq left right ihLeft ihRight =>
    rw [isFlat, Bool.and_eq_true] at flat
    rw [List.forall_mem_append] at proper ⊢
    exact ⟨ihLeft flat.1 proper.1, ihRight flat.2 proper.2⟩
  | altLeft left ih =>
    rw [isFlat, Bool.and_eq_true] at flat
    exact ih flat.1 proper
  | altRight right ih =>
    rw [isFlat, Bool.and_eq_true] at flat
    exact ih flat.2 proper
  | manyCons head tail ihHead ihTail =>
    rw [List.forall_mem_append] at proper ⊢
    exact ⟨ihHead flat proper.1, ihTail flat proper.2⟩
  | field inner ih =>
    intro n hn
    obtain ⟨m, hm, rfl⟩ := List.mem_map.1 hn
    have empty := ih flat proper m hm
    split
    · exact empty
    · cases m
      exact empty
  | left | ref | node | chainBase | chainMore => cases flat

end Rule

/-- Parameters without types are names, with comments between them. -/
theorem Node.Belongs.inferred_leaf {text : List Char} {n c : Node} (h : n.Belongs text)
    (is : n.is .inferredParameters = true) (hc : c ∈ n.children) : c.children = [] := by
  obtain ⟨r, known, fills⟩ := h.exists_rule is hc
  have flat : r.isFlat = true := known.all rfl fun s => by cases s <;> decide +kernel
  obtain ⟨_, op, ts, nodes, _, proper, derives, same⟩ := fills
  exact derives.leaves flat proper c ((List.dropWhile_suffix _).subset (same ▸ hc))

namespace Node

variable {text : List Char} {e : Relocation} {n : Node} {ns : List Node}

/-! ### Parts of relocated nodes -/

theorem filter_relocateAll {p q : Node → Bool} (same : ∀ n : Node, p (n.relocate e) = q n) :
    (relocateAll e ns).filter p = relocateAll e (ns.filter q) := by
  rw [relocateAll_eq, relocateAll_eq, List.filter_map, List.filter_filter, List.filter_filter]
  refine congrArg (List.map _) (List.filter_congr fun n _ => ?_)
  rw [Function.comp_apply, same, Bool.and_comm]

theorem find?_relocateAll {p q : Node → Bool} (kept : ∀ n ∈ ns, q n = true → e.drops n = false)
    (same : ∀ n ∈ ns, e.drops n = false → p (n.relocate e) = q n) :
    (relocateAll e ns).find? p = (ns.find? q).map (relocate e) := by
  induction ns with
  | nil => rfl
  | cons n ns ih =>
    have rest := ih (fun m hm => kept m (List.mem_cons_of_mem _ hm))
      fun m hm => same m (List.mem_cons_of_mem _ hm)
    rw [relocateAll, List.find?_cons]
    cases dropped : e.drops n with
    | true =>
      have other : q n = false := by
        rw [← Bool.not_eq_true]
        intro found
        rw [kept n List.mem_cons_self found] at dropped
        cases dropped
      rw [if_pos rfl, rest, other]
    | false =>
      rw [if_neg Bool.false_ne_true, List.find?_cons, same n List.mem_cons_self dropped, rest]
      cases q n <;> rfl

@[simp] theorem namedChildren_relocate (n : Node) :
    (n.relocate e).namedChildren = relocateAll e n.namedChildren := by
  rw [namedChildren, children_relocate, filter_relocateAll isNamed_relocate, namedChildren]

/-- What is of a kind other than those of comments is kept. -/
theorem not_drops_of_is {k : Kind} (is : n.is k = true) (other : k.isComment = false) :
    e.drops n = false := by
  cases dropped : e.drops n with
  | false => rfl
  | true =>
    have comment := e.comment n dropped
    rw [isComment_of_is is other] at comment
    cases comment

theorem not_is_of_drops {k : Kind} (dropped : e.drops n = true) (other : k.isComment = false) :
    n.is k = false := by
  rw [← Bool.not_eq_true]
  intro is
  rw [not_drops_of_is is other] at dropped
  cases dropped

theorem Belongs.not_drops_of_role (h : n.Belongs text) {r : Role} (role : n.role = some r) :
    e.drops n = false := by
  cases dropped : e.drops n with
  | false => rfl
  | true =>
    have none := (h.made.loose (by rw [isExtra, e.comment n dropped, Bool.true_or])).role
    rw [role] at none
    cases none

theorem ofKind?_relocate (n : Node) {k : Kind} (other : k.isComment = false) :
    (n.relocate e).ofKind? k = (n.ofKind? k).map (relocate e) := by
  rw [ofKind?, namedChildren_relocate, ofKind?]
  exact find?_relocateAll (fun m _ is => not_drops_of_is is other) fun m _ _ => is_relocate m k

theorem child?_relocate (belongs : ∀ c ∈ n.children, c.Belongs text) (r : Role) :
    (n.relocate e).child? r = (n.child? r).map (relocate e) := by
  rw [child?, children_relocate, child?]
  refine find?_relocateAll (fun c hc role => ?_) fun c _ _ => by rw [role_relocate]
  exact (belongs c hc).not_drops_of_role (eq_of_beq role)

theorem childrenOf_relocate (n : Node) (r : Role) :
    (n.relocate e).childrenOf r = relocateAll e (n.childrenOf r) := by
  rw [childrenOf, children_relocate, filter_relocateAll fun c => by rw [role_relocate], childrenOf]

/-- Placed nodes start one after the other. -/
theorem pairwise_start {P : Nat → Nat → Prop} {lo hi : Nat} (h : Placed P lo ns hi) :
    ns.Pairwise fun a b => a.start ≤ b.start := by
  induction ns generalizing lo with
  | nil => exact .nil
  | cons n ns ih =>
    refine List.pairwise_cons.2 ⟨fun m hm => h.head_le (List.mem_cons_of_mem _ hm), ?_⟩
    cases h with
    | cons _ _ _ rest => exact ih rest

/-- Where the nodes are in order, those before an offset are all the first ones. -/
theorem takeWhile_start (sorted : ns.Pairwise fun a b => a.start ≤ b.start) (before : Nat) :
    ns.takeWhile (·.start < before) = ns.filter (·.start < before) := by
  induction ns with
  | nil => rfl
  | cons n ns ih =>
    obtain ⟨later, sorted⟩ := List.pairwise_cons.1 sorted
    rw [List.takeWhile_cons, List.filter_cons, ih sorted]
    split
    · rfl
    · rename_i late
      rw [decide_eq_true_eq, Nat.not_lt] at late
      refine (List.filter_eq_nil_iff.2 fun m hm early => ?_).symm
      have := later m hm
      rw [decide_eq_true_eq] at early
      omega

theorem pairwise_start_relocateAll (order : ∀ a b, e.start a < e.start b ↔ a < b)
    (sorted : ns.Pairwise fun a b => a.start ≤ b.start) :
    (relocateAll e ns).Pairwise fun a b => a.start ≤ b.start := by
  rw [relocateAll_eq, List.pairwise_map]
  refine (sorted.sublist List.filter_sublist).imp fun {a b} early => ?_
  have := order b.start a.start
  rw [start_relocate, start_relocate]
  omega

/-- The nodes that start before an offset, where they are in order. -/
theorem takeWhile_relocateAll (order : ∀ a b, e.start a < e.start b ↔ a < b)
    (sorted : ns.Pairwise fun a b => a.start ≤ b.start) (before : Nat) :
    (relocateAll e ns).takeWhile (·.start < e.start before) =
      relocateAll e (ns.takeWhile (·.start < before)) := by
  rw [takeWhile_start (pairwise_start_relocateAll order sorted), takeWhile_start sorted]
  refine filter_relocateAll fun n => ?_
  rw [start_relocate, decide_eq_decide, order]

end Node

/-- The cursor at its new place. -/
def Cursor.relocate (e : Relocation) (c : Cursor) : Cursor :=
  ⟨c.node.relocate e, c.ancestors.map (Node.relocate e)⟩

@[simp] theorem Cursor.node_relocate {e : Relocation} (c : Cursor) :
    (c.relocate e).node = c.node.relocate e := rfl

theorem Cursor.down_relocate {e : Relocation} (c : Cursor) (n : Node) :
    (c.relocate e).down (n.relocate e) = (c.down n).relocate e := rfl

namespace Node

variable {e : Relocation}

mutual

/-- The places in a relocated tree. -/
theorem cursors_relocate (ancestors : List Node) (n : Node)
    (leaf : ∀ m ∈ n.preorder, e.drops m = true → m.children = []) (kept : e.drops n = false) :
    (n.relocate e).cursors (ancestors.map (relocate e)) =
      ((n.cursors ancestors).filter (!e.drops ·.node)).map (Cursor.relocate e) := by
  cases n with
  | mk label role start stop children =>
    have inside := cursorsAll_relocate (mk label role start stop children :: ancestors) children
      fun m hm => leaf m (List.mem_cons_of_mem _ hm)
    rw [List.map_cons, relocate] at inside
    rw [relocate, cursors, cursors, List.filter_cons, kept, if_pos (by rfl), List.map_cons, inside,
      Cursor.relocate, relocate]

theorem cursorsAll_relocate (ancestors ns : List Node)
    (leaf : ∀ m ∈ preorderAll ns, e.drops m = true → m.children = []) :
    cursorsAll (ancestors.map (relocate e)) (relocateAll e ns) =
      ((cursorsAll ancestors ns).filter (!e.drops ·.node)).map (Cursor.relocate e) := by
  cases ns with
  | nil => rfl
  | cons n ns =>
    have own : ∀ m ∈ n.preorder, e.drops m = true → m.children = [] := fun m hm =>
      leaf m (mem_preorderAll.2 ⟨n, List.mem_cons_self, hm⟩)
    have rest := cursorsAll_relocate ancestors ns fun m hm => by
      obtain ⟨c, hc, inside⟩ := mem_preorderAll.1 hm
      exact leaf m (mem_preorderAll.2 ⟨c, List.mem_cons_of_mem _ hc, inside⟩)
    rw [cursorsAll, List.filter_append, List.map_append, ← rest, relocateAll]
    cases dropped : e.drops n with
    | false =>
      rw [if_neg Bool.false_ne_true, cursorsAll, isNamed_relocate]
      split
      · rw [cursors_relocate ancestors n own dropped]
      · rfl
    | true =>
      have none : ((if n.isNamed = true then cursors ancestors n else []).filter
          (!e.drops ·.node)) = [] := by
        have empty := own n n.self_mem_preorder dropped
        split
        · cases n with
          | mk label role start stop children =>
            cases (empty : children = [])
            rw [cursors, cursorsAll, List.filter_cons, dropped]
            rfl
        · rfl
      rw [if_pos rfl, none]
      rfl

end

end Node

/-! ### What must be kept -/

/-- The words that the text of a type or an operand is compared with. -/
def telling : List String := ["var", Receiver.monoSimpleName, Receiver.monoName]

/-- Whether a node is a name of something. -/
def Node.isName (n : Node) : Bool :=
  n.role == some .name || n.role == some .field || n.isAny [.scopedTypeIdentifier, .scopedIdentifier]

/-- Whether a call makes a value of the type whose calls are migrated, and the type of its argument
tells that of the value. -/
def Node.isFactory (source : Source) (n : Node) : Bool :=
  n.is .methodInvocation &&
    ((n.child? .object).any fun o => [Receiver.monoSimpleName, Receiver.monoName].contains (o.text source)) &&
    (n.child? .name).any fun m => ["just", "justOrEmpty"].contains (m.text source)

/-- Whether a relocation keeps what the types of expressions depend on: the order of the nodes, the texts
of names, of type arguments and of the types of a callback's parameters, and all nodes that count among
type arguments, in parentheses and among the arguments of a factory call. -/
structure Relocation.Faithful (e : Relocation) (source target : Source) (root : Node) : Prop where
  larger : source.size ≤ target.size
  order : ∀ a b, e.start a < e.start b ↔ a < b
  leaf : ∀ n ∈ Node.preorderAll root.children, n.children = [] → e.drops n = false →
    (n.relocate e).text target = n.text source
  name : ∀ n ∈ Node.preorderAll root.children, n.isName = true →
    (n.relocate e).text target = n.text source
  word : ∀ n ∈ Node.preorderAll root.children, ∀ word ∈ telling,
    (n.relocate e).text target = word ↔ n.text source = word
  arguments : ∀ n ∈ Node.preorderAll root.children, n.is .typeArguments = true →
    ∀ c ∈ Node.preorderAll n.children, e.drops c = false ∧ (c.relocate e).text target = c.text source
  annotated : ∀ n ∈ Node.preorderAll root.children, n.is .annotatedType = true →
    ∀ c, (Receiver.unannotated n).getLast? = some c → e.drops c = false
  parenthesis : ∀ n ∈ Node.preorderAll root.children, n.is .parenthesizedExpression = true →
    ∀ c, n.namedChildren.head? = some c → e.drops c = false
  factory : ∀ n ∈ Node.preorderAll root.children, n.isFactory source = true →
    ∀ arguments, n.child? .arguments = some arguments → ∀ c ∈ arguments.children, e.drops c = false
  parameter : ∀ n ∈ Node.preorderAll root.children, n.is .lambdaExpression = true →
    ∀ parameters, n.child? .parameters = some parameters → ∀ p ∈ parameters.namedChildren,
      ∀ type, p.child? .type = some type → (type.relocate e).text target = type.text source

end MonoTap.Java

namespace MonoTap.Receiver

open Java (Cursor Kind Node Placed Relocation Role Solid opensComment)
open Java.Node (relocateAll)
open Text (Source)

variable {text name : String} {source target : Source} {e : Relocation} {m n root : Node} {c : Cursor}
  {ns : List Node}

/-- The declaration in the relocated tree. -/
def Declaration.relocate (e : Relocation) (d : Declaration) : Declaration :=
  ⟨d.type.map (Node.relocate e), d.value.map (Cursor.relocate e)⟩

theorem mem_preorder_of_below (hn : n ∈ Node.preorderAll root.children) : n ∈ root.preorder := by
  rw [Node.preorder_eq]
  exact List.mem_cons_of_mem _ hn

/-- A node other than the root stands below it. -/
theorem below_of_within (program : root.is .program = true) (h : c.Within root)
    (inside : c.node.is .program = false) : c.node ∈ Node.preorderAll root.children := by
  have mem := h.mem_preorder
  rw [Node.preorder_eq] at mem
  rcases List.mem_cons.1 mem with same | mem
  · rw [same, program] at inside
    cases inside
  · exact mem

section

variable (belongs : ∀ m ∈ root.children, m.Belongs text.toList)
include belongs

theorem belongs_below (hm : m ∈ Node.preorderAll root.children) : m.Belongs text.toList := by
  obtain ⟨top, htop, inside⟩ := Node.mem_preorderAll.1 hm
  exact (belongs top htop).inside inside

theorem belongs_children (hn : n ∈ root.preorder) : ∀ m ∈ n.children, m.Belongs text.toList :=
  fun _ hm => belongs_below belongs (mem_preorderAll_of_child hn hm)

theorem sorted_children (sorted : root.children.Pairwise fun a b => a.start ≤ b.start)
    (hn : n ∈ root.preorder) :
    n.children.Pairwise fun a b => a.start ≤ b.start := by
  rw [Node.preorder_eq] at hn
  rcases List.mem_cons.1 hn with rfl | hn
  · exact sorted
  · exact Node.pairwise_start (belongs_below belongs hn).placed

theorem declarationAt_relocate (h : c.Within root) :
    declarationAt (c.relocate e) = (declarationAt c).relocate e := by
  have inside := belongs_children belongs h.mem_preorder
  rw [declarationAt, Cursor.node_relocate, Node.child?_relocate inside, Node.child?_relocate inside,
    declarationAt, Declaration.relocate, Option.map_map, Option.map_map]
  rfl

/-- A comment has no name. -/
theorem not_isNamed_of_drops (nonempty : name ≠ "") (hm : m ∈ Node.preorderAll root.children)
    (dropped : e.drops m = true) : isNamed source name m = false := by
  have empty := (belongs_below belongs hm).comment_leaf (e.comment m dropped)
  rw [isNamed, Node.child?, empty]
  exact beq_eq_false_iff_ne.2 nonempty.symm

/-! ### Declarations -/

variable (faithful : e.Faithful source target root)
include faithful

theorem isNamed_relocate (hm : m ∈ root.preorder) :
    isNamed target name (m.relocate e) = isNamed source name m := by
  rw [isNamed, Node.child?_relocate (belongs_children belongs hm), isNamed]
  cases found : m.child? .name with
  | none => rfl
  | some d =>
    have isName : d.isName = true := by
      rw [Node.isName, Node.role_of_child? found]
      rfl
    have same := faithful.name d (mem_preorderAll_of_child hm (Node.mem_children_of_child? found)) isName
    simp only [Option.map_some, same]

theorem declarator?_relocate (h : c.Within root) :
    declarator? target name (c.relocate e) = (declarator? source name c).map (Declaration.relocate e) := by
  have inside := belongs_children belongs h.mem_preorder
  have found : (relocateAll e (c.node.childrenOf .declarator)).find? (isNamed target name) =
      ((c.node.childrenOf .declarator).find? (isNamed source name)).map (Node.relocate e) := by
    refine Node.find?_relocateAll (fun d hd _ => ?_) fun d hd _ => ?_
    · obtain ⟨mem, role⟩ := List.mem_filter.1 hd
      exact (inside d mem).not_drops_of_role (eq_of_beq role)
    · exact isNamed_relocate belongs faithful
        (h.down (Node.mem_children_of_mem_childrenOf hd)).mem_preorder
  rw [declarator?, Cursor.node_relocate, Node.childrenOf_relocate, found, declarator?,
    Node.child?_relocate inside]
  cases same : (c.node.childrenOf .declarator).find? (isNamed source name) with
  | none => rfl
  | some d =>
    have mem := Node.mem_children_of_mem_childrenOf (List.mem_of_find?_eq_some same)
    have deeper : ∀ m ∈ d.children, m.Belongs text.toList :=
      belongs_children belongs (h.down mem).mem_preorder
    simp only [Option.map_some, Declaration.relocate]
    rw [Node.child?_relocate deeper, Option.map_map, Option.map_map]
    rfl

/-- What some of the declarations inside a node declare. -/
theorem findSome?_relocate (h : c.Within root) {k : Kind} (other : k.isComment = false)
    (inside : ∀ m ∈ ns, m ∈ c.node.children) :
    ((relocateAll e ns).filter (·.is k)).findSome?
        (fun m => declarator? target name ((c.relocate e).down m)) =
      ((ns.filter (·.is k)).findSome? fun m => declarator? source name (c.down m)).map
        (Declaration.relocate e) := by
  have kept : relocateAll e (ns.filter (·.is k)) = (ns.filter (·.is k)).map (Node.relocate e) :=
    Node.relocateAll_of_kept fun m hm => Node.not_drops_of_is (List.mem_filter.1 hm).2 other
  have among : ∀ m ∈ ns.filter (·.is k), m ∈ c.node.children := fun m hm =>
    inside m (List.mem_filter.1 hm).1
  rw [Node.filter_relocateAll fun m => Node.is_relocate m k, kept]
  generalize ns.filter (·.is k) = ms at among
  induction ms with
  | nil => rfl
  | cons m ms ih =>
    have own : declarator? target name ((c.down m).relocate e) =
        (declarator? source name (c.down m)).map (Declaration.relocate e) :=
      declarator?_relocate belongs faithful (h.down (among m List.mem_cons_self))
    rw [List.map_cons, List.findSome?_cons, List.findSome?_cons, Cursor.down_relocate, own,
      ih fun m hm => among m (List.mem_cons_of_mem _ hm)]
    cases declarator? source name (c.down m) <;> rfl

theorem field?_relocate (h : c.Within root) :
    field? target name (c.relocate e) = (field? source name c).map (Declaration.relocate e) := by
  rw [field?, Cursor.node_relocate, Node.namedChildren_relocate, field?]
  exact findSome?_relocate belongs faithful h rfl fun m => Node.mem_children_of_mem_namedChildren

theorem loopVariable?_relocate (h : c.Within root) :
    loopVariable? target name (c.relocate e) =
      (loopVariable? source name c).map (Declaration.relocate e) := by
  rw [loopVariable?, Cursor.node_relocate, Node.childrenOf_relocate, loopVariable?]
  exact findSome?_relocate belongs faithful h rfl fun m => Node.mem_children_of_mem_childrenOf

theorem local?_relocate (h : c.Within root)
    (sorted : c.node.children.Pairwise fun a b => a.start ≤ b.start) (before : Nat) :
    local? target name (e.start before) (c.relocate e) =
      (local? source name before c).map (Declaration.relocate e) := by
  have named : c.node.namedChildren.Pairwise fun a b => a.start ≤ b.start :=
    sorted.sublist List.filter_sublist
  rw [local?, Cursor.node_relocate, Node.namedChildren_relocate,
    Node.takeWhile_relocateAll faithful.order named, local?]
  exact findSome?_relocate belongs faithful h rfl fun m hm =>
    Node.mem_children_of_mem_namedChildren ((List.takeWhile_prefix _).subset hm)

theorem caught?_relocate (h : c.Within root) :
    caught? target name (c.node.relocate e) = (caught? source name c.node).map (Declaration.relocate e) := by
  rw [caught?, Node.namedChildren_relocate, Node.find?_relocateAll (q := fun p =>
    p.is .catchFormalParameter && isNamed source name p) (fun p _ fits => ?_) fun p hp _ => ?_, caught?,
    Option.map_map, Option.map_map]
  · refine congrArg (Option.map · _) (funext fun p => ?_)
    rw [Function.comp_apply, Node.ofKind?_relocate p rfl]
    rfl
  · rw [Bool.and_eq_true] at fits
    exact Node.not_drops_of_is fits.1 rfl
  · rw [Node.is_relocate, isNamed_relocate belongs faithful (m := p)
      (h.down (Node.mem_children_of_mem_namedChildren hp)).mem_preorder]

theorem resource?_relocate (nonempty : name ≠ "") (h : c.Within root) :
    resource? target name (c.relocate e) = (resource? source name c).map (Declaration.relocate e) := by
  have inside := belongs_children belongs h.mem_preorder
  rw [resource?, Cursor.node_relocate, Node.child?_relocate inside, resource?]
  cases found : c.node.child? .resources with
  | none => rfl
  | some rs =>
    have place := h.down (Node.mem_children_of_child? found)
    have search : (relocateAll e rs.namedChildren).find? (isNamed target name) =
        (rs.namedChildren.find? (isNamed source name)).map (Node.relocate e) := by
      refine Node.find?_relocateAll (fun r hr named => ?_) fun r hr _ =>
        isNamed_relocate belongs faithful (place.down (Node.mem_children_of_mem_namedChildren hr)).mem_preorder
      rw [← Bool.not_eq_true]
      intro dropped
      rw [not_isNamed_of_drops belongs nonempty (mem_preorderAll_of_child place.mem_preorder
        (Node.mem_children_of_mem_namedChildren hr)) dropped] at named
      cases named
    simp only [Option.map_some]
    rw [Node.namedChildren_relocate, search]
    cases same : rs.namedChildren.find? (isNamed source name) with
    | none => rfl
    | some r =>
      have deeper := place.down (Node.mem_children_of_mem_namedChildren (List.mem_of_find?_eq_some same))
      simp only [Option.map_some]
      rw [Cursor.down_relocate, Cursor.down_relocate, declarationAt_relocate belongs deeper]

theorem fieldAround?_relocate {node : Node} {outer : List Node} (h : Cursor.Within root ⟨node, outer⟩) :
    fieldAround? target name (outer.map (Node.relocate e)) =
      (fieldAround? source name outer).map (Declaration.relocate e) := by
  induction outer generalizing node with
  | nil => rfl
  | cons n outer ih =>
    have own : field? target name (Cursor.relocate e ⟨n, outer⟩) =
        (field? source name ⟨n, outer⟩).map (Declaration.relocate e) :=
      field?_relocate belongs faithful h.around
    rw [List.map_cons, fieldAround?, fieldAround?, Node.is_relocate, ih h.around]
    split
    · exact own
    · rfl

end

section

variable (belongs : ∀ m ∈ root.children, m.Belongs text.toList)
  (scans : ∀ m ∈ Node.preorderAll root.children, m.Scans text.toList)
  (faithful : e.Faithful (.ofString text) target root)
include belongs scans faithful

/-- A parameter is found by its name, and no comment among the parameters is taken for one. -/
theorem parameter?_relocate (plain : opensComment name.toList = false)
    (hn : n ∈ root.preorder) :
    parameter? target name (n.relocate e) =
      (parameter? (.ofString text) name n).map (Declaration.relocate e) := by
  have inside := belongs_children belongs hn
  rw [parameter?, Node.child?_relocate inside, parameter?]
  cases found : n.child? .parameters with
  | none => rfl
  | some ps =>
    have mem := Node.mem_children_of_child? found
    have below := mem_preorderAll_of_child hn mem
    have own := belongs_below belongs below
    have place := mem_preorder_of_below below
    simp only [Option.map_some, Node.is_relocate]
    split
    · rename_i is
      rw [faithful.leaf ps below (own.identifier_leaf is)
        (own.not_drops_of_role (Node.role_of_child? found))]
      split <;> rfl
    · split
      · rename_i inferred
        rw [Node.namedChildren_relocate, Node.find?_relocateAll (q := fun p =>
          p.text (.ofString text) == name) (fun p hp same => ?_) fun p hp kept => ?_, Option.map_map,
          Option.map_map]
        · rfl
        · cases dropped : e.drops p with
          | false => rfl
          | true =>
            have mem := Node.mem_children_of_mem_namedChildren hp
            have opens := (scans p (mem_preorderAll_of_child place mem)).opensComment (e.comment p dropped)
            rw [eq_of_beq same, plain] at opens
            cases opens
        · have mem := Node.mem_children_of_mem_namedChildren hp
          rw [faithful.leaf p (mem_preorderAll_of_child place mem) (own.inferred_leaf inferred mem) kept]
      · rw [Node.namedChildren_relocate, Node.find?_relocateAll (q := fun p =>
          p.is .formalParameter && isNamed (.ofString text) name p) (fun p _ fits => ?_)
          fun p hp _ => ?_]
        · cases same : ps.namedChildren.find? fun p =>
              p.is .formalParameter && isNamed (.ofString text) name p with
          | none => rfl
          | some p =>
            have mem := Node.mem_children_of_mem_namedChildren (List.mem_of_find?_eq_some same)
            have deeper := belongs_children belongs (mem_preorder_of_below (mem_preorderAll_of_child place mem))
            simp only [Option.map_some, Node.child?_relocate deeper]
            rfl
        · rw [Bool.and_eq_true] at fits
          exact Node.not_drops_of_is fits.1 rfl
        · rw [Node.is_relocate, isNamed_relocate belongs faithful (m := p) (mem_preorder_of_below
            (mem_preorderAll_of_child place (Node.mem_children_of_mem_namedChildren hp)))]

/-! ### Names -/

variable (sorted : root.children.Pairwise fun a b => a.start ≤ b.start)
include sorted

theorem declaredBy?_relocate (nonempty : name ≠ "") (plain : opensComment name.toList = false)
    (h : c.Within root) (inner : Node) :
    declaredBy? target name (c.relocate e) (inner.relocate e) =
      (declaredBy? (.ofString text) name c inner).map (Declaration.relocate e) := by
  have place := h.mem_preorder
  have children := belongs_children belongs place
  unfold declaredBy?
  rw [Cursor.node_relocate, Node.label_relocate, Node.start_relocate]
  split
  · rfl
  · split
    iterate 4 exact local?_relocate belongs faithful h (sorted_children belongs sorted place) _
    iterate 3 exact parameter?_relocate belongs scans faithful plain place
    · exact field?_relocate belongs faithful h
    · exact loopVariable?_relocate belongs faithful h
    · rw [isNamed_relocate belongs faithful place, Node.child?_relocate children]
      split <;> rfl
    · exact caught?_relocate belongs faithful h
    · exact resource?_relocate belongs faithful nonempty h
    · rfl

/-- A name is declared at the same place. -/
theorem declarationAround?_relocate (nonempty : name ≠ "") (plain : opensComment name.toList = false)
    {inner : Node} {outer : List Node} (h : Cursor.Within root ⟨inner, outer⟩) :
    declarationAround? target name (inner.relocate e) (outer.map (Node.relocate e)) =
      (declarationAround? (.ofString text) name inner outer).map (Declaration.relocate e) := by
  induction outer generalizing inner with
  | nil => rfl
  | cons n outer ih =>
    have own := declaredBy?_relocate belongs scans faithful sorted nonempty plain h.around inner
    rw [Cursor.relocate] at own
    rw [List.map_cons, declarationAround?, declarationAround?, ih h.around, own]
    cases declaredBy? (.ofString text) name ⟨n, outer⟩ inner <;> rfl

end

end MonoTap.Receiver
