import MonoTap.Proofs.DeclaredNames

/-!
# Looking up declarations

The search for the declaration of a name goes outwards, from node to node around the name. It knows
fewer forms of declarations than the rules of scopes, and not at each node does it look where the name
comes from. Where nothing about a name is overlooked, it finds at each node just what the node makes
visible, so that it ends at the declaration that the walk over the callback binds the name to.
-/

set_option autoImplicit false

namespace MonoTap.Callback

open Java (Cursor Kind Node Role)
open Receiver (Declaration)
open Text (Source)

/-! ### What the search overlooks -/

/-- Whether a node makes a name visible to the code after it. -/
def brings (source : Source) (x : String) (n : Node) : Bool :=
  isNamed source x (declares n)

/-- Whether a part of a node makes a name visible although it is none of those that the search for the
declaration looks at. -/
def hasStray (source : Source) (x : String) (n : Node) (looksAt : Node → Bool) : Bool :=
  (partsOf (layout n)).any fun c => brings source x c && !looksAt c

/-- Whether a name occurs in a part of a node before the one that makes it visible. -/
def isEarly (source : Source) (x : String) (n : Node) : Bool :=
  (partsOf (layout n)).any (brings source x) &&
    ((partsOf (layout n)).takeWhile fun c => !brings source x c).any (holds source x)

/-- Whether a name is that of a parameter of an unusual form, such as a variable one. -/
def hasOddParameter (source : Source) (x : String) (n : Node) : Bool :=
  (n.child? .parameters).toList.any fun ps => ps.namedChildren.any fun p =>
    !p.is (if ps.is .inferredParameters then .identifier else .formalParameter) && holds source x p

/-- Whether a node declares a name that occurs in the values inside. -/
def occursInValue (source : Source) (x : String) (n : Node) : Bool :=
  isNamed source x (introduced n) &&
    ((partsOf (layout n)).flatMap fun c => partsOf (layout c)).any (holds source x)

/-- Whether the search departs from the rules of scopes at a node of some kind as far as the given name
goes: the name is declared in a form that is not looked for there, or it occurs where the search takes a
later declaration for the one that is visible, or the declaration around the place for none. -/
def overlooksAs (source : Source) (x : String) (n : Node) : Kind → Bool
  | .block | .constructorBody | .switchBlockStatementGroup | .program =>
    hasStray source x n (·.is .localVariableDeclaration)
  | .classBody => hasStray source x n fun _ => false
  | .forStatement => isEarly source x n ||
    hasStray source x n fun c => c.is .localVariableDeclaration && c.role == some .init
  | .catchClause => isEarly source x n || hasStray source x n (·.is .catchFormalParameter)
  | .tryWithResourcesStatement => isEarly source x n ||
    hasStray source x n fun c => (n.child? .resources).any (·.start == c.start)
  | .methodDeclaration | .constructorDeclaration | .lambdaExpression =>
    hasOddParameter source x n || hasStray source x n fun _ => false
  | .enhancedForStatement => (hasStray source x n fun _ => false) ||
    isNamed source x (n.child? .name).toList && (n.childrenOf .value).any (holds source x)
  | .localVariableDeclaration => occursInValue source x n
  | .resourceSpecification => occursInValue source x n ||
    (n.namedChildren.filter fun c => !c.is .resource).any (holds source x)
  | _ => (partsOf (layout n)).any fun c =>
    isNamed source x (inView n c.start) && holds source x c

/-- Whether the search for a declaration departs from the rules of scopes at a node as far as the given
name goes. That is also so if the node declares the name twice. -/
def overlooks (source : Source) (x : String) (n : Node) : Bool :=
  1 < ((introduced n).filter (·.text source == x)).length ||
  match n.label with
  | .token _ => false
  | .kind k => overlooksAs source x n k

/-- Neither the walk over a node nor the search for declarations in it departs from the rules of scopes
as far as the given name goes. -/
structure Clear (source : Source) (x : String) (root : Node) : Prop where
  walk : ∀ n ∈ root.preorder, departs source (fun _ _ => false) x n = false
  search : ∀ n ∈ root.preorder, overlooks source x n = false

variable {source : Source} {x : String} {text : List Char} {root n k c m s : Node}
  {outer rest names ns pre post : List Node} {result : Option Declaration}

/-! ### Results of a search -/

/-- A search finds nothing if none of some names is the one in question, and otherwise the declaration
that one of them makes. -/
def Finds (source : Source) (x : String) (root : Node) (rest names : List Node)
    (result : Option Declaration) : Prop :=
  (result = none ∧ isNamed source x names = false) ∨
  ∃ a, Declared root a ∧ a.node.text source = x ∧ a.node ∈ names ∧
    result = some (declarationOf ⟨a.node, a.ancestors ++ rest⟩)

theorem isNamed_iff : isNamed source x names = true ↔ ∃ m ∈ names, m.text source = x := by
  simp [isNamed]

theorem isNamed_eq_false_iff : isNamed source x names = false ↔ ∀ m ∈ names, m.text source ≠ x := by
  simp [isNamed]

/-- Only the names in question count. -/
theorem Finds.congr {others : List Node} (h : Finds source x root rest names result)
    (same : ∀ m, m.text source = x → (m ∈ names ↔ m ∈ others)) :
    Finds source x root rest others result := by
  rcases h with ⟨nothing, absent⟩ | ⟨a, declared, named, mem, found⟩
  · refine Or.inl ⟨nothing, ?_⟩
    rw [isNamed_eq_false_iff] at absent ⊢
    exact fun m hm named => absent m ((same m named).2 hm) named
  · exact Or.inr ⟨a, declared, named, (same _ named).1 mem, found⟩

theorem finds_none (absent : isNamed source x names = false) :
    Finds source x root rest names none :=
  Or.inl ⟨rfl, absent⟩

/-- The first result of several searches. -/
theorem Finds.findSome? {f : Node → Option Declaration} {g : Node → List Node}
    (each : ∀ c ∈ ns, Finds source x root rest (g c) (f c)) :
    Finds source x root rest (ns.flatMap g) (ns.findSome? f) := by
  induction ns with
  | nil => exact finds_none rfl
  | cons c ns ih =>
    rw [List.flatMap_cons, List.findSome?_cons]
    have later := ih fun d hd => each d (List.mem_cons_of_mem _ hd)
    rcases each c List.mem_cons_self with ⟨nothing, absent⟩ | ⟨a, declared, named, mem, found⟩
    · rw [nothing]
      apply later.congr
      intro m named
      rw [List.mem_append]
      exact (or_iff_right fun hm => isNamed_eq_false_iff.1 absent m hm named).symm
    · rw [found]
      exact Or.inr ⟨a, declared, named, List.mem_append_left _ mem, rfl⟩

/-- The first of some nodes that declares the name. -/
theorem finds_find? {test : Node → Bool} {f : Node → Declaration} {g : Node → List Node}
    (each : ∀ c ∈ ns, Finds source x root rest (g c) (if test c then some (f c) else none)) :
    Finds source x root rest (ns.flatMap g) ((ns.find? test).map f) := by
  have same : (ns.find? test).map f = ns.findSome? fun c => if test c then some (f c) else none := by
    clear each
    induction ns with
    | nil => rfl
    | cons c ns ih =>
      rw [List.find?_cons, List.findSome?_cons]
      cases test c with
      | true => rfl
      | false => exact ih
  rw [same]
  exact Finds.findSome? each

theorem isNamed_name_iff (nonempty : x ≠ "") :
    Receiver.isNamed source x n = true ↔ ∃ m, n.child? .name = some m ∧ m.text source = x := by
  rw [Receiver.isNamed]
  cases n.child? .name with
  | none => simp [nonempty.symm]
  | some m => simp

/-- A node that declares a name by its own. -/
theorem finds_own (nonempty : x ≠ "") {d : Declaration}
    (own : ∀ m, n.child? .name = some m → m.text source = x → ∃ around, Declared root ⟨m, around⟩ ∧
      d = declarationOf ⟨m, around ++ rest⟩) :
    Finds source x root rest (n.child? .name).toList
      (if Receiver.isNamed source x n then some d else none) := by
  split
  · rename_i named
    obtain ⟨m, found, name⟩ := (isNamed_name_iff nonempty).1 named
    obtain ⟨around, declared, same⟩ := own m found name
    exact Or.inr ⟨⟨m, around⟩, declared, name, by rw [found]; exact List.mem_singleton_self m,
      congrArg some same⟩
  · rename_i other
    apply finds_none
    rw [isNamed_eq_false_iff]
    intro m hm name
    exact other ((isNamed_name_iff nonempty).2 ⟨m, Option.mem_toList.1 hm, name⟩)

/-! ### Names that nodes make visible -/

theorem layout_eq {k : Kind} (role : n.role ≠ some .declarator) (is : n.is k = true) :
    layout n = layoutAs n k :=
  layout_of_label role (beq_iff_eq.1 is)

theorem declares_of_layout {k : Kind} {items : List Item} (role : n.role ≠ some .declarator)
    (is : n.is k = true) (noScope : opensScope k = false) (whole : layoutAs n k = items) :
    declares n = items.flatMap Item.names := by
  rw [declares_eq, isScope_of_label role (beq_iff_eq.1 is), noScope, introduced, layout_eq role is, whole]
  rfl

@[simp] theorem names_nameIn (n : Node) : (nameIn n).flatMap Item.names = (n.child? .name).toList := by
  rw [nameIn, List.flatMap_map]
  exact List.flatMap_singleton' _

@[simp] theorem names_partItems (ns : List Node) :
    (partItems ns).flatMap Item.names = ns.flatMap declares := by
  rw [partItems, List.flatMap_map]
  rfl

/-- The names of the variables of a declaration. -/
def variableNames (n : Node) : List Node :=
  (n.childrenOf .declarator).flatMap fun d => (d.child? .name).toList

theorem names_memberNames (n : Node) (k : Kind) :
    (memberNames n k).flatMap Item.names = (n.namedChildren.filter (·.is k)).flatMap variableNames := by
  simp only [memberNames, List.flatMap_assoc, names_nameIn]
  rfl

/-- A name in view is one that the node introduces. -/
theorem inView_subset (n : Node) (offset : Nat) : inView n offset ⊆ introduced n := by
  intro m hm
  obtain ⟨item, hitem, hm⟩ := List.mem_flatMap.1 hm
  exact List.mem_flatMap.2 ⟨item, (List.takeWhile_prefix _).subset hitem, hm⟩

/-- The names in view of a part, where the parts follow some names. -/
theorem inView_of_parts (h : n.Belongs text) {items : List Item} (whole : layout n = items ++ partItems ns)
    (split : ns = pre ++ k :: post) :
    inView n k.start = items.flatMap Item.names ++ pre.flatMap declares := by
  have items : layout n = (items ++ partItems pre) ++ .part k :: partItems post := by
    rw [whole, split]
    simp [partItems]
  rw [inView_of_layout h items, List.flatMap_append, names_partItems]

theorem looksAt_of_brings {looksAt : Node → Bool} (none : hasStray source x n looksAt = false)
    (hc : c ∈ partsOf (layout n)) (found : brings source x c = true) : looksAt c = true := by
  have plain := List.any_eq_false.1 none c hc
  rw [Bool.and_eq_true, Bool.not_eq_true', not_and, Bool.not_eq_false] at plain
  exact plain found

section

variable (clear : Clear source x root)
include clear

theorem Clear.inside (hn : n ∈ root.preorder) : Clear source x n where
  walk m hm := clear.walk m (Node.mem_preorder_trans hn hm)
  search m hm := clear.search m (Node.mem_preorder_trans hn hm)

/-- At a node that declares no variables, nothing about the name is said by variables. -/
theorem role_of_holds (hn : n ∈ root.preorder)
    (kind : n.isAny [.localVariableDeclaration, .fieldDeclaration] = false) (hc : c ∈ n.children)
    (found : holds source x c = true) : c.role ≠ some .declarator := by
  intro role
  have plain := clear.walk n hn
  rw [departs, Bool.or_eq_false_iff, Bool.or_eq_false_iff, kind, Bool.not_false, Bool.true_and,
    List.any_eq_false] at plain
  exact plain.1.2 c (List.mem_filter.2 ⟨hc, beq_iff_eq.2 role⟩) found

/-- Of the names that a node makes visible, one at most is the one in question. -/
theorem eq_of_introduced {a b : Node} (hn : n ∈ root.preorder) (ha : a ∈ introduced n)
    (hb : b ∈ introduced n) (nameA : a.text source = x) (nameB : b.text source = x) : a = b := by
  have once := clear.search n hn
  rw [overlooks, Bool.or_eq_false_iff, decide_eq_false_iff_not, Nat.not_lt] at once
  have inA : a ∈ (introduced n).filter (·.text source == x) := List.mem_filter.2 ⟨ha, beq_iff_eq.2 nameA⟩
  have inB : b ∈ (introduced n).filter (·.text source == x) := List.mem_filter.2 ⟨hb, beq_iff_eq.2 nameB⟩
  generalize (introduced n).filter (·.text source == x) = l at once inA inB
  match l, once with
  | [], _ => cases inA
  | [c], _ => rw [List.mem_singleton.1 inA, List.mem_singleton.1 inB]

theorem overlooksAs_eq {k : Kind} (hn : n ∈ root.preorder) (is : n.is k = true) :
    overlooksAs source x n k = false := by
  have plain := clear.search n hn
  rw [overlooks, Bool.or_eq_false_iff, beq_iff_eq.1 is] at plain
  exact plain.2

variable (h : root.Belongs text)
include h

/-- A name that a node makes visible occurs in the node. -/
theorem holds_of_brings (hn : n ∈ root.preorder) (found : brings source x n = true) :
    holds source x n = true := by
  rw [← Bool.not_eq_false]
  intro absent
  have silent : (sense source (fun _ _ => false) x n).declared = none := by
    rw [← coded_eq_sense (h.inside hn) (clear.inside hn).walk, coded_eq_one absent]
    rfl
  have last : lastNamed source x (declares n) = none := silent
  rw [lastNamed, Option.map_eq_none_iff, List.find?_eq_none] at last
  obtain ⟨m, hm, name⟩ := isNamed_iff.1 found
  exact last m (List.mem_reverse.2 hm) (beq_iff_eq.2 name)

/-! ### Where a name is mentioned -/

omit clear h

/-- Whether a name in code in a node refers to something under the given name. -/
def Mentions (source : Source) (x : String) (n : Node) : Prop :=
  ∃ c ∈ n.cursors [], Refers c ∧ c.node.text source = x

theorem holds_of_mentions (found : Mentions source x n) : holds source x n = true := by
  obtain ⟨c, hc, _, name⟩ := found
  exact List.any_eq_true.2 ⟨c.node,
    (Node.map_node_cursors [] n).subset (List.mem_map.2 ⟨c, hc, rfl⟩), beq_iff_eq.2 name⟩

/-- A name is mentioned by a node itself or in a part of it. -/
theorem Mentions.cases (found : Mentions source x n) :
    isReference n = true ∨ ∃ c, .part c ∈ layout n ∧ Mentions source x c := by
  obtain ⟨c, hc, refers, name⟩ := found
  rcases mem_cursors.1 hc with rfl | ⟨m, _, d, hd, rfl⟩
  · exact Or.inl refers.name
  · have inside := (@refers_inside source x n m (fun _ _ => false) rfl none d hd).1.1 refers
    exact Or.inr ⟨m, inside.2, d, hd, inside.1, name⟩

theorem Mentions.part {k : Kind} (found : Mentions source x n) (is : n.is k = true)
    (other : k ≠ .identifier) : ∃ c, .part c ∈ layout n ∧ Mentions source x c := by
  apply found.cases.resolve_left
  rw [isReference_of_label (beq_iff_eq.1 is) other]
  exact Bool.false_ne_true

theorem occursInValue_eq_false (absent : occursInValue source x n = false)
    {v : Node} (hc : .part c ∈ layout n) (hv : .part v ∈ layout c) (found : holds source x v = true) :
    isNamed source x (introduced n) = false := by
  rw [occursInValue, Bool.and_eq_false_iff] at absent
  apply absent.resolve_right
  intro none
  exact List.any_eq_false.1 none v (List.mem_flatMap.2 ⟨c, mem_partsOf.2 hc, mem_partsOf.2 hv⟩) found

include clear

/-- A declaration of variables in which a name is mentioned does not declare the name. -/
theorem introduced_of_variables (hn : n ∈ root.preorder) (is : n.is .localVariableDeclaration = true)
    (role : n.role ≠ some .declarator) (hc : .part c ∈ layout n) (found : Mentions source x c) :
    isNamed source x (introduced n) = false := by
  have declarator : c.role = some .declarator := by
    rw [layout_eq role is, layoutAs, List.mem_flatMap] at hc
    obtain ⟨d, hd, hc⟩ := hc
    rcases List.mem_append.1 hc with hc | hc
    · have name := partsOf_nameIn d ▸ mem_partsOf.2 hc
      cases name
    · cases List.mem_singleton.1 hc
      exact eq_of_beq (List.mem_filter.1 hd).2
  have noReference : isReference c = false := by rw [isReference, if_pos declarator]
  obtain ⟨v, hv, inside⟩ := found.cases.resolve_left (by rw [noReference]; exact Bool.false_ne_true)
  exact occursInValue_eq_false (overlooksAs_eq clear hn is) hc hv (holds_of_mentions inside)

/-- Resources among which a name is mentioned do not declare the name. -/
theorem introduced_of_resources (hn : n ∈ root.preorder) (is : n.is .resourceSpecification = true)
    (role : n.role ≠ some .declarator) (hc : .part c ∈ layout n) (found : Mentions source x c) :
    isNamed source x (introduced n) = false := by
  have plain := overlooksAs_eq clear hn is
  rw [overlooksAs, Bool.or_eq_false_iff] at plain
  have resource : c.is .resource = true := by
    have whole : layout n = partItems n.namedChildren := layout_eq role is
    have inside : c ∈ n.namedChildren := by
      have part := mem_partsOf.2 hc
      rwa [whole, partsOf_partItems] at part
    rw [← Bool.not_eq_false]
    intro other
    exact List.any_eq_false.1 plain.2 c (List.mem_filter.2 ⟨inside, by rw [other]; rfl⟩)
      (holds_of_mentions found)
  obtain ⟨v, hv, inside⟩ := found.part resource (by decide)
  exact occursInValue_eq_false plain.1 hc hv (holds_of_mentions inside)

/-! ### Names of declarations -/

include h

/-- A value does not make visible what the declaration around it declares. -/
theorem not_mem_of_value {v : Node} (hn : n ∈ root.preorder) (absent : occursInValue source x n = false)
    (shown : m ∈ declares n) (name : m.text source = x) (hc : .part c ∈ layout n)
    (hv : .part v ∈ layout c) : m ∉ declares v := by
  intro hm
  have introduced : m ∈ introduced n := by
    rw [declares_eq] at shown
    split at shown
    · cases shown
    · exact shown
  have deeper : v ∈ root.preorder := Node.mem_preorder_trans hn (Node.mem_preorder_trans
    (mem_preorder_of_mem_children (mem_children_of_part hc))
    (mem_preorder_of_mem_children (mem_children_of_part hv)))
  have held := holds_of_brings clear h deeper (isNamed_iff.2 ⟨m, hm, name⟩)
  exact isNamed_eq_false_iff.1 (occursInValue_eq_false absent hc hv held) m introduced name

/-- The names that a declaration of variables makes visible are those of the variables. -/
theorem mem_declares_variables (hn : n ∈ root.preorder) (is : n.is .localVariableDeclaration = true)
    (role : n.role ≠ some .declarator) (name : m.text source = x) :
    m ∈ declares n ↔ m ∈ variableNames n := by
  have whole : layout n = (n.childrenOf .declarator).flatMap fun d => nameIn d ++ [.part d] :=
    layout_eq role is
  have names : declares n =
      (n.childrenOf .declarator).flatMap fun d => (d.child? .name).toList ++ declares d := by
    rw [declares_of_layout role is rfl rfl, ← layout_eq role is, whole, List.flatMap_assoc]
    congr 1
    funext d
    rw [List.flatMap_append, names_nameIn, List.flatMap_singleton]
    rfl
  constructor
  · intro hm
    have shown := hm
    rw [names] at hm
    obtain ⟨d, hd, hm⟩ := List.mem_flatMap.1 hm
    rcases List.mem_append.1 hm with hm | hm
    · exact List.mem_flatMap.2 ⟨d, hd, hm⟩
    · have part : .part d ∈ layout n := by
        rw [whole]
        exact List.mem_flatMap.2 ⟨d, hd, List.mem_append_right _ (List.mem_singleton_self _)⟩
      have declarator : d.role = some .declarator := eq_of_beq (List.mem_filter.1 hd).2
      rw [declares_eq, isScope, if_pos declarator, introduced] at hm
      obtain ⟨item, hitem, hm⟩ := List.mem_flatMap.1 hm
      have value := hitem
      rw [layout, if_pos declarator] at value
      obtain ⟨v, _, rfl⟩ := List.mem_map.1 value
      exact (not_mem_of_value clear h hn (overlooksAs_eq clear hn is) shown name part hitem hm).elim
  · intro hm
    rw [names]
    obtain ⟨d, hd, hm⟩ := List.mem_flatMap.1 hm
    exact List.mem_flatMap.2 ⟨d, hd, List.mem_append_left _ hm⟩

/-- The names that resources make visible are those of the resources. -/
theorem mem_declares_resources (hn : n ∈ root.preorder) (is : n.is .resourceSpecification = true)
    (role : n.role ≠ some .declarator) (name : m.text source = x) :
    m ∈ declares n ↔ m ∈ n.namedChildren.flatMap fun r => (r.child? .name).toList := by
  have whole : layout n = partItems n.namedChildren := layout_eq role is
  have names : declares n = n.namedChildren.flatMap declares := by
    rw [declares_of_layout role is rfl rfl, ← layout_eq role is, whole, names_partItems]
  have plain := overlooksAs_eq clear hn is
  rw [overlooksAs, Bool.or_eq_false_iff] at plain
  have kind : n.isAny [.localVariableDeclaration, .fieldDeclaration] = false := by
    simp [Node.isAny, is_ne is]
  -- what holds the name is a resource
  have resource {r : Node} (hr : r ∈ n.namedChildren) (held : holds source x r = true) :
      r.is .resource = true ∧ r.role ≠ some .declarator := by
    constructor
    · rw [← Bool.not_eq_false]
      intro other
      exact List.any_eq_false.1 plain.2 r (List.mem_filter.2 ⟨hr, by rw [other]; rfl⟩) held
    · exact role_of_holds clear hn kind (Node.mem_children_of_mem_namedChildren hr) held
  have inside {r : Node} (hr : r ∈ n.namedChildren) : r ∈ root.preorder :=
    Node.mem_preorder_trans hn (mem_preorder_of_mem_namedChildren hr)
  rw [names]
  constructor
  · intro hm
    have shown : m ∈ declares n := names ▸ hm
    obtain ⟨r, hr, hm⟩ := List.mem_flatMap.1 hm
    obtain ⟨isResource, roleR⟩ := resource hr
      (holds_of_brings clear h (inside hr) (isNamed_iff.2 ⟨m, hm, name⟩))
    have part : .part r ∈ layout n := whole ▸ List.mem_map.2 ⟨r, hr, rfl⟩
    refine List.mem_flatMap.2 ⟨r, hr, ?_⟩
    rw [declares_of_layout roleR isResource rfl rfl, ← layout_eq roleR isResource] at hm
    obtain ⟨item, hitem, hm⟩ := List.mem_flatMap.1 hm
    cases item with
    | name own =>
      cases List.mem_singleton.1 hm
      rw [layout_eq roleR isResource, layoutAs] at hitem
      split at hitem
      · rcases List.mem_append.1 hitem with hitem | hitem
        · obtain ⟨_, hm, same⟩ := List.mem_map.1 hitem
          cases same
          exact hm
        · obtain ⟨_, _, same⟩ := List.mem_map.1 hitem
          cases same
      · obtain ⟨_, _, same⟩ := List.mem_map.1 hitem
        cases same
    | part v => exact (not_mem_of_value clear h hn plain.1 shown name part hitem hm).elim
  · intro hm
    obtain ⟨r, hr, hm⟩ := List.mem_flatMap.1 hm
    have found := Option.mem_toList.1 hm
    have held : holds source x r = true :=
      List.any_eq_true.2 ⟨m, mem_preorder_of_part found, beq_iff_eq.2 name⟩
    obtain ⟨isResource, roleR⟩ := resource hr held
    refine List.mem_flatMap.2 ⟨r, hr, ?_⟩
    rw [declares_of_layout roleR isResource rfl rfl, layoutAs, Option.isSome_of_mem found, if_pos rfl,
      List.flatMap_append, names_nameIn]
    exact List.mem_append_left _ hm

omit clear in
/-- The search among the variables of a declaration. -/
theorem finds_variables (nonempty : x ≠ "") (within : Cursor.Within root ⟨n, outer⟩)
    (kind : n.is .localVariableDeclaration = true ∨ n.is .fieldDeclaration = true) :
    Finds source x root rest (variableNames n)
      (Receiver.declarator? source x ⟨n, outer ++ rest⟩) := by
  rw [Receiver.declarator?, variableNames]
  apply finds_find?
  intro d hd
  apply finds_own nonempty
  intro m found _
  obtain ⟨declared, _⟩ := declared_variable h within kind hd found
  have is := (h.inside within.mem_preorder).is_declarator kind hd
  have plain : n.is .spreadParameter = false := kind.elim (is_ne · (by decide)) (is_ne · (by decide))
  exact ⟨_, declared, (declarationOf_variable is plain).symm⟩

/-! ### The search at a node -/

omit h in
/-- Of a name that is declared in one of the parts and not before it, the parts before a mention tell. -/
theorem mem_declares_before (hn : n ∈ root.preorder) (plain : isEarly source x n = false)
    (split : partsOf (layout n) = pre ++ k :: post) (held : holds source x k = true)
    (silent : brings source x k = false) (name : m.text source = x) :
    m ∈ (partsOf (layout n)).flatMap declares ↔ m ∈ pre.flatMap declares := by
  have inside : (partsOf (layout n)).flatMap declares ⊆ introduced n := by
    intro m hm
    obtain ⟨c, hc, hm⟩ := List.mem_flatMap.1 hm
    exact List.mem_flatMap.2 ⟨.part c, mem_partsOf.1 hc, hm⟩
  have front : pre.flatMap declares ⊆ (partsOf (layout n)).flatMap declares := by
    rw [split, List.flatMap_append]
    exact List.subset_append_left _ _
  constructor
  · intro hm
    obtain ⟨c, hc, own⟩ := List.mem_flatMap.1 hm
    rw [isEarly, Bool.and_eq_false_iff, List.any_eq_false] at plain
    have none := plain.resolve_left fun h => h c hc (isNamed_iff.2 ⟨m, own, name⟩)
    -- otherwise the mention would come before all declarations
    obtain ⟨d, hd, found⟩ : ∃ d ∈ pre, brings source x d = true := by
      by_contra absent
      have all : ∀ d ∈ pre, (!brings source x d) = true := by
        intro d hd
        rw [Bool.not_eq_true', ← Bool.not_eq_true]
        exact fun found => absent ⟨d, hd, found⟩
      rw [split, List.takeWhile_append_of_pos all, List.takeWhile_cons_of_pos (by rw [silent]; rfl),
        List.any_append, List.any_cons, held] at none
      simp at none
    obtain ⟨m', hm', name'⟩ := isNamed_iff.1 found
    have before : m' ∈ pre.flatMap declares := List.mem_flatMap.2 ⟨d, hd, hm'⟩
    exact eq_of_introduced clear hn (inside hm) (inside (front before)) name name' ▸ before
  · exact fun hm => front hm

/-- Names that parts make visible come from those parts that the search looks at. -/
theorem mem_declares_looked {looksAt : Node → Bool} {g : Node → List Node} (hn : n ∈ root.preorder)
    (plain : hasStray source x n looksAt = false) (inside : ∀ c ∈ ns, c ∈ partsOf (layout n))
    (within : ∀ c, g c ⊆ c.preorder)
    (each : ∀ c ∈ ns, looksAt c = true → holds source x c = true → (m ∈ declares c ↔ m ∈ g c))
    (name : m.text source = x) : m ∈ (ns.filter looksAt).flatMap g ↔ m ∈ ns.flatMap declares := by
  constructor
  · intro hm
    obtain ⟨c, hc, hm⟩ := List.mem_flatMap.1 hm
    obtain ⟨hc, looked⟩ := List.mem_filter.1 hc
    have held : holds source x c = true := List.any_eq_true.2 ⟨m, within c hm, beq_iff_eq.2 name⟩
    exact List.mem_flatMap.2 ⟨c, hc, (each c hc looked held).2 hm⟩
  · intro hm
    obtain ⟨c, hc, hm⟩ := List.mem_flatMap.1 hm
    have found : brings source x c = true := isNamed_iff.2 ⟨m, hm, name⟩
    have deeper := Node.mem_preorder_trans hn
      (mem_preorder_of_mem_children (mem_children_of_part (mem_partsOf.1 (inside c hc))))
    have looked := looksAt_of_brings plain (inside c hc) found
    have held := holds_of_brings clear h deeper found
    exact List.mem_flatMap.2 ⟨c, List.mem_filter.2 ⟨hc, looked⟩, (each c hc looked held).1 hm⟩

omit clear h in
theorem isNamed_of_stray (plain : hasStray source x n (fun _ => false) = false)
    (inside : ∀ c ∈ ns, c ∈ partsOf (layout n)) : isNamed source x (ns.flatMap declares) = false := by
  rw [isNamed_eq_false_iff]
  intro m hm name
  obtain ⟨c, hc, hm⟩ := List.mem_flatMap.1 hm
  cases looksAt_of_brings plain (inside c hc) (isNamed_iff.2 ⟨m, hm, name⟩)

omit clear h in
theorem variableNames_subset (n : Node) : variableNames n ⊆ n.preorder := by
  intro m hm
  obtain ⟨d, hd, hm⟩ := List.mem_flatMap.1 hm
  exact Node.mem_preorder_trans
    (mem_preorder_of_mem_children (Node.mem_children_of_mem_childrenOf hd))
    (mem_preorder_of_part (Option.mem_toList.1 hm))

/-- In a list of statements, local variables are found that are declared before the place. -/
theorem finds_local (nonempty : x ≠ "") (within : Cursor.Within root ⟨n, outer⟩)
    (kind : n.isAny [.localVariableDeclaration, .fieldDeclaration] = false)
    (whole : layout n = partItems n.namedChildren)
    (plain : hasStray source x n (·.is .localVariableDeclaration) = false)
    (part : .part k ∈ layout n) :
    Finds source x root rest (inView n k.start)
      (Receiver.local? source x k.start ⟨n, outer ++ rest⟩) := by
  have hn : n ∈ root.preorder := within.mem_preorder
  have belongs := h.inside hn
  have parts : partsOf (layout n) = n.namedChildren := by rw [whole, partsOf_partItems]
  obtain ⟨pre, post, split⟩ := List.append_of_mem (parts ▸ mem_partsOf.2 part)
  have front : ∀ c ∈ pre, c ∈ n.namedChildren := fun c hc => split ▸ List.mem_append_left _ hc
  have child : ∀ c ∈ pre, c ∈ n.children := fun c hc =>
    Node.mem_children_of_mem_namedChildren (front c hc)
  have before : n.namedChildren.takeWhile (·.start < k.start) = pre := by
    have placed : Java.Placed (Java.Solid text) n.start n.namedChildren n.stop :=
      belongs.placed.sublist List.filter_sublist
    have ordered := placed_pairwise placed
    rw [split, List.pairwise_append] at ordered
    have all : ∀ c ∈ pre, decide (c.start < k.start) = true := by
      intro c hc
      have order := ordered.2.2 c hc k List.mem_cons_self
      have wide := (belongs.child (child c hc)).spans.wide
      exact decide_eq_true (by omega)
    rw [split, List.takeWhile_append_of_pos all, List.takeWhile_cons_of_neg (by simp), List.append_nil]
  have items : layout n = [] ++ partItems n.namedChildren := whole
  rw [inView_of_parts belongs items split, Receiver.local?, before]
  have found : Finds source x root rest ((pre.filter (·.is .localVariableDeclaration)).flatMap variableNames)
      ((pre.filter (·.is .localVariableDeclaration)).findSome? fun s =>
        Receiver.declarator? source x (Cursor.down ⟨n, outer ++ rest⟩ s)) := by
    apply Finds.findSome?
    intro c hc
    obtain ⟨hc, is⟩ := List.mem_filter.1 hc
    have deeper : Cursor.Within root ⟨c, n :: outer⟩ := .down within (child c hc)
    exact finds_variables h nonempty deeper (.inl is)
  apply found.congr
  intro m name
  apply mem_declares_looked clear h hn plain (fun c hc => parts ▸ front c hc) variableNames_subset _ name
  intro c hc is held
  exact mem_declares_variables clear h
    (Node.mem_preorder_trans hn (mem_preorder_of_mem_children (child c hc))) is
    (role_of_holds clear hn kind (child c hc) held) name

/-- Where a name does not occur before its declaration, a search among all parts finds what is visible. -/
theorem Finds.inView {looksAt : Node → Bool} {g : Node → List Node} (hn : n ∈ root.preorder)
    (whole : layout n = partItems ns) (plain : (isEarly source x n || hasStray source x n looksAt) = false)
    (part : .part k ∈ layout n) (found : Mentions source x k) (silent : looksAt k = true → brings source x k = false)
    (within : ∀ c, g c ⊆ c.preorder)
    (each : ∀ c ∈ ns, looksAt c = true → holds source x c = true → ∀ m, m.text source = x →
      (m ∈ declares c ↔ m ∈ g c))
    (search : Finds source x root rest ((ns.filter looksAt).flatMap g) result) :
    Finds source x root rest (inView n k.start) result := by
  rw [Bool.or_eq_false_iff] at plain
  have parts : partsOf (layout n) = ns := by rw [whole, partsOf_partItems]
  obtain ⟨pre, post, split⟩ := List.append_of_mem (parts ▸ mem_partsOf.2 part)
  have items : layout n = [] ++ partItems ns := whole
  have quiet : brings source x k = false := by
    rw [← Bool.not_eq_true]
    intro shown
    rw [silent (looksAt_of_brings plain.2 (mem_partsOf.2 part) shown)] at shown
    cases shown
  rw [inView_of_parts (h.inside hn) items split]
  apply search.congr
  intro m name
  have looked := @mem_declares_looked source x text root n m ns clear h looksAt g hn plain.2
    (fun c hc => parts ▸ hc) within (fun c hc is held => each c hc is held m name) name
  have before := mem_declares_before clear hn plain.1 (parts ▸ split) (holds_of_mentions found) quiet name
  rw [parts] at before
  exact looked.trans before

/-- In the head of a loop the variables of the loop are found. -/
theorem finds_loopVariable (nonempty : x ≠ "") (within : Cursor.Within root ⟨n, outer⟩)
    (is : n.is .forStatement = true) (role : n.role ≠ some .declarator) (part : .part k ∈ layout n)
    (found : Mentions source x k) :
    Finds source x root rest (inView n k.start)
      (Receiver.loopVariable? source x ⟨n, outer ++ rest⟩) := by
  have hn : n ∈ root.preorder := within.mem_preorder
  have kind : n.isAny [.localVariableDeclaration, .fieldDeclaration] = false := by
    simp [Node.isAny, is_ne is]
  have child : ∀ c ∈ n.namedChildren, c ∈ n.children := fun _ => Node.mem_children_of_mem_namedChildren
  have looked : (n.childrenOf .init).filter (·.is .localVariableDeclaration) =
      n.namedChildren.filter fun c => c.is .localVariableDeclaration && c.role == some .init := by
    rw [Node.childrenOf, Node.namedChildren, List.filter_filter, List.filter_filter]
    apply List.filter_congr
    intro c _
    cases variable_ : c.is .localVariableDeclaration with
    | false => simp
    | true => simp [Node.isNamed, beq_iff_eq.1 variable_]
  apply Finds.inView clear h hn (layout_eq role is) (overlooksAs_eq clear hn is) part found _
    variableNames_subset
  · intro c hc looksAt held m name
    rw [Bool.and_eq_true] at looksAt
    exact mem_declares_variables clear h
      (Node.mem_preorder_trans hn (mem_preorder_of_mem_children (child c hc))) looksAt.1
      (role_of_holds clear hn kind (child c hc) held) name
  · rw [← looked, Receiver.loopVariable?]
    apply Finds.findSome?
    intro c hc
    obtain ⟨hc, variable_⟩ := List.mem_filter.1 hc
    have deeper : Cursor.Within root ⟨c, n :: outer⟩ :=
      .down within (Node.mem_children_of_mem_childrenOf hc)
    exact finds_variables h nonempty deeper (.inl variable_)
  · intro looksAt
    rw [Bool.and_eq_true] at looksAt
    have inside := mem_children_of_part part
    have roleK := role_of_holds clear hn kind inside (holds_of_mentions found)
    obtain ⟨d, hd, deeper⟩ := found.part looksAt.1 (by decide)
    have absent := introduced_of_variables clear
      (Node.mem_preorder_trans hn (mem_preorder_of_mem_children inside)) looksAt.1 roleK hd deeper
    rw [brings, declares_of_layout roleK looksAt.1 rfl rfl, ← layout_eq roleK looksAt.1]
    exact absent

/-- In a clause that catches the variable of the clause is found. -/
theorem finds_caught (nonempty : x ≠ "") (within : Cursor.Within root ⟨n, outer⟩)
    (is : n.is .catchClause = true) (role : n.role ≠ some .declarator) (part : .part k ∈ layout n)
    (found : Mentions source x k) :
    Finds source x root rest (inView n k.start) (Receiver.caught? source x n) := by
  have hn : n ∈ root.preorder := within.mem_preorder
  have kind : n.isAny [.localVariableDeclaration, .fieldDeclaration] = false := by
    simp [Node.isAny, is_ne is]
  have child : ∀ c ∈ n.namedChildren, c ∈ n.children := fun _ => Node.mem_children_of_mem_namedChildren
  apply @Finds.inView source x text root n k rest n.namedChildren _ clear h _
    (fun c => (c.child? .name).toList) hn (layout_eq role is) (overlooksAs_eq clear hn is) part found
  · intro looksAt
    obtain ⟨d, hd, _⟩ := found.part looksAt (by decide)
    have roleK := role_of_holds clear hn kind (mem_children_of_part part) (holds_of_mentions found)
    rw [layout_eq roleK looksAt] at hd
    have none := partsOf_nameIn k ▸ mem_partsOf.2 hd
    cases none
  · intro c m hm
    exact mem_preorder_of_part (Option.mem_toList.1 hm)
  · intro c hc looksAt held m name
    have roleC := role_of_holds clear hn kind (child c hc) held
    rw [declares_of_layout roleC looksAt rfl rfl, layoutAs, names_nameIn]
  · have looked : (n.namedChildren.find? fun p => p.is .catchFormalParameter && Receiver.isNamed source x p) =
        (n.namedChildren.filter (·.is .catchFormalParameter)).find? (Receiver.isNamed source x) := by
      simp only [List.find?_filter, Bool.decide_and, Bool.decide_eq_true]
    rw [Receiver.caught?, looked]
    apply finds_find?
    intro c hc
    obtain ⟨hc, looksAt⟩ := List.mem_filter.1 hc
    apply finds_own nonempty
    intro m own _
    have deeper : Cursor.Within root ⟨c, n :: outer⟩ := .down within (child c hc)
    exact ⟨_, declared_name h deeper (isAny_namedKinds looksAt (by decide)) own,
      (declarationOf_caught looksAt).symm⟩

/-- In a statement that tries, its resources are found. -/
theorem finds_resource (nonempty : x ≠ "") (within : Cursor.Within root ⟨n, outer⟩)
    (is : n.is .tryWithResourcesStatement = true) (role : n.role ≠ some .declarator)
    (part : .part k ∈ layout n) (found : Mentions source x k) :
    Finds source x root rest (inView n k.start)
      (Receiver.resource? source x ⟨n, outer ++ rest⟩) := by
  have hn : n ∈ root.preorder := within.mem_preorder
  have belongs := h.inside hn
  have kind : n.isAny [.localVariableDeclaration, .fieldDeclaration] = false := by
    simp [Node.isAny, is_ne is]
  have whole : layout n = partItems (n.namedChildren.filter isClause ++
      n.namedChildren.filter fun c => !isClause c) := by
    rw [layout_eq role is, layoutAs, partItems, partItems, partItems, List.map_append]
  have child : ∀ c ∈ n.namedChildren.filter isClause ++ n.namedChildren.filter (fun c => !isClause c),
      c ∈ n.children := by
    intro c hc
    rcases List.mem_append.1 hc with hc | hc <;>
      exact Node.mem_children_of_mem_namedChildren (List.mem_filter.1 hc).1
  -- the only part that the search looks at is that with the resources
  have same {rs c : Node} (hrs : n.child? .resources = some rs) (hc : c ∈ n.children)
      (looksAt : (n.child? .resources).any (·.start == c.start) = true) : c = rs := by
    rw [hrs, Option.any_some, beq_iff_eq] at looksAt
    exact (eq_of_start belongs (Node.mem_children_of_child? hrs) hc looksAt).symm
  have resources {c : Node} (hc : c ∈ n.children)
      (looksAt : (n.child? .resources).any (·.start == c.start) = true) :
      n.child? .resources = some c ∧ c.is .resourceSpecification = true ∧ c.role ≠ some .declarator := by
    cases hrs : n.child? .resources with
    | none =>
      rw [hrs] at looksAt
      cases looksAt
    | some rs =>
      cases same hrs hc looksAt
      have roleC := Node.role_of_child? hrs
      refine ⟨rfl, belongs.is_of_role is hc roleC rfl (fun s => by cases s <;> decide +kernel)
        (fun s => by cases s <;> decide +kernel), ?_⟩
      rw [roleC]
      decide
  apply @Finds.inView source x text root n k rest _ _ clear h _
    (fun c => c.namedChildren.flatMap fun r => (r.child? .name).toList) hn whole
    (overlooksAs_eq clear hn is) part found
  · intro looksAt
    have inside := mem_children_of_part part
    obtain ⟨_, isK, roleK⟩ := resources inside looksAt
    obtain ⟨d, hd, deeper⟩ := found.part isK (by decide)
    have absent := introduced_of_resources clear
      (Node.mem_preorder_trans hn (mem_preorder_of_mem_children inside)) isK roleK hd deeper
    rw [brings, declares_of_layout roleK isK rfl rfl, ← layout_eq roleK isK]
    exact absent
  · intro c m hm
    obtain ⟨r, hr, hm⟩ := List.mem_flatMap.1 hm
    exact Node.mem_preorder_trans (mem_preorder_of_mem_namedChildren hr)
      (mem_preorder_of_part (Option.mem_toList.1 hm))
  · intro c hc looksAt _ m name
    obtain ⟨_, isC, roleC⟩ := resources (child c hc) looksAt
    exact mem_declares_resources clear h
      (Node.mem_preorder_trans hn (mem_preorder_of_mem_children (child c hc))) isC roleC name
  · rw [Receiver.resource?]
    cases hrs : n.child? .resources with
    | none =>
      simp only [Option.any_none, List.filter_false]
      exact finds_none rfl
    | some rs =>
      have inside := Node.mem_children_of_child? hrs
      obtain ⟨_, isR, _⟩ := resources inside (by rw [hrs]; exact beq_self_eq_true _)
      have deeper : Cursor.Within root ⟨rs, n :: outer⟩ := .down within inside
      have among : rs ∈ n.namedChildren.filter isClause ++
          n.namedChildren.filter fun c => !isClause c := by
        have named : rs ∈ n.namedChildren :=
          List.mem_filter.2 ⟨inside, by rw [Node.isNamed, beq_iff_eq.1 isR]⟩
        rw [List.mem_append, List.mem_filter, List.mem_filter]
        cases clause : isClause rs with
        | true => exact Or.inl ⟨named, rfl⟩
        | false => exact Or.inr ⟨named, rfl⟩
      have search : Finds source x root rest (rs.namedChildren.flatMap fun r => (r.child? .name).toList)
          ((rs.namedChildren.find? (Receiver.isNamed source x)).map fun r =>
            Receiver.declarationAt (Cursor.down (Cursor.down ⟨n, outer ++ rest⟩ rs) r)) := by
        apply finds_find?
        intro r hr
        apply finds_own nonempty
        intro m own name
        have isResource : r.is .resource = true := by
          have plain := overlooksAs_eq clear deeper.mem_preorder isR
          rw [overlooksAs, Bool.or_eq_false_iff, List.any_eq_false] at plain
          rw [← Bool.not_eq_false]
          intro other
          exact plain.2 r (List.mem_filter.2 ⟨hr, by rw [other]; rfl⟩)
            (List.any_eq_true.2 ⟨m, mem_preorder_of_part own, beq_iff_eq.2 name⟩)
        have place : Cursor.Within root ⟨r, rs :: n :: outer⟩ :=
          .down deeper (Node.mem_children_of_mem_namedChildren hr)
        exact ⟨_, declared_name h place (isAny_namedKinds isResource (by decide)) own,
          (declarationOf_resource isResource).symm⟩
      apply search.congr
      intro m _
      rw [← hrs]
      constructor
      · intro hm
        refine List.mem_flatMap.2 ⟨rs, List.mem_filter.2 ⟨among, ?_⟩, hm⟩
        rw [hrs]
        exact beq_self_eq_true _
      · intro hm
        obtain ⟨c, hc, hm⟩ := List.mem_flatMap.1 hm
        obtain ⟨hc, looksAt⟩ := List.mem_filter.1 hc
        rwa [same hrs (child c hc) looksAt] at hm

omit clear h in
/-- A parameter of an unusual form does not have the name. -/
theorem text_ne_of_odd {ps p : Node} (plain : hasOddParameter source x n = false)
    (hps : n.child? .parameters = some ps) (hp : p ∈ ps.namedChildren)
    (odd : p.is (if ps.is .inferredParameters then .identifier else .formalParameter) = false) :
    holds source x p = false := by
  rw [hasOddParameter, hps, Option.toList_some, List.any_cons, List.any_nil, Bool.or_false,
    List.any_eq_false] at plain
  have none := plain p hp
  rwa [odd, Bool.not_false, Bool.true_and, Bool.not_eq_true] at none

omit clear in
/-- Among the parameters of a lambda, or of a method, those of a usual form are found. -/
theorem finds_parameter (nonempty : x ≠ "") (within : Cursor.Within root ⟨n, outer⟩)
    (kind : n.is .lambdaExpression = true ∨
      ∀ ps, n.child? .parameters = some ps → ps.is .formalParameters = true)
    (plain : hasOddParameter source x n = false) :
    Finds source x root rest ((lambdaNames n).flatMap Item.names)
      (Receiver.parameter? source x n) := by
  rw [Receiver.parameter?, lambdaNames]
  cases hps : n.child? .parameters with
  | none => exact finds_none rfl
  | some ps =>
    have list : Cursor.Within root ⟨ps, n :: outer⟩ := .down within (Node.mem_children_of_child? hps)
    have lambda {k : Kind} (is : ps.is k = true) (other : k ≠ .formalParameters) :
        n.is .lambdaExpression = true := by
      apply kind.resolve_right
      intro formal
      have := is_ne is other
      rw [formal ps hps] at this
      cases this
    rw [Option.toList_some, List.flatMap_singleton]
    dsimp only
    split
    · rename_i is
      split
      · rename_i name
        exact Or.inr ⟨⟨ps, n :: outer⟩, ⟨list, is⟩, eq_of_beq name, List.mem_singleton_self _,
          congrArg some (declarationOf_untyped (.inl (lambda is (by decide)))).symm⟩
      · rename_i other
        apply finds_none
        rw [isNamed_eq_false_iff]
        intro m hm name
        cases List.mem_singleton.1 hm
        exact other (beq_iff_eq.2 name)
    · split
      · rename_i inferred
        have search : Finds source x root rest
            (ps.namedChildren.flatMap fun p => if p.is .identifier then [p] else [])
            ((ps.namedChildren.find? fun p => p.text source == x).map fun _ => ⟨none, none⟩) := by
          apply finds_find?
          intro p hp
          split
          · rename_i is
            split
            · rename_i name
              have place : Cursor.Within root ⟨p, ps :: n :: outer⟩ :=
                .down list (Node.mem_children_of_mem_namedChildren hp)
              exact Or.inr ⟨_, ⟨place, is⟩, eq_of_beq name, List.mem_singleton_self _,
                congrArg some (declarationOf_untyped (.inr (.inl inferred))).symm⟩
            · rename_i other
              apply finds_none
              rw [isNamed_eq_false_iff]
              intro m hm name
              cases List.mem_singleton.1 hm
              exact other (beq_iff_eq.2 name)
          · rename_i odd
            have absent : holds source x p = false := by
              apply text_ne_of_odd plain hps hp
              rw [if_pos inferred]
              exact Bool.eq_false_iff.2 odd
            have other : (p.text source == x) = false :=
              beq_eq_false_iff_ne.2 (text_ne_of_holds absent p.self_mem_preorder)
            rw [other]
            exact finds_none rfl
        apply search.congr
        intro m _
        rw [List.flatMap_map, List.mem_flatMap, List.mem_flatMap]
        constructor
        · rintro ⟨p, hp, hm⟩
          split at hm
          · rename_i is
            exact ⟨p, List.mem_filter.2 ⟨hp, is⟩, hm⟩
          · cases hm
        · rintro ⟨p, hp, hm⟩
          obtain ⟨hp, is⟩ := List.mem_filter.1 hp
          exact ⟨p, hp, by rw [if_pos is]; exact hm⟩
      · rename_i typed
        rw [List.flatMap_assoc]
        apply finds_find?
        intro p hp
        rw [parameterName]
        split
        · rename_i is
          rw [is, Bool.true_and, names_nameIn]
          apply finds_own nonempty
          intro m own _
          have place : Cursor.Within root ⟨p, ps :: n :: outer⟩ :=
            .down list (Node.mem_children_of_mem_namedChildren hp)
          exact ⟨_, declared_name h place (isAny_namedKinds is (by decide)) own,
            (declarationOf_typed (.inl is)).symm⟩
        · rename_i odd
          have absent : holds source x p = false := by
            apply text_ne_of_odd plain hps hp
            rw [if_neg typed]
            exact Bool.eq_false_iff.2 odd
          have other : p.is .formalParameter = false := Bool.eq_false_iff.2 odd
          rw [other, Bool.false_and]
          apply finds_none
          rw [isNamed_eq_false_iff]
          intro m hm name
          split at hm
          · obtain ⟨item, hitem, hm⟩ := List.mem_flatMap.1 hm
            obtain ⟨d, hd, hitem⟩ := List.mem_flatMap.1 hitem
            obtain ⟨own, hown, rfl⟩ := List.mem_map.1 hitem
            cases List.mem_singleton.1 hm
            have inside : d ∈ p.namedChildren := List.mem_of_find?_eq_some (Option.mem_toList.1 hd)
            exact text_ne_of_holds absent (Node.mem_preorder_trans (mem_preorder_of_mem_namedChildren inside)
              (mem_preorder_of_part (Option.mem_toList.1 hown))) name
          · cases hm

omit clear in
/-- In a method, a constructor or a lambda its parameters are found. -/
theorem finds_callable (nonempty : x ≠ "") (within : Cursor.Within root ⟨n, outer⟩)
    (kind : n.is .lambdaExpression = true ∨
      ∀ ps, n.child? .parameters = some ps → ps.is .formalParameters = true)
    (whole : layout n = lambdaNames n ++ codeIn n [.body])
    (plain : (hasOddParameter source x n || hasStray source x n fun _ => false) = false)
    (part : .part k ∈ layout n) :
    Finds source x root rest (inView n k.start) (Receiver.parameter? source x n) := by
  rw [Bool.or_eq_false_iff] at plain
  have hn : n ∈ root.preorder := within.mem_preorder
  have parts : partsOf (layout n) = n.childrenOf .body := by
    rw [whole, partsOf_append, partsOf_lambdaNames, List.nil_append, codeIn, partsOf_partItems,
      List.flatMap_singleton]
  obtain ⟨pre, post, split⟩ := List.append_of_mem (parts ▸ mem_partsOf.2 part)
  have items : layout n = lambdaNames n ++ partItems (n.childrenOf .body) := by
    rw [whole, codeIn, List.flatMap_singleton]
  rw [inView_of_parts (h.inside hn) items split]
  apply (finds_parameter h nonempty within kind plain.1).congr
  intro m name
  rw [List.mem_append]
  have silent := @isNamed_of_stray source x n pre plain.2 fun c hc =>
    parts ▸ split ▸ List.mem_append_left _ hc
  exact (or_iff_left fun hm => isNamed_eq_false_iff.1 silent m hm name).symm

/-- In the body of a class its fields are found. -/
theorem finds_field (nonempty : x ≠ "") (within : Cursor.Within root ⟨n, outer⟩)
    (is : n.is .classBody = true) (role : n.role ≠ some .declarator) (part : .part k ∈ layout n) :
    Finds source x root rest (inView n k.start) (Receiver.field? source x ⟨n, outer ++ rest⟩) := by
  have hn : n ∈ root.preorder := within.mem_preorder
  have plain := overlooksAs_eq clear hn is
  have whole : layout n = memberNames n .fieldDeclaration ++ partItems n.namedChildren :=
    layout_eq role is
  have parts : partsOf (layout n) = n.namedChildren := by
    rw [whole, partsOf_append, partsOf_memberNames, List.nil_append, partsOf_partItems]
  obtain ⟨pre, post, split⟩ := List.append_of_mem (parts ▸ mem_partsOf.2 part)
  rw [inView_of_parts (h.inside hn) whole split, names_memberNames]
  have search : Finds source x root rest
      ((n.namedChildren.filter (·.is .fieldDeclaration)).flatMap variableNames)
      (Receiver.field? source x ⟨n, outer ++ rest⟩) := by
    apply Finds.findSome?
    intro c hc
    obtain ⟨hc, isField⟩ := List.mem_filter.1 hc
    have deeper : Cursor.Within root ⟨c, n :: outer⟩ :=
      .down within (Node.mem_children_of_mem_namedChildren hc)
    exact finds_variables h nonempty deeper (.inr isField)
  apply search.congr
  intro m name
  rw [List.mem_append]
  have silent := @isNamed_of_stray source x n pre plain fun c hc =>
    parts ▸ split ▸ List.mem_append_left _ hc
  exact (or_iff_left fun hm => isNamed_eq_false_iff.1 silent m hm name).symm

/-- In a loop over values its variable is found. -/
theorem finds_loopName (nonempty : x ≠ "") (within : Cursor.Within root ⟨n, outer⟩)
    (is : n.is .enhancedForStatement = true) (role : n.role ≠ some .declarator)
    (part : .part k ∈ layout n) (found : Mentions source x k) :
    Finds source x root rest (inView n k.start)
      (if Receiver.isNamed source x n then some ⟨n.child? .type, none⟩ else none) := by
  have hn : n ∈ root.preorder := within.mem_preorder
  have plain := overlooksAs_eq clear hn is
  rw [overlooksAs, Bool.or_eq_false_iff] at plain
  have whole : layout n = partItems (n.childrenOf .value) ++ nameIn n ++ partItems (n.childrenOf .body) := by
    rw [layout_eq role is, layoutAs, codeIn, codeIn, List.flatMap_singleton, List.flatMap_singleton]
  have parts : partsOf (layout n) = n.childrenOf .value ++ n.childrenOf .body := by
    rw [whole, partsOf_append, partsOf_append, partsOf_partItems, partsOf_partItems, partsOf_nameIn,
      List.append_nil]
  have own : Finds source x root rest (n.child? .name).toList
      (if Receiver.isNamed source x n then some ⟨n.child? .type, none⟩ else none) := by
    apply finds_own nonempty
    intro m name _
    exact ⟨_, declared_name h within (isAny_namedKinds is (by decide)) name,
      (declarationOf_typed (.inr is)).symm⟩
  have silent {cs : List Node} (inside : ∀ c ∈ cs, c ∈ n.childrenOf .value ++ n.childrenOf .body) :=
    @isNamed_of_stray source x n cs plain.1 fun c hc => parts ▸ inside c hc
  have mem := mem_partsOf.2 part
  rw [parts] at mem
  rcases List.mem_append.1 mem with value | body
  · -- a name that occurs in the values is not the one of the loop
    obtain ⟨pre, post, split⟩ := List.append_of_mem value
    have items : layout n = partItems pre ++ .part k :: (partItems post ++ nameIn n ++
        partItems (n.childrenOf .body)) := by
      rw [whole, split]
      simp [partItems]
    have absent : isNamed source x (n.child? .name).toList = false := by
      apply (Bool.and_eq_false_iff.1 plain.2).resolve_right
      intro none
      exact List.any_eq_false.1 none k value (holds_of_mentions found)
    have front := @silent pre fun c hc =>
      List.mem_append_left _ (split ▸ List.mem_append_left _ hc)
    rw [inView_of_layout (h.inside hn) items, names_partItems]
    apply own.congr
    intro m name
    exact iff_of_false (fun hm => isNamed_eq_false_iff.1 absent m hm name)
      fun hm => isNamed_eq_false_iff.1 front m hm name
  · obtain ⟨pre, post, split⟩ := List.append_of_mem body
    rw [inView_of_parts (h.inside hn) whole split, List.flatMap_append, names_partItems, names_nameIn]
    have values := @silent (n.childrenOf .value) fun c hc => List.mem_append_left _ hc
    have front := @silent pre fun c hc => List.mem_append_right _ (split ▸ List.mem_append_left _ hc)
    apply own.congr
    intro m name
    rw [List.mem_append, List.mem_append,
      or_iff_left fun hm => isNamed_eq_false_iff.1 front m hm name,
      or_iff_right fun hm => isNamed_eq_false_iff.1 values m hm name]

/-- At each node on the way outwards the search finds what the node makes visible. -/
theorem finds_declaredBy (nonempty : x ≠ "") (within : Cursor.Within root ⟨n, outer⟩)
    (variable_ : n.role = some .declarator → n.is .variableDeclarator = true)
    (part : .part k ∈ layout n) (found : Mentions source x k) :
    Finds source x root rest (inView n k.start)
      (Receiver.declaredBy? source x ⟨n, outer ++ rest⟩ k) := by
  have hn : n ∈ root.preorder := within.mem_preorder
  have belongs := h.inside hn
  have held := holds_of_mentions found
  rw [Receiver.declaredBy?]
  cases label : n.label with
  | token t =>
    by_cases role : n.role = some .declarator
    · have is := beq_iff_eq.1 (variable_ role)
      rw [label] at is
      cases is
    · rw [layout, if_neg role, label] at part
      cases part
  | kind kind =>
    have is : n.is kind = true := beq_iff_eq.2 label
    have plain := overlooksAs_eq clear hn is
    -- a node that the search passes by makes the name visible to no part that mentions it
    have passes (other : ((partsOf (layout n)).any fun c =>
        isNamed source x (inView n c.start) && holds source x c) = false) :
        Finds source x root rest (inView n k.start) none := by
      have none := List.any_eq_false.1 other k (mem_partsOf.2 part)
      rw [held, Bool.and_true, Bool.not_eq_true] at none
      exact finds_none none
    have hidden (absent : isNamed source x (introduced n) = false) :
        Finds source x root rest (inView n k.start) none := by
      apply finds_none
      rw [isNamed_eq_false_iff] at absent ⊢
      exact fun m hm => absent m (inView_subset n k.start hm)
    have role (other : kind ≠ .variableDeclarator) : n.role ≠ some .declarator := fun role =>
      other (Java.Label.kind.inj (label.symm.trans (beq_iff_eq.1 (variable_ role))))
    have formal {method : Kind} (is : n.is method = true)
        (known : method = .methodDeclaration ∨ method = .constructorDeclaration) :
        ∀ ps, n.child? .parameters = some ps → ps.is .formalParameters = true := by
      intro ps hps
      have inside := Node.mem_children_of_child? hps
      have roleP := Node.role_of_child? hps
      rcases known with rfl | rfl <;>
        exact belongs.is_of_role is inside roleP rfl (fun s => by cases s <;> decide +kernel)
          fun s => by cases s <;> decide +kernel
    have method {method : Kind} (is : n.is method = true)
        (known : method = .methodDeclaration ∨ method = .constructorDeclaration)
        (whole : layout n = parameterNames n ++ codeIn n [.body])
        (plain : (hasOddParameter source x n || hasStray source x n fun _ => false) = false) :
        Finds source x root rest (inView n k.start) (Receiver.parameter? source x n) := by
      have names : parameterNames n = lambdaNames n := by
        rw [parameterNames, lambdaNames]
        cases hps : n.child? .parameters with
        | none => rfl
        | some ps =>
          have isFormal := formal is known ps hps
          simp [is_ne isFormal]
      exact finds_callable h nonempty within (.inr (formal is known)) (names ▸ whole) plain part
    have body (other : n.isAny [.localVariableDeclaration, .fieldDeclaration] = false)
        (whole : layout n = partItems n.namedChildren)
        (plain : hasStray source x n (·.is .localVariableDeclaration) = false) :=
      @finds_local source x text root n k outer rest clear h nonempty within other whole plain part
    dsimp only
    split
    iterate 4 · exact body (by simp [Node.isAny, is_ne is]) (layout_eq (role (by decide)) is) plain
    · exact method is (.inl rfl) (layout_eq (role (by decide)) is) plain
    · exact method is (.inr rfl) (layout_eq (role (by decide)) is) plain
    · exact finds_callable h nonempty within (.inl is) (layout_eq (role (by decide)) is) plain part
    · exact finds_field clear h nonempty within is (role (by decide)) part
    · exact finds_loopVariable clear h nonempty within is (role (by decide)) part found
    · exact finds_loopName clear h nonempty within is (role (by decide)) part found
    · exact finds_caught clear h nonempty within is (role (by decide)) part found
    · exact finds_resource clear h nonempty within is (role (by decide)) part found
    · by_cases local_ : kind = .localVariableDeclaration
      · subst local_
        exact hidden (introduced_of_variables clear hn is (role (by decide)) part found)
      · by_cases resources : kind = .resourceSpecification
        · subst resources
          exact hidden (introduced_of_resources clear hn is (role (by decide)) part found)
        · unfold overlooksAs at plain
          split at plain <;> first | contradiction | exact passes plain

end

end MonoTap.Callback
