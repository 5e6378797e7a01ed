import Mathlib.Data.List.Perm.Subperm
import MonoTap.Callback.Scope

/-!
# The rules of scopes

Where names are visible, by the form of the syntax around them rather than by a walk over it. Each
node has a layout: the names it declares and the parts of it where code stands, in an order in which
a name is visible in the parts after it and nowhere before. A name in code denotes what the innermost
node around it makes visible there. Fields that a type inherits are not in the text; which bodies
inherit a field of which name is given.
-/

set_option autoImplicit false

namespace MonoTap.Callback

open Java (Cursor Kind Node Role)
open Text (Source)

/-! ### Layouts -/

/-- What counts of a node where names are concerned: a name it declares, or a part of it where code
stands. -/
inductive Item where
  | name (n : Node)
  | part (n : Node)

/-- Nodes where code stands. -/
def partItems (ns : List Node) : List Item :=
  ns.map .part

/-- The code in the given parts of a node. -/
def codeIn (n : Node) (roles : List Role) : List Item :=
  partItems (roles.flatMap n.childrenOf)

/-- The name of a node, if it has one. -/
def nameIn (n : Node) : List Item :=
  (n.child? .name).toList.map .name

/-- The name of a parameter; a variable one has its name in a declarator. -/
def parameterName (p : Node) : List Item :=
  if p.is .formalParameter then nameIn p
  else if p.is .spreadParameter then (p.ofKind? .variableDeclarator).toList.flatMap nameIn
  else []

/-- The names of the parameters of a method, or of the components of a record. -/
def parameterNames (n : Node) : List Item :=
  (n.child? .parameters).toList.flatMap fun ps => ps.namedChildren.flatMap parameterName

/-- The names of the parameters of a lambda. -/
def lambdaNames (n : Node) : List Item :=
  (n.child? .parameters).toList.flatMap fun ps =>
    if ps.is .identifier then [.name ps]
    else if ps.is .inferredParameters then
      (ps.namedChildren.filter (·.is .identifier)).map .name
    else ps.namedChildren.flatMap parameterName

/-- The names of the variables that the members of some kind declare. -/
def memberNames (body : Node) (k : Kind) : List Item :=
  (body.namedChildren.filter (·.is k)).flatMap fun member =>
    (member.childrenOf .declarator).flatMap nameIn

/-- The names of the constants of an enumeration, and of the fields that follow them. -/
def enumNames (body : Node) : List Item :=
  (body.namedChildren.filter (·.is .enumConstant)).flatMap nameIn ++
    (body.namedChildren.filter (·.is .enumBodyDeclarations)).flatMap
      (memberNames · .fieldDeclaration)

/-- Whether a node is a clause of a statement that tries. -/
def isClause (n : Node) : Bool :=
  n.isAny [.catchClause, .finallyClause]

/-- The names that a node of some kind declares and the parts of it where code stands. Each name is
visible in the parts after it: members and parameters in the whole body, a local variable from its
initial value on, a resource from its own value on but in no clause. No code stands in labels of
statements, in qualified names and in what is imported; annotations and patterns are left aside. -/
def layoutAs (n : Node) : Kind → List Item
  | .identifier | .scopedIdentifier | .breakStatement | .continueStatement => []
  | .packageDeclaration | .importDeclaration | .moduleDeclaration => []
  | .annotationMarker | .annotationCall => []
  | .typePattern | .recordPattern | .recordPatternComponent => []
  | .methodInvocation => codeIn n [.object, .typeArguments, .arguments]
  | .fieldAccess => codeIn n [.object]
  | .methodReference => partItems (n.namedChildren.take 1)
  | .elementValuePair => codeIn n [.value]
  | .labeledStatement | .switchLabel =>
    partItems (n.namedChildren.filter fun c => !c.is .identifier)
  | .compactConstructorDeclaration | .annotationTypeElementDeclaration =>
    partItems (n.namedChildren.filter fun c => c.role != some .name)
  | .localVariableDeclaration =>
    (n.childrenOf .declarator).flatMap fun d => nameIn d ++ [.part d]
  | .fieldDeclaration => codeIn n [.declarator]
  | .enumConstant => codeIn n [.arguments, .body]
  | .methodDeclaration | .constructorDeclaration => parameterNames n ++ codeIn n [.body]
  | .lambdaExpression => lambdaNames n ++ codeIn n [.body]
  | .enhancedForStatement => codeIn n [.value] ++ nameIn n ++ codeIn n [.body]
  | .catchFormalParameter => nameIn n
  | .resource => if (n.child? .name).isSome then nameIn n ++ codeIn n [.value] else
      partItems n.namedChildren
  | .tryWithResourcesStatement =>
    partItems (n.namedChildren.filter isClause) ++
      partItems (n.namedChildren.filter fun c => !isClause c)
  | .instanceofExpression => codeIn n [.left, .pattern] ++ nameIn n
  | .classDeclaration | .interfaceDeclaration | .enumDeclaration | .annotationTypeDeclaration =>
    partItems (n.child? .body).toList
  | .recordDeclaration => parameterNames n ++ partItems (n.child? .body).toList
  | .classBody => memberNames n .fieldDeclaration ++ partItems n.namedChildren
  | .interfaceBody | .annotationTypeBody =>
    memberNames n .constantDeclaration ++ partItems n.namedChildren
  | .enumBody => enumNames n ++ partItems n.namedChildren
  | _ => partItems n.namedChildren

/-- The layout of a node. In a declarator, code stands in the value only. -/
def layout (n : Node) : List Item :=
  if n.role = some .declarator then codeIn n [.value] else
  match n.label with
  | .token _ => []
  | .kind k => layoutAs n k

/-- Whether the names that nodes of a kind declare are visible in the node only. -/
def opensScope : Kind → Bool
  | .block | .constructorBody | .switchBlock | .switchRule | .forStatement | .enhancedForStatement
  | .catchClause | .tryWithResourcesStatement | .lambdaExpression | .methodDeclaration
  | .constructorDeclaration | .recordDeclaration | .classBody | .interfaceBody | .enumBody
  | .annotationTypeBody => true
  | _ => false

/-- Whether the names that a node declares are visible in the node only. -/
def isScope (n : Node) : Bool :=
  if n.role = some .declarator then false else
  match n.label with
  | .token _ => false
  | .kind k => opensScope k

/-! ### Parts of layouts -/

/-- The parts among some items. -/
def partsOf (items : List Item) : List Node :=
  items.filterMap fun
    | .name _ => none
    | .part n => some n

section

variable {n c : Node} {items more : List Item} {ns : List Node}

theorem mem_partsOf : c ∈ partsOf items ↔ .part c ∈ items := by
  constructor
  · intro h
    obtain ⟨item, mem, found⟩ := List.mem_filterMap.1 h
    cases item with
    | name m => cases found
    | part m =>
      cases found
      exact mem
  · intro h
    exact List.mem_filterMap.2 ⟨.part c, h, rfl⟩

@[simp] theorem partsOf_append : partsOf (items ++ more) = partsOf items ++ partsOf more :=
  List.filterMap_append

@[simp] theorem partsOf_flatMap {α : Type} (l : List α) (f : α → List Item) :
    partsOf (l.flatMap f) = l.flatMap fun a => partsOf (f a) :=
  List.filterMap_flatMap

@[simp] theorem partsOf_partItems (ns : List Node) : partsOf (partItems ns) = ns := by
  rw [partsOf, partItems, List.filterMap_map]
  exact List.filterMap_some

@[simp] theorem partsOf_single (n : Node) : partsOf [.part n] = [n] := rfl

@[simp] theorem partsOf_names (ns : List Node) : partsOf (ns.map .name) = [] := by
  rw [partsOf, List.filterMap_map]
  exact List.filterMap_none ..

@[simp] theorem partsOf_nameIn (n : Node) : partsOf (nameIn n) = [] :=
  partsOf_names _

@[simp] theorem partsOf_parameterName (n : Node) : partsOf (parameterName n) = [] := by
  rw [parameterName]
  split
  · exact partsOf_nameIn n
  · split
    · simp
    · rfl

@[simp] theorem partsOf_parameterNames (n : Node) : partsOf (parameterNames n) = [] := by
  simp [parameterNames]

@[simp] theorem partsOf_lambdaNames (n : Node) : partsOf (lambdaNames n) = [] := by
  rw [lambdaNames, partsOf_flatMap]
  apply List.flatMap_eq_nil_iff.2
  intro ps _
  split
  · rfl
  · split <;> simp

@[simp] theorem partsOf_memberNames (n : Node) (k : Kind) : partsOf (memberNames n k) = [] := by
  simp [memberNames]

@[simp] theorem partsOf_enumNames (n : Node) : partsOf (enumNames n) = [] := by
  simp [enumNames]

/-- Nodes that play different parts are different nodes. -/
theorem subperm_roles {roles : List Role} (distinct : roles.Nodup) (ns : List Node) :
    (roles.flatMap fun r => ns.filter (·.role == some r)).Subperm ns := by
  induction roles generalizing ns with
  | nil => exact List.nil_subperm
  | cons r roles ih =>
    obtain ⟨other, distinct⟩ := List.nodup_cons.1 distinct
    have others : (roles.flatMap fun s => ns.filter (·.role == some s)) =
        roles.flatMap fun s => (ns.filter fun m => !(m.role == some r)).filter (·.role == some s) := by
      apply List.flatMap_congr
      intro s hs
      rw [List.filter_filter]
      apply List.filter_congr
      intro m _
      have different : r ≠ s := fun same => other (same ▸ hs)
      by_cases h : m.role = some s
      · simp [h, different.symm]
      · simp [h]
    rw [List.flatMap_cons, others]
    exact ((List.Subperm.refl _).append (ih distinct _)).trans
      (List.filter_append_perm _ _).subperm

theorem subperm_codeIn {roles : List Role} (distinct : roles.Nodup) (n : Node) :
    (partsOf (codeIn n roles)).Subperm n.children := by
  rw [codeIn, partsOf_partItems]
  exact subperm_roles distinct n.children

theorem subperm_partItems (sub : ns.Sublist n.namedChildren) :
    (partsOf (partItems ns)).Subperm n.children := by
  rw [partsOf_partItems]
  exact (sub.trans List.filter_sublist).subperm

theorem subperm_body (n : Node) : (partsOf (partItems (n.child? .body).toList)).Subperm n.children := by
  rw [partsOf_partItems]
  cases h : n.child? .body with
  | none => exact List.nil_subperm
  | some body => exact (List.singleton_sublist.2 (Node.mem_children_of_child? h)).subperm

/-- The parts of a layout are nodes inside, each of them once. -/
theorem subperm_layout (n : Node) : (partsOf (layout n)).Subperm n.children := by
  have children : (partsOf (partItems n.namedChildren)).Subperm n.children :=
    subperm_partItems (List.Sublist.refl _)
  rw [layout]
  split
  · exact subperm_codeIn (by decide) n
  · split
    · exact List.nil_subperm
    · rename_i k _
      unfold layoutAs
      split
      iterate 12 · exact List.nil_subperm
      · exact subperm_codeIn (by decide) n
      · exact subperm_codeIn (by decide) n
      · exact subperm_partItems (List.take_sublist ..)
      · exact subperm_codeIn (by decide) n
      iterate 4 · exact subperm_partItems List.filter_sublist
      · have declarators : (n.childrenOf .declarator).flatMap (fun d => [d]) =
            n.childrenOf .declarator := List.flatMap_singleton' _
        simp only [partsOf_flatMap, partsOf_append, partsOf_nameIn, List.nil_append,
          partsOf_single, declarators]
        exact List.filter_sublist.subperm
      · exact subperm_codeIn (by decide) n
      · exact subperm_codeIn (by decide) n
      iterate 2
        · rw [partsOf_append, partsOf_parameterNames]
          exact subperm_codeIn (by decide) n
      · rw [partsOf_append, partsOf_lambdaNames]
        exact subperm_codeIn (by decide) n
      · rw [partsOf_append, partsOf_append, partsOf_nameIn, List.append_nil, ← partsOf_append]
        have both : codeIn n [.value] ++ codeIn n [.body] = codeIn n [.value, .body] := by
          simp [codeIn, partItems]
        exact both ▸ subperm_codeIn (by decide) n
      · rw [partsOf_nameIn]
        exact List.nil_subperm
      · split
        · rw [partsOf_append, partsOf_nameIn]
          exact subperm_codeIn (by decide) n
        · exact children
      · rw [partsOf_append, partsOf_partItems, partsOf_partItems]
        exact (List.filter_append_perm _ _).subperm.trans List.filter_sublist.subperm
      · rw [partsOf_append, partsOf_nameIn, List.append_nil]
        exact subperm_codeIn (by decide) n
      iterate 4 · exact subperm_body n
      · rw [partsOf_append, partsOf_parameterNames]
        exact subperm_body n
      iterate 3
        · rw [partsOf_append, partsOf_memberNames]
          exact children
      · rw [partsOf_append, partsOf_enumNames]
        exact children
      · exact children

theorem mem_children_of_part (h : .part c ∈ layout n) : c ∈ n.children :=
  (subperm_layout n).subset (mem_partsOf.2 h)

end

/-! ### What names denote -/

/-- The names that a node makes visible to the code after it. -/
def declares (n : Node) : List Node :=
  if isScope n then [] else
    (layout n).attach.flatMap fun
      | ⟨.name m, _⟩ => [m]
      | ⟨.part c, _⟩ => declares c
termination_by sizeOf n
decreasing_by exact Node.sizeOf_lt_of_mem_children (mem_children_of_part ‹_›)

/-- The names that an item makes visible to the items after it. -/
def Item.names : Item → List Node
  | .name m => [m]
  | .part c => declares c

/-- The names that are visible to the code at the end of a node. -/
def introduced (n : Node) : List Node :=
  (layout n).flatMap Item.names

theorem declares_eq (n : Node) : declares n = if isScope n then [] else introduced n := by
  have same : (layout n).attach.flatMap (fun i : {i // i ∈ layout n} => i.val.names) = introduced n := by
    rw [← List.flatMap_map, List.attach_map_subtype_val, introduced]
  rw [declares, ← same]
  congr 2
  funext i
  rcases i with ⟨m | c, h⟩ <;> rfl

/-- Whether an item comes before the part at an offset, if all items before it do. -/
def Item.isBefore (offset : Nat) : Item → Bool
  | .name _ => true
  | .part c => c.start != offset

/-- The names that a node makes visible to its part at an offset. -/
def inView (n : Node) (offset : Nat) : List Node :=
  ((layout n).takeWhile (·.isBefore offset)).flatMap Item.names

/-- What a name in a callback denotes: a parameter, by its position, or what is declared at an offset
in the body. -/
inductive Target where
  | parameter (i : Nat)
  | declared (offset : Nat)
  deriving DecidableEq, Repr

/-- The last of some names that has the given text. -/
def lastNamed (source : Source) (x : String) (names : List Node) : Option Target :=
  (names.reverse.find? (·.text source == x)).map fun m => .declared m.start

/-- The last parameter of the given name. -/
def parameterNamed (parameters : List (String × Option String)) (x : String) : Option Target :=
  (parameters.zipIdx.reverse.find? (·.1.1 == x)).map fun p => .parameter p.2

/-- What a name denotes at a node: the innermost of the nodes around it that makes the name visible
there decides. A body that inherits a field of this name lets it denote nothing in the callback. What
the name denotes outside all these nodes is given. -/
def denotes? (source : Source) (inherits : Node → String → Bool) (x : String)
    (outside : Option Target) : Node → List Node → Option Target
  | _, [] => outside
  | c, n :: around =>
    match lastNamed source x (inView n c.start) with
    | some target => some target
    | none => if inherits n x then none else denotes? source inherits x outside n around

/-- Whether code stands at a node, as far as the nodes around it tell. -/
def InCode : Node → List Node → Prop
  | _, [] => True
  | c, n :: around => .part c ∈ layout n ∧ InCode n around

/-- Whether a node is a name that refers to something, if it stands in code. -/
def isReference (n : Node) : Bool :=
  if n.role = some .declarator then false else n.is .identifier

/-- A name in an expression. -/
structure Refers (c : Cursor) : Prop where
  name : isReference c.node = true
  inCode : InCode c.node c.ancestors

/-! ### Where a walk departs from the rules -/

/-- Whether a name occurs in a node. -/
def holds (source : Source) (x : String) (n : Node) : Bool :=
  n.preorder.any (·.text source == x)

/-- Whether a name is among those that some nodes are. -/
def isNamed (source : Source) (x : String) (names : List Node) : Bool :=
  names.any (·.text source == x)

/-- Whether the walk over a node of some kind departs from the rules of scopes as far as the given
name goes: the name occurs in what is imported, in an annotation or in a pattern, or as a label of a
switch; it is that of a compact constructor, of an element of an annotation type or of a pattern
variable; a resource of this name occurs in its own value or in a clause; or a component of a record, a
constant of an enumeration or another member that is no field of a class has this name, which occurs
in the body. -/
def departsAs (source : Source) (x : String) (n : Node) : Kind → Bool
  | .packageDeclaration | .importDeclaration | .moduleDeclaration | .annotationCall
  | .typePattern | .recordPattern | .recordPatternComponent => holds source x n
  | .switchLabel => (n.namedChildren.filter (·.is .identifier)).any (holds source x)
  | .compactConstructorDeclaration | .annotationTypeElementDeclaration =>
    (n.namedChildren.filter (·.role == some .name)).any (holds source x)
  | .instanceofExpression => isNamed source x (n.child? .name).toList
  | .resource =>
    isNamed source x (n.child? .name).toList && (n.childrenOf .value).any (holds source x)
  | .tryWithResourcesStatement =>
    isNamed source x (introduced n) && (n.namedChildren.filter isClause).any (holds source x)
  | .recordDeclaration | .interfaceBody | .annotationTypeBody | .enumBody =>
    isNamed source x (introduced n) && (partsOf (layout n)).any (holds source x)
  | _ => false

/-- Whether the walk over a node departs from the rules of scopes as far as the given name goes. That
is also so if a field of this name is inherited, or if the name occurs in the declaration of a constant
of an interface, which declares variables but is neither a local variable nor a field. -/
def departs (source : Source) (inherits : Node → String → Bool) (x : String) (n : Node) : Bool :=
  inherits n x ||
  (!n.isAny [.localVariableDeclaration, .fieldDeclaration] &&
    (n.childrenOf .declarator).any (holds source x)) ||
  match n.label with
  | .token _ => false
  | .kind k => departsAs source x n k

end MonoTap.Callback
