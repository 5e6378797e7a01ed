import MonoTap.Java.Node

/-!
# Declarations of names

Where a name that stands at some place is declared. The search goes from the place outwards and
takes the first node around it that declares the name: a block with an earlier local variable, a
callable with a parameter, a class body with a field, or a statement with a variable of its own.
-/

set_option autoImplicit false

namespace MonoTap.Receiver

open Java (Node Cursor Kind)

/-- The declaration of a name: its type, if it has one, and the value it starts with. -/
structure Declaration where
  type : Option Node
  value : Option Cursor

/-- Whether the name of a declaring node is `name`. -/
def isNamed (source : Text.Source) (name : String) (n : Node) : Bool :=
  ((n.child? .name).map (Node.text source)).getD "" == name

/-- The declaration that a node with a type, a name and a value makes. -/
def declarationAt (c : Cursor) : Declaration :=
  ⟨c.node.child? .type, (c.node.child? .value).map c.down⟩

/-- The declaration of a name among the variables of one declaration. -/
def declarator? (source : Text.Source) (name : String) (declaration : Cursor) :
    Option Declaration :=
  ((declaration.node.childrenOf .declarator).find? (isNamed source name)).map fun d =>
    ⟨declaration.node.child? .type, (d.child? .value).map (declaration.down d).down⟩

/-- The declaration of a name by a local variable of a block that starts before an offset. -/
def local? (source : Text.Source) (name : String) (before : Nat) (scope : Cursor) :
    Option Declaration :=
  ((scope.node.namedChildren.takeWhile (·.start < before)).filter
    (·.is .localVariableDeclaration)).findSome? fun s => declarator? source name (scope.down s)

/-- The declaration of a name by a parameter of a method, a constructor or a lambda. -/
def parameter? (source : Text.Source) (name : String) (callable : Node) : Option Declaration :=
  match callable.child? .parameters with
  | none => none
  | some ps =>
    if ps.is .identifier then
      if ps.text source == name then some ⟨none, none⟩ else none
    else if ps.is .inferredParameters then
      (ps.namedChildren.find? fun p => p.text source == name).map fun _ => ⟨none, none⟩
    else
      (ps.namedChildren.find? fun p => p.is .formalParameter && isNamed source name p).map fun p =>
        ⟨p.child? .type, none⟩

/-- The declaration of a name by a field in the body of a class. -/
def field? (source : Text.Source) (name : String) (body : Cursor) : Option Declaration :=
  (body.node.namedChildren.filter (·.is .fieldDeclaration)).findSome? fun f =>
    declarator? source name (body.down f)

/-- The declaration of a name by a variable of a `for` statement. -/
def loopVariable? (source : Text.Source) (name : String) (loop : Cursor) : Option Declaration :=
  ((loop.node.childrenOf .init).filter (·.is .localVariableDeclaration)).findSome? fun s =>
    declarator? source name (loop.down s)

/-- The declaration of a name by the variable of a `catch` clause. -/
def caught? (source : Text.Source) (name : String) (clause : Node) : Option Declaration :=
  (clause.namedChildren.find? fun p => p.is .catchFormalParameter && isNamed source name p).map
    fun p => ⟨p.ofKind? .catchType, none⟩

/-- The declaration of a name by a resource of a `try` statement. -/
def resource? (source : Text.Source) (name : String) (statement : Cursor) : Option Declaration :=
  match statement.node.child? .resources with
  | none => none
  | some rs => (rs.namedChildren.find? (isNamed source name)).map fun r =>
      declarationAt ((statement.down rs).down r)

/-- The declaration of a name by a node around the place, where `inner` is the node on the way from
it to the place. -/
def declaredBy? (source : Text.Source) (name : String) (around : Cursor) (inner : Node) :
    Option Declaration :=
  match around.node.label with
  | .token _ => none
  | .kind k =>
    match k with
    | .block | .constructorBody | .switchBlockStatementGroup | .program =>
      local? source name inner.start around
    | .methodDeclaration | .constructorDeclaration | .lambdaExpression =>
      parameter? source name around.node
    | .classBody => field? source name around
    | .forStatement => loopVariable? source name around
    | .enhancedForStatement =>
      if isNamed source name around.node then some ⟨around.node.child? .type, none⟩ else none
    | .catchClause => caught? source name around.node
    | .tryWithResourcesStatement => resource? source name around
    | _ => none

/-- The declaration of a name at a node with the given nodes around it. -/
def declarationAround? (source : Text.Source) (name : String) (inner : Node) :
    List Node → Option Declaration
  | [] => none
  | n :: outer =>
    (declaredBy? source name ⟨n, outer⟩ inner).or (declarationAround? source name n outer)

/-- The declaration of a name at a place. -/
def declaration? (source : Text.Source) (name : String) (place : Cursor) : Option Declaration :=
  declarationAround? source name place.node place.ancestors

/-- The declaration of a field of the class around some nodes. -/
def fieldAround? (source : Text.Source) (name : String) : List Node → Option Declaration
  | [] => none
  | n :: outer =>
    if n.is .classBody then field? source name ⟨n, outer⟩ else fieldAround? source name outer

/-- What the nearest node declares hides what the nodes further out declare. -/
theorem declarationAround?_of_declaredBy? {source : Text.Source} {name : String} {inner n : Node}
    {outer : List Node} {d : Declaration} (h : declaredBy? source name ⟨n, outer⟩ inner = some d) :
    declarationAround? source name inner (n :: outer) = some d := by
  simp [declarationAround?, h]

theorem declarationAround?_of_none {source : Text.Source} {name : String} {inner n : Node}
    {outer : List Node} (h : declaredBy? source name ⟨n, outer⟩ inner = none) :
    declarationAround? source name inner (n :: outer) = declarationAround? source name n outer := by
  simp [declarationAround?, h]

end MonoTap.Receiver
