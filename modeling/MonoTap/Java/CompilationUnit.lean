import MonoTap.Java.SyntaxTree

/-!
# Compilation units

What a compilation unit declares: its package, its imports, and its types with their methods and
constructors. A declared unit is known by its qualified name: the package, the names of the types
around it from the outside in, and its own name, joined by dots.
-/

set_option autoImplicit false

namespace MonoTap.Java

/-- An import of one name, or of all names directly inside it. -/
structure ImportDeclaration where
  name : String
  isStatic : Bool
  isWildcard : Bool
  start : Nat
  stop : Nat
  deriving DecidableEq, Repr

/-- The declaration as Java writes it. -/
def ImportDeclaration.text (d : ImportDeclaration) : String :=
  (if d.isStatic then "import static " else "import ") ++ d.name ++
    (if d.isWildcard then ".*;" else ";")

/-- The package of a compilation unit, and where its declaration ends. -/
structure PackageDeclaration where
  name : String
  stop : Nat
  deriving DecidableEq, Repr

/-- The dotted name that a declaration of a package or an import holds. -/
def dottedName? (n : Node) : Option Node :=
  n.namedChildren.find? fun c => c.isAny [.scopedIdentifier, .identifier]

/-- The import that a node declares. -/
def ImportDeclaration.ofNode? (source : Text.Source) (n : Node) : Option ImportDeclaration :=
  if n.is .importDeclaration then
    (dottedName? n).map fun name =>
      { name := name.text source
        isStatic := n.children.any fun c => c.label == .token "static"
        isWildcard := n.children.any fun c => c.is .asterisk
        start := n.start
        stop := n.stop }
  else none

/-- The imports of a compilation unit, in source order. -/
def importsOf (source : Text.Source) (root : Node) : List ImportDeclaration :=
  root.namedChildren.filterMap (ImportDeclaration.ofNode? source)

/-- The package of a compilation unit. -/
def packageOf? (source : Text.Source) (root : Node) : Option PackageDeclaration :=
  (root.ofKind? .packageDeclaration).map fun n =>
    ⟨((dottedName? n).map (Node.text source)).getD "", n.stop⟩

/-- What a declared unit is. A record counts as a class. -/
inductive UnitKind where
  | classType | interfaceType | enumType | method | constructor
  deriving DecidableEq, Repr

/-- The word for a kind of unit. -/
def UnitKind.word : UnitKind → String
  | .classType => "class"
  | .interfaceType => "interface"
  | .enumType => "enum"
  | .method => "method"
  | .constructor => "constructor"

/-- The kind of unit that a declaration of a type gives. -/
def UnitKind.ofType? (n : Node) : Option UnitKind :=
  match n.label with
  | .kind .classDeclaration | .kind .recordDeclaration => some .classType
  | .kind .interfaceDeclaration => some .interfaceType
  | .kind .enumDeclaration => some .enumType
  | _ => none

/-- The kind of unit that a declaration of a member gives. -/
def UnitKind.ofMember? (n : Node) : Option UnitKind :=
  match n.label with
  | .kind .methodDeclaration => some .method
  | .kind .constructorDeclaration => some .constructor
  | _ => none

/-- A declared type, method or constructor. -/
structure CodeUnit where
  kind : UnitKind
  name : String
  qualifiedName : String
  firstLine : Nat
  lastLine : Nat
  source : String
  signature : String
  parent : Option String
  deriving DecidableEq, Repr

/-- The text up to the first brace or semicolon, with each run of blanks as one space. -/
def signatureOf (text : List Char) : List Char :=
  Text.joinWith [' '] (Text.words (text.takeWhile fun c => c != '{' && c != ';'))

/-- The unit that a node declares under the given names. -/
def CodeUnit.ofNode (source : Text.Source) (kind : UnitKind) (name qualifiedName : String)
    (parent : Option String) (n : Node) : CodeUnit :=
  let text := n.text source
  { kind, name, qualifiedName, parent
    firstLine := source.line n.start
    lastLine := source.line n.stop
    source := text
    signature := String.ofList (signatureOf text.toList) }

/-- The text of the name of a declaration, empty if it has none. -/
def declaredName (source : Text.Source) (n : Node) : String :=
  ((n.child? .name).map (Node.text source)).getD ""

/-- A name inside the scope of another one, which may be empty. -/
def qualify (scope name : String) : String :=
  if scope.isEmpty then name else scope ++ "." ++ name

/-- The method or constructor that a member of the type `owner` declares. One without a name is
called like its owner. -/
def memberUnit? (source : Text.Source) (ownerName ownerQualified : String) (n : Node) :
    Option CodeUnit :=
  (UnitKind.ofMember? n).map fun kind =>
    let name := declaredName source n
    let name := if name.isEmpty then ownerName else name
    .ofNode source kind name (ownerQualified ++ "." ++ name) (some ownerName) n

/-- The units that a declaration of a type gives: the type itself, and then its members and the
types inside it, in source order. The members of an enumeration stand one level further down. -/
def typeUnits (source : Text.Source) (scope : String) (parent : Option String) (n : Node) :
    List CodeUnit :=
  match UnitKind.ofType? n with
  | none => []
  | some kind =>
    let name := declaredName source n
    if name.isEmpty then []
    else
      let qualified := qualify scope name
      .ofNode source kind name qualified parent n ::
        match _h : n.child? .body with
        | none => []
        | some body =>
          body.namedChildren.attach.flatMap fun ⟨member, _memberIn⟩ =>
            if (UnitKind.ofMember? member).isSome then
              (memberUnit? source name qualified member).toList
            else if member.is .enumBodyDeclarations then
              member.namedChildren.filterMap (memberUnit? source name qualified)
            else typeUnits source qualified (some name) member
termination_by sizeOf n
decreasing_by
  have inBody := Node.sizeOf_lt_of_mem_children (Node.mem_children_of_mem_namedChildren _memberIn)
  have inNode := Node.sizeOf_lt_of_mem_children (Node.mem_children_of_child? _h)
  omega

/-- The units that a compilation unit declares, in source order. -/
def unitsOf (source : Text.Source) (root : Node) : List CodeUnit :=
  let package := ((packageOf? source root).map PackageDeclaration.name).getD ""
  root.children.flatMap (typeUnits source package none)

/-- A compilation unit: its text, its tree, and what it declares. -/
structure CompilationUnit where
  source : Text.Source
  root : Node
  package : Option PackageDeclaration
  imports : List ImportDeclaration

/-- The compilation unit with the given text. -/
def CompilationUnit.ofString (text : String) : CompilationUnit :=
  let source := Text.Source.ofString text
  let root := parse text.toList
  { source, root
    package := packageOf? source root
    imports := importsOf source root }

namespace CompilationUnit

/-- The name of the package, empty for the unnamed one. -/
def packageName (u : CompilationUnit) : String :=
  (u.package.map PackageDeclaration.name).getD ""

/-- The declared types, methods and constructors. -/
def units (u : CompilationUnit) : List CodeUnit :=
  unitsOf u.source u.root

/-- Whether the text is no Java. -/
def hasSyntaxErrors (u : CompilationUnit) : Bool :=
  u.root.hasError

/-- The line of the first syntax error. -/
def firstErrorLine (u : CompilationUnit) : Nat :=
  u.root.firstErrorLine u.source

/-- The number of lines; a last line without a terminator counts. -/
def lineCount (u : CompilationUnit) : Nat :=
  u.source.toBytes.count 10 +
    match u.source.toBytes.getLast? with
    | none | some 10 => 0
    | some _ => 1

end CompilationUnit

/-- The smallest method or constructor that spans a line; of equally small ones the first. -/
def innermost? (units : List CodeUnit) (line : Nat) : Option CodeUnit :=
  let spanning := units.filter fun u =>
    (u.kind == .method || u.kind == .constructor) && u.firstLine ≤ line && line ≤ u.lastLine
  match spanning with
  | [] => none
  | u :: us => some (us.foldl (fun best v =>
      if v.lastLine - v.firstLine < best.lastLine - best.firstLine then v else best) u)

end MonoTap.Java
