import MonoTap.Java.Node

/-!
# Scopes

Which declaration each name in a callback denotes. Walking a piece of syntax gives scope events:
scopes open and close, names are declared, and names are mentioned. Running the events resolves each
mention to the innermost visible declaration. Names that denote no variable (of methods, of members
after a dot, of labels, types and annotations) are not mentioned at all.
-/

set_option autoImplicit false

namespace MonoTap.Callback

open Java (Node Kind Role)

/-- A declaration that a name may denote. Declarations are told apart by their numbers alone. -/
structure Binding where
  id : Nat
  name : String
  type : Option String
  deriving DecidableEq, Repr

/-- Whether two bindings are one declaration. -/
def Binding.same (a b : Binding) : Bool :=
  a.id == b.id

/-- What a walk over syntax meets, as far as names are concerned. A name is declared or mentioned at
the offset of its first byte. -/
inductive ScopeEvent where
  | enter
  | leave
  | declare (name : String) (type : Option String) (offset : Nat)
  | mention (name : String) (offset : Nat)
  deriving DecidableEq, Repr

/-- One step of a walk: an event, or a node to walk next. -/
inductive Step where
  | event (e : ScopeEvent)
  | visit (n : Node)

/-- Visits to nodes, in order. -/
def visits (ns : List Node) : List Step :=
  ns.map .visit

/-- Steps inside a scope of their own. -/
def inScope (steps : List Step) : List Step :=
  .event .enter :: steps ++ [.event .leave]

/-- The declaration of a name with a type, where there is a name. -/
def declareName (source : Text.Source) (name type : Option Node) : List Step :=
  match name with
  | some n => [.event (.declare (n.text source) (type.map (Node.text source)) n.start)]
  | none => []

/-- The declaration of a parameter; a variable one has its name in a declarator. -/
def declareParameter (source : Text.Source) (p : Node) : List Step :=
  if p.is .formalParameter then declareName source (p.child? .name) (p.child? .type)
  else if p.is .spreadParameter then
    declareName source ((p.ofKind? .variableDeclarator).bind (·.child? .name)) none
  else []

/-- The declarations of the parameters of a lambda. -/
def declareLambdaParameters (source : Text.Source) (lambda : Node) : List Step :=
  match lambda.child? .parameters with
  | none => []
  | some ps =>
    if ps.is .identifier then declareName source (some ps) none
    else if ps.is .inferredParameters then
      (ps.namedChildren.filter (·.is .identifier)).flatMap fun p => declareName source (some p) none
    else ps.namedChildren.flatMap (declareParameter source)

/-- The declarations of the fields of a class, which are visible in all of its body. -/
def declareFields (source : Text.Source) (body : Node) : List Step :=
  (body.namedChildren.filter (·.is .fieldDeclaration)).flatMap fun field =>
    (field.childrenOf .declarator).flatMap fun d =>
      declareName source (d.child? .name) (field.child? .type)

/-- The parts of some nodes, one after the other. -/
def visitParts (n : Node) (parts : List Role) : List Step :=
  parts.flatMap fun part => visits (n.childrenOf part)

/-- The steps of the walk over a node. -/
def steps (source : Text.Source) (n : Node) : List Step :=
  match n.label with
  | .token _ => []
  | .kind k =>
    match k with
    | .identifier => [.event (.mention (n.text source) n.start)]
    | .methodInvocation => visitParts n [.object, .typeArguments, .arguments]
    | .fieldAccess => visitParts n [.object]
    | .methodReference => visits (n.namedChildren.take 1)
    | .labeledStatement => visits (n.namedChildren.filter fun c => !c.is .identifier)
    | .breakStatement | .continueStatement | .annotationMarker | .scopedIdentifier => []
    | .annotationCall => visitParts n [.arguments]
    | .elementValuePair => visitParts n [.value]
    | .enumConstant => visitParts n [.arguments, .body]
    | .localVariableDeclaration =>
      (n.childrenOf .declarator).flatMap fun d =>
        declareName source (d.child? .name) (n.child? .type) ++ visits (d.childrenOf .value)
    | .fieldDeclaration =>
      (n.childrenOf .declarator).flatMap fun d => visits (d.childrenOf .value)
    | .classBody => inScope (declareFields source n ++ visits n.namedChildren)
    | .methodDeclaration | .constructorDeclaration =>
      inScope ((((n.child? .parameters).map Node.namedChildren).getD []).flatMap
        (declareParameter source) ++ visitParts n [.body])
    | .lambdaExpression => inScope (declareLambdaParameters source n ++ visitParts n [.body])
    | .enhancedForStatement =>
      inScope (visitParts n [.value] ++ declareName source (n.child? .name) (n.child? .type) ++
        visitParts n [.body])
    | .forStatement | .catchClause | .tryWithResourcesStatement | .block | .switchBlock
    | .switchRule | .constructorBody => inScope (visits n.namedChildren)
    | .catchFormalParameter => declareName source (n.child? .name) (n.ofKind? .catchType)
    | .resource =>
      match n.child? .name with
      | none => visits n.namedChildren
      | some name => visitParts n [.value] ++ declareName source (some name) (n.child? .type)
    | .instanceofExpression =>
      visitParts n [.left, .pattern] ++ declareName source (n.child? .name) (n.child? .right)
    | .recordPatternComponent =>
      n.namedChildren.flatMap fun c =>
        if c.is .identifier then declareName source (some c) none else visits [c]
    | .classDeclaration | .interfaceDeclaration | .enumDeclaration | .recordDeclaration
    | .annotationTypeDeclaration => visits (n.child? .body).toList
    | _ => visits n.namedChildren

/-! ### The walk goes inwards -/

/-- Every visit goes to a node that is smaller than `n`. -/
structure Inwards (n : Node) (l : List Step) : Prop where
  lt : ∀ c, .visit c ∈ l → sizeOf c < sizeOf n

theorem Inwards.append {n : Node} {l m : List Step} (hl : Inwards n l) (hm : Inwards n m) :
    Inwards n (l ++ m) := by
  refine ⟨fun c hc => ?_⟩
  rcases List.mem_append.1 hc with h | h
  · exact hl.lt c h
  · exact hm.lt c h

theorem inwards_visits {n : Node} {ns : List Node} (inside : ∀ c ∈ ns, sizeOf c < sizeOf n) :
    Inwards n (visits ns) := by
  refine ⟨fun c hc => ?_⟩
  simp only [visits, List.mem_map, Step.visit.injEq, exists_eq_right] at hc
  exact inside c hc

theorem inwards_flatMap {α : Type} {n : Node} {l : List α} {f : α → List Step}
    (each : ∀ a ∈ l, Inwards n (f a)) : Inwards n (l.flatMap f) := by
  refine ⟨fun c hc => ?_⟩
  obtain ⟨a, ha, hf⟩ := List.mem_flatMap.1 hc
  exact (each a ha).lt c hf

theorem inwards_nil (n : Node) : Inwards n [] := by
  refine ⟨fun c hc => ?_⟩
  simp at hc

theorem inwards_declareName (n : Node) (source : Text.Source) (name type : Option Node) :
    Inwards n (declareName source name type) := by
  refine ⟨fun c hc => ?_⟩
  cases name <;> simp [declareName] at hc

theorem inwards_declareParameter (n : Node) (source : Text.Source) (p : Node) :
    Inwards n (declareParameter source p) := by
  simp only [declareParameter]
  split
  · exact inwards_declareName ..
  · split
    · exact inwards_declareName ..
    · exact inwards_nil n

theorem inwards_declareLambdaParameters (n : Node) (source : Text.Source) (lambda : Node) :
    Inwards n (declareLambdaParameters source lambda) := by
  simp only [declareLambdaParameters]
  split
  · exact inwards_nil n
  · split
    · exact inwards_declareName ..
    · split
      · exact inwards_flatMap fun p _ => inwards_declareName ..
      · exact inwards_flatMap fun p _ => inwards_declareParameter ..

theorem inwards_declareFields (n : Node) (source : Text.Source) (body : Node) :
    Inwards n (declareFields source body) :=
  inwards_flatMap fun _ _ => inwards_flatMap fun _ _ => inwards_declareName ..

theorem Inwards.inScope {n : Node} {l : List Step} (h : Inwards n l) : Inwards n (inScope l) := by
  refine ⟨fun c hc => ?_⟩
  simp only [Callback.inScope, List.cons_append, List.mem_cons, reduceCtorEq, List.mem_append,
    List.not_mem_nil, or_false, false_or] at hc
  exact h.lt c hc

theorem inwards_children (n : Node) : Inwards n (visits n.namedChildren) :=
  inwards_visits fun _ h =>
    Node.sizeOf_lt_of_mem_children (Node.mem_children_of_mem_namedChildren h)

theorem inwards_visitParts (n : Node) (parts : List Role) : Inwards n (visitParts n parts) :=
  inwards_flatMap fun _ _ => inwards_visits fun _ h =>
    Node.sizeOf_lt_of_mem_children (Node.mem_children_of_mem_childrenOf h)

/-- The values of the variables that a declaration declares lie inside it. -/
theorem inwards_values {n d : Node} (inside : d ∈ n.childrenOf .declarator) :
    Inwards n (visits (d.childrenOf .value)) :=
  inwards_visits fun _ h =>
    Nat.lt_trans (Node.sizeOf_lt_of_mem_children (Node.mem_children_of_mem_childrenOf h))
      (Node.sizeOf_lt_of_mem_children (Node.mem_children_of_mem_childrenOf inside))

theorem inwards_steps (source : Text.Source) (n : Node) : Inwards n (steps source n) := by
  have child : ∀ c ∈ n.namedChildren, sizeOf c < sizeOf n := fun _ h =>
    Node.sizeOf_lt_of_mem_children (Node.mem_children_of_mem_namedChildren h)
  unfold steps
  split
  · exact inwards_nil n
  · split
    · exact ⟨fun c hc => by simp at hc⟩
    · exact inwards_visitParts ..
    · exact inwards_visitParts ..
    · exact inwards_visits fun c h => child c (List.mem_of_mem_take h)
    · exact inwards_visits fun c h => child c (List.mem_filter.1 h).1
    · exact inwards_nil n
    · exact inwards_nil n
    · exact inwards_nil n
    · exact inwards_nil n
    · exact inwards_visitParts ..
    · exact inwards_visitParts ..
    · exact inwards_visitParts ..
    · exact inwards_flatMap fun d h => (inwards_declareName ..).append (inwards_values h)
    · exact inwards_flatMap fun d h => inwards_values h
    · exact ((inwards_declareFields ..).append (inwards_children n)).inScope
    · exact ((inwards_flatMap fun p _ => inwards_declareParameter ..).append
        (inwards_visitParts ..)).inScope
    · exact ((inwards_flatMap fun p _ => inwards_declareParameter ..).append
        (inwards_visitParts ..)).inScope
    · exact ((inwards_declareLambdaParameters ..).append (inwards_visitParts ..)).inScope
    · exact (((inwards_visitParts ..).append (inwards_declareName ..)).append
        (inwards_visitParts ..)).inScope
    iterate 7 · exact (inwards_children n).inScope
    · exact inwards_declareName ..
    · split
      · exact inwards_children n
      · exact (inwards_visitParts ..).append (inwards_declareName ..)
    · exact (inwards_visitParts ..).append (inwards_declareName ..)
    · refine inwards_flatMap fun c h => ?_
      split
      · exact inwards_declareName ..
      · exact inwards_visits fun d hd => by
          rw [List.mem_singleton] at hd
          exact hd ▸ child c h
    iterate 5
      · refine inwards_visits fun c h => ?_
        exact Node.sizeOf_lt_of_mem_children
          (Node.mem_children_of_child? (Option.mem_toList.1 h))
    · exact inwards_children n

/-- The scope events of the walk over a node. -/
def scopeEvents (source : Text.Source) (n : Node) : List ScopeEvent :=
  (steps source n).attach.flatMap fun
    | ⟨.event e, _⟩ => [e]
    | ⟨.visit c, _⟩ => scopeEvents source c
termination_by sizeOf n
decreasing_by exact (inwards_steps source n).lt c ‹_›

/-! ### Resolving mentions -/

/-- A mention of a name that denotes a binding, by the offset of its first byte. -/
structure Occurrence where
  offset : Nat
  binding : Binding
  deriving DecidableEq, Repr

/-- The state of a run of scope events: the next number for a binding, the open scopes from the
inside out with the latest declaration of each first, and what has been found so far, the latest
first. -/
structure Resolution where
  nextId : Nat
  scopes : List (List Binding)
  occurrences : List Occurrence
  freeNames : List String
  declaredNames : List String
  deriving Repr

namespace Resolution

/-- The binding that a name denotes: the latest one in the innermost scope that declares it. -/
def lookup? (r : Resolution) (name : String) : Option Binding :=
  r.scopes.findSome? fun scope => scope.find? (·.name == name)

/-- Runs one scope event. -/
def run (r : Resolution) : ScopeEvent → Resolution
  | .enter => { r with scopes := [] :: r.scopes }
  | .leave => { r with scopes := r.scopes.tail }
  | .declare name type _ =>
    match r.scopes with
    | [] => r
    | scope :: outer =>
      { r with
        nextId := r.nextId + 1
        scopes := (⟨r.nextId, name, type⟩ :: scope) :: outer
        declaredNames := name :: r.declaredNames }
  | .mention name offset =>
    match r.lookup? name with
    | some b => { r with occurrences := ⟨offset, b⟩ :: r.occurrences }
    | none => { r with freeNames := name :: r.freeNames }

/-- The parameters of a callback as bindings, numbered from one. -/
def parameterBindings (parameters : List (String × Option String)) : List Binding :=
  parameters.zipIdx.map fun ((name, type), i) => ⟨i + 1, name, type⟩

/-- The state before the walk over a callback: its parameters are visible, and of two with one name
the later. -/
def start (parameters : List (String × Option String)) : Resolution :=
  let bindings := parameterBindings parameters
  { nextId := bindings.length + 1
    scopes := [bindings.reverse]
    occurrences := []
    freeNames := []
    declaredNames := (bindings.map Binding.name).reverse }

/-- Resolves the names in the body of a callback. -/
def ofBody (source : Text.Source) (parameters : List (String × Option String)) (body : Node) :
    Resolution :=
  (scopeEvents source body).foldl run (start parameters)

/-- The binding that the name at an offset denotes. -/
def bindingAt? (r : Resolution) (offset : Nat) : Option Binding :=
  (r.occurrences.find? (·.offset == offset)).map Occurrence.binding

/-- The numbers of the bindings mentioned from `start` up to `stop`, in increasing order. -/
def referencesIn (r : Resolution) (start stop : Nat) : List Nat :=
  let ids := (r.occurrences.filter fun o => start ≤ o.offset && o.offset < stop).map (·.binding.id)
  ids.eraseDups.mergeSort (· ≤ ·)

end Resolution

/-- Texts without repetition, in the order of their code points. -/
def sortedNames (names : List String) : List String :=
  names.eraseDups.mergeSort fun a b => decide (a ≤ b)

/-- The names and types of the parameters of a lambda. A variable parameter has neither. -/
def lambdaParameters (source : Text.Source) (lambda : Node) : List (String × Option String) :=
  match lambda.child? .parameters with
  | none => []
  | some ps =>
    if ps.is .identifier then [(ps.text source, none)]
    else if ps.is .inferredParameters then
      (ps.namedChildren.filter (·.is .identifier)).map fun p => (p.text source, none)
    else
      ps.namedChildren.filterMap fun p =>
        if p.is .formalParameter then
          some (((p.child? .name).map (Node.text source)).getD "",
            (p.child? .type).map (Node.text source))
        else if p.is .spreadParameter then some ("", none)
        else none

end MonoTap.Callback
