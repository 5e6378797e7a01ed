import MonoTap.Proofs.Hops

/-!
# Environments of names

The names that stand around a place, from the inside out, each with what it is declared as. A search for
the declaration of a name takes the first entry of the name. So where all entries of a name say the same,
the search ends there, whatever else the nodes around declare.
-/

set_option autoImplicit false

namespace MonoTap.Receiver

open Java (Cursor Kind Node)
open Text (Source)

/-- The name of a node; without one it is empty. -/
def nameOf (source : Source) (n : Node) : String :=
  ((n.child? .name).map (Node.text source)).getD ""

/-- The variables of a declaration, each with what it is declared as. -/
def variablesOf (source : Source) (declaration : Cursor) : List (String × Declaration) :=
  (declaration.node.childrenOf .declarator).map fun d =>
    (nameOf source d, ⟨declaration.node.child? .type, (d.child? .value).map (declaration.down d).down⟩)

/-- The variables that the nodes of some kind among some nodes inside a scope declare. -/
def variablesAmong (source : Source) (scope : Cursor) (k : Kind) (ns : List Node) :
    List (String × Declaration) :=
  (ns.filter (·.is k)).flatMap fun s => variablesOf source (scope.down s)

/-- The parameters of a method, a constructor or a lambda. -/
def parametersOf (source : Source) (callable : Node) : List (String × Declaration) :=
  match callable.child? .parameters with
  | none => []
  | some ps =>
    if ps.is .identifier then [(ps.text source, ⟨none, none⟩)]
    else if ps.is .inferredParameters then
      ps.namedChildren.map fun p => (p.text source, ⟨none, none⟩)
    else (ps.namedChildren.filter (·.is .formalParameter)).map fun p =>
      (nameOf source p, ⟨p.child? .type, none⟩)

/-- The resources of a statement that tries. -/
def resourcesOf (source : Source) (statement : Cursor) : List (String × Declaration) :=
  match statement.node.child? .resources with
  | none => []
  | some rs => rs.namedChildren.map fun r =>
      (nameOf source r, declarationAt ((statement.down rs).down r))

/-- What a node declares for the code inside it. Of a node that holds a list of statements, the given ones
come into question. -/
def namesIn (source : Source) (c : Cursor) (statements : List Node) : List (String × Declaration) :=
  match c.node.label with
  | .token _ => []
  | .kind k =>
    match k with
    | .block | .constructorBody | .switchBlockStatementGroup | .program =>
      variablesAmong source c .localVariableDeclaration statements
    | .methodDeclaration | .constructorDeclaration | .lambdaExpression => parametersOf source c.node
    | .classBody => variablesAmong source c .fieldDeclaration c.node.namedChildren
    | .forStatement => variablesAmong source c .localVariableDeclaration (c.node.childrenOf .init)
    | .enhancedForStatement => [(nameOf source c.node, ⟨c.node.child? .type, none⟩)]
    | .catchClause => (c.node.namedChildren.filter (·.is .catchFormalParameter)).map fun p =>
        (nameOf source p, ⟨p.ofKind? .catchType, none⟩)
    | .tryWithResourcesStatement => resourcesOf source c
    | _ => []

/-- The statements in a node that begin before another node does. -/
def statementsBefore (k n : Node) : List Node :=
  n.namedChildren.takeWhile (·.start < k.start)

/-- The names around a place, from the inside out: those of the statements before it, of parameters, fields,
loops, clauses and resources. -/
def environment (source : Source) : Node → List Node → List (String × Declaration)
  | _, [] => []
  | k, n :: outer => namesIn source ⟨n, outer⟩ (statementsBefore k n) ++ environment source n outer

variable {source : Source} {x : String} {root n k : Node} {outer ns : List Node} {c place v : Cursor}
  {d : Declaration} {kind : Kind}

/-! ### The search -/

theorem lookup_map {α : Type} (l : List α) (name : α → String) (made : α → Declaration) (x : String) :
    (l.map fun a => (name a, made a)).lookup x = (l.find? (name · == x)).map made := by
  induction l with
  | nil => rfl
  | cons a l ih =>
    rw [List.map_cons, List.lookup_cons, List.find?_cons, BEq.comm]
    cases name a == x with
    | true => rfl
    | false => exact ih

theorem lookup_filter_map (l : List Node) (test : Node → Bool) (made : Node → Declaration) (x : String) :
    ((l.filter test).map fun a => (nameOf source a, made a)).lookup x =
      (l.find? fun a => test a && isNamed source x a).map made := by
  rw [lookup_map, List.find?_filter]
  simp only [Bool.decide_and, Bool.decide_eq_true]
  rfl

theorem lookup_flatMap {α : Type} (l : List α) (entries : α → List (String × Declaration)) (x : String) :
    (l.flatMap entries).lookup x = l.findSome? fun a => (entries a).lookup x := by
  induction l with
  | nil => rfl
  | cons a l ih =>
    rw [List.flatMap_cons, List.lookup_append, ih, List.findSome?_cons]
    cases (entries a).lookup x <;> rfl

theorem declarator?_eq_lookup : declarator? source x c = (variablesOf source c).lookup x :=
  (lookup_map _ (nameOf source) _ x).symm

theorem lookup_variablesAmong : (variablesAmong source c kind ns).lookup x =
    (ns.filter (·.is kind)).findSome? fun s => declarator? source x (c.down s) := by
  rw [variablesAmong, lookup_flatMap]
  simp only [declarator?_eq_lookup]

theorem parameter?_eq_lookup : parameter? source x n = (parametersOf source n).lookup x := by
  rw [parameter?, parametersOf]
  cases n.child? .parameters with
  | none => rfl
  | some ps =>
    dsimp only
    split
    · rw [List.lookup_cons, BEq.comm]
      cases x == ps.text source <;> rfl
    · split
      · exact (lookup_map _ (Node.text source) _ x).symm
      · exact (lookup_filter_map _ _ _ x).symm

theorem resource?_eq_lookup : resource? source x c = (resourcesOf source c).lookup x := by
  rw [resource?, resourcesOf]
  cases c.node.child? .resources with
  | none => rfl
  | some rs => exact (lookup_map _ (nameOf source) _ x).symm

/-- The search at a node takes the first of the names that the node declares. -/
theorem declaredBy?_eq_lookup :
    declaredBy? source x c k = (namesIn source c (statementsBefore k c.node)).lookup x := by
  rw [declaredBy?, namesIn]
  cases c.node.label with
  | token t => rfl
  | kind kind =>
    dsimp only
    split
    iterate 4 · exact lookup_variablesAmong.symm
    iterate 3 · exact parameter?_eq_lookup
    iterate 2 · exact lookup_variablesAmong.symm
    · rw [List.lookup_cons, BEq.comm, show isNamed source x c.node = (nameOf source c.node == x) from rfl]
      cases nameOf source c.node == x <;> rfl
    · exact (lookup_filter_map _ _ _ x).symm
    · exact resource?_eq_lookup
    · grind

/-- The search for a declaration takes the first entry of the name in the environment. -/
theorem declaration?_eq_lookup :
    declaration? source x place = (environment source place.node place.ancestors).lookup x := by
  have along (k : Node) (outer : List Node) :
      declarationAround? source x k outer = (environment source k outer).lookup x := by
    induction outer generalizing k with
    | nil => rfl
    | cons n outer ih =>
      rw [declarationAround?, environment, List.lookup_append, declaredBy?_eq_lookup, ih]
  exact along place.node place.ancestors

/-! ### One declaration of a name -/

theorem variablesAmong_mono {ms : List Node} (sub : ms ⊆ ns) :
    variablesAmong source c kind ms ⊆ variablesAmong source c kind ns := by
  intro e he
  obtain ⟨s, hs, he⟩ := List.mem_flatMap.1 he
  obtain ⟨hs, is⟩ := List.mem_filter.1 hs
  exact List.mem_flatMap.2 ⟨s, List.mem_filter.2 ⟨sub hs, is⟩, he⟩

theorem namesIn_mono {ms : List Node} (sub : ms ⊆ ns) :
    namesIn source c ms ⊆ namesIn source c ns := by
  unfold namesIn
  cases c.node.label with
  | token t => exact List.Subset.refl _
  | kind kind =>
    dsimp only
    split
    iterate 4 · exact variablesAmong_mono sub
    all_goals exact List.Subset.refl _

/-- An entry of the environment comes from one of the nodes around. -/
theorem mem_environment {e : String × Declaration} : e ∈ environment source k outer ↔
    ∃ inner n rest, outer = inner ++ n :: rest ∧
      e ∈ namesIn source ⟨n, rest⟩ (statementsBefore (inner.getLastD k) n) := by
  induction outer generalizing k with
  | nil => simp [environment]
  | cons m outer ih =>
    rw [environment, List.mem_append, ih]
    constructor
    · rintro (here | ⟨inner, n, rest, rfl, found⟩)
      · exact ⟨[], m, outer, rfl, here⟩
      · exact ⟨m :: inner, n, rest, rfl, by rwa [List.getLastD_cons]⟩
    · rintro ⟨inner, n, rest, split, found⟩
      cases inner with
      | nil =>
        cases split
        exact Or.inl found
      | cons i inner =>
        cases split
        exact Or.inr ⟨inner, n, rest, rfl, by rwa [List.getLastD_cons] at found⟩

/-- What the nodes around a place declare a name as is always the same. -/
def Alone (source : Source) (x : String) (d : Declaration) (place : Cursor) : Prop :=
  ∀ n outer, n :: outer <:+ place.ancestors →
    ∀ e ∈ namesIn source ⟨n, outer⟩ n.namedChildren, e.1 = x → e.2 = d

/-- No node around a place declares a name. -/
def Absent (source : Source) (x : String) (place : Cursor) : Prop :=
  ∀ n outer, n :: outer <:+ place.ancestors →
    ∀ e ∈ namesIn source ⟨n, outer⟩ n.namedChildren, e.1 ≠ x

theorem exists_namesIn {e : String × Declaration}
    (found : e ∈ environment source place.node place.ancestors) :
    ∃ n outer, n :: outer <:+ place.ancestors ∧ e ∈ namesIn source ⟨n, outer⟩ n.namedChildren := by
  obtain ⟨inner, n, outer, split, found⟩ := mem_environment.1 found
  exact ⟨n, outer, ⟨inner, split.symm⟩, namesIn_mono (List.takeWhile_prefix _).subset found⟩

/-- A name is found where it is declared before the place, if all else that is said of it is the same. -/
theorem declaration?_of_alone {inner : List Node} (alone : Alone source x d place)
    (around : place.ancestors = inner ++ n :: outer)
    (declared : (x, d) ∈ namesIn source ⟨n, outer⟩ (statementsBefore (inner.getLastD place.node) n)) :
    declaration? source x place = some d := by
  have here : (x, d) ∈ environment source place.node place.ancestors :=
    mem_environment.2 ⟨inner, n, outer, around, declared⟩
  rw [declaration?_eq_lookup]
  cases found : (environment source place.node place.ancestors).lookup x with
  | none =>
    have other := List.lookup_eq_none_iff.1 found _ here
    rw [bne_self_eq_false] at other
    cases other
  | some d' =>
    obtain ⟨front, back, split, _⟩ := List.lookup_eq_some_iff.1 found
    have entry : (x, d') ∈ environment source place.node place.ancestors :=
      split ▸ List.mem_append_right _ List.mem_cons_self
    obtain ⟨m, rest, suffix, mem⟩ := exists_namesIn entry
    rw [show d' = d from alone m rest suffix _ mem rfl]

theorem declaration?_of_absent (absent : Absent source x place) : declaration? source x place = none := by
  rw [declaration?_eq_lookup, List.lookup_eq_none_iff]
  intro e he
  obtain ⟨n, outer, suffix, mem⟩ := exists_namesIn he
  exact bne_iff_ne.2 (absent n outer suffix e mem).symm

end MonoTap.Receiver
