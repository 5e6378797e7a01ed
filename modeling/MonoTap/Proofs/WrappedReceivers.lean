import MonoTap.Proofs.DeclaredNames
import MonoTap.Proofs.Environments
import MonoTap.Proofs.MovedSites

/-!
# Receivers around a name

A name has the type it is declared with, and so has what is built around it: a name in parentheses, a call
on it that keeps the type, or a local variable without a type of its own that starts with it. The way back
to the name takes one step for each of these. If there are more steps than are allowed the type is not
found, and if there are fewer it is that of the name, however they are mixed. Only a variable that is
declared in an earlier group of a `switch` is not found.
-/

set_option autoImplicit false

namespace MonoTap.Java

open Text (Source)

/-! ### Parentheses -/

namespace Rule

variable {S : Type} {grammar : S → Rule S} {r : Rule S} {op nodes : List Node} {ts : List Token}

/-- Whether a rule is one for something between two tokens. -/
def isParenthesis : Rule S → Bool
  | .seq (.token _) (.seq inner (.token _)) => inner.isSolo
  | _ => false

theorem Derives.core_of_parenthesis (g : IsRegularGrammar grammar) (h : Derives grammar r op ts nodes)
    (shape : r.isParenthesis = true) (proper : ∀ t ∈ ts, t.Proper) (regular : r.isRegular = true)
    (supplied : r.Supplied op) :
    ∃ first inner last, core nodes = [first, inner, last] ∧ first.IsBare ∧ last.IsBare := by
  unfold isParenthesis at shape
  split at shape
  · simp only [isRegular, Bool.and_eq_true] at regular
    obtain ⟨_, regularInner, _⟩ := regular
    obtain ⟨_, _, rfl, ⟨_, hfirst, firstProper⟩, _, rest, properRest⟩ := exists_of_seq h proper
    obtain ⟨_, _, rfl, ⟨_, hinner, innerProper⟩, _, hlast, lastProper⟩ :=
      exists_of_seq rest properRest
    obtain ⟨first, coreFirst, _, bareFirst⟩ := core_token hfirst firstProper
    obtain ⟨last, coreLast, _, bareLast⟩ := core_token hlast lastProper
    have one := (hinner.counts g innerProper regularInner supplied.seq.2.seq.1).one shape
    obtain ⟨inner, coreInner⟩ := List.length_eq_one_iff.1 one
    refine ⟨first, inner, last, ?_, bareFirst, bareLast⟩
    rw [core_append, core_append, coreFirst, coreInner, coreLast]
    rfl
  · cases shape

end Rule

variable {text : List Char} {root n k c e l : Node} {inner outer front later : List Node}

/-- A parenthesis without comments holds one expression. -/
theorem Node.Belongs.namedChildren_of_parenthesis (h : n.Belongs text)
    (is : n.is .parenthesizedExpression = true) (bare : ∀ c ∈ n.children, c.isComment = false)
    (he : e ∈ n.namedChildren) : n.namedChildren = [e] := by
  obtain ⟨r, known, regular, op, ts, nodes, supplied, proper, derives, inside⟩ :=
    h.exists_rule is (mem_children_of_mem_namedChildren he)
  have shape : r.isParenthesis = true := known.all rfl fun s => by cases s <;> rfl
  obtain ⟨first, inner, last, parts, bareFirst, bareLast⟩ :=
    derives.core_of_parenthesis isRegularGrammar_ruleOf shape proper regular supplied
  rw [← core_dropWhile, ← inside] at parts
  have all : n.namedChildren = [first, inner, last].filter isNamed := by
    rw [← parts, h.filter_core]
    refine (List.filter_eq_self.2 fun c hc => ?_).symm
    rw [bare c (mem_children_of_mem_namedChildren hc)]
    rfl
  -- the tokens around it are no named nodes
  have token {m : Node} (hm : m ∈ core n.children) (bare : m.IsBare) : ¬ m.isNamed = true :=
    fun named => (h.child (Java.mem_core.1 hm).1).not_isBare named bare
  have single : [first, inner, last].filter isNamed = [inner].filter isNamed := by
    rw [List.filter_cons_of_neg (token (parts ▸ List.mem_cons_self) bareFirst),
      show [inner, last] = [inner] ++ [last] from rfl, List.filter_append,
      List.filter_cons_of_neg (token (parts ▸ by simp) bareLast), List.filter_nil, List.append_nil]
  rw [all, single] at he ⊢
  obtain ⟨same, named⟩ := List.mem_filter.1 he
  cases List.mem_singleton.1 same
  rw [List.filter_cons_of_pos named, List.filter_nil]

/-! ### Places -/

namespace Cursor.Within

/-- A node around a place is a place. -/
theorem of_around {c : Cursor} (h : Within root c) (around : c.ancestors = inner ++ n :: outer) :
    Within root ⟨n, outer⟩ := by
  induction inner generalizing c with
  | nil =>
    obtain ⟨node, ancestors⟩ := c
    cases around
    exact h.around
  | cons m inner ih =>
    obtain ⟨node, ancestors⟩ := c
    cases around
    exact ih h.around rfl

variable {m : Node} {c : Cursor} (clean : (parse text).hasError = false)
include clean

theorem belongs_child (h : Within (parse text) c) (hm : m ∈ c.node.children) : m.Belongs text := by
  induction h generalizing m with
  | here => exact Node.belongs_of_mem_parse clean hm
  | down _ inside ih => exact (ih inside).child hm

/-- Of the nodes inside a node, each begins before the next one. -/
theorem pairwise_start (h : Within (parse text) c) :
    c.node.namedChildren.Pairwise fun a b => a.start < b.start := by
  have ordered : c.node.children.Pairwise fun a b => a.stop ≤ b.start := by
    cases h with
    | here => exact Callback.placed_pairwise (placed_parse clean)
    | down above inside => exact Callback.placed_pairwise (above.belongs_child clean inside).placed
  refine (ordered.filter _).imp_of_mem fun {a b} ha _ order => ?_
  have wide := (h.belongs_child clean (Node.mem_children_of_mem_namedChildren ha)).spans.wide
  omega

end Cursor.Within

end MonoTap.Java

namespace MonoTap.Receiver

open Java (CompilationUnit Cursor Kind Node parse)
open Text (Source)

/-- What is built around an expression without a change of its type. -/
inductive Wrapper where
  /-- A parenthesis. -/
  | parenthesis
  /-- A call of an operator that keeps the type. -/
  | operator
  /-- A local variable that starts with the expression. -/
  | localVariable
  /-- A local variable of an earlier group of a `switch`. -/
  | groupVariable
  deriving DecidableEq, Repr

variable {source : Source} {x : String} {d : Declaration} {base use c v : Cursor} {t n l : Node}
  {ws : List Wrapper} {w : Wrapper} {outer : List Node}

/-- A fresh variable in scope at a place: a local variable of a statement before the one with the place,
a variable of a loop, or a resource, which no node around the place declares in another way; or a local
variable of a group of a `switch` before the one with the place. -/
inductive VariableAt (source : Source) (x : String) (d : Declaration) (use : Cursor) : Wrapper → Prop
  | statement {inner outer front later : List Node} {n l : Node}
      (around : use.ancestors = inner ++ n :: outer)
      (list : n.isAny [.block, .constructorBody, .switchBlockStatementGroup, .program] = true)
      (statements : n.namedChildren = front ++ l :: later) (before : inner.getLastD use.node ∈ later)
      (is : l.is .localVariableDeclaration = true)
      (declared : (x, d) ∈ variablesOf source ⟨l, n :: outer⟩)
      (alone : Alone source x d use) : VariableAt source x d use .localVariable
  | loop {inner outer : List Node} {n l : Node} (around : use.ancestors = inner ++ n :: outer)
      (loop : n.is .forStatement = true) (init : l ∈ n.childrenOf .init)
      (before : l.stop ≤ use.node.start) (is : l.is .localVariableDeclaration = true)
      (declared : (x, d) ∈ variablesOf source ⟨l, n :: outer⟩)
      (alone : Alone source x d use) : VariableAt source x d use .localVariable
  | resource {inner outer : List Node} {n rs r : Node} (around : use.ancestors = inner ++ n :: outer)
      (tries : n.is .tryWithResourcesStatement = true) (resources : n.child? .resources = some rs)
      (inside : r ∈ rs.namedChildren) (before : r.stop ≤ use.node.start)
      (covered : (inner.getLastD use.node).isAny [.catchClause, .finallyClause] = false)
      (name : nameOf source r = x) (made : d = declarationAt ⟨r, rs :: n :: outer⟩)
      (alone : Alone source x d use) : VariableAt source x d use .localVariable
  | group {inner outer front later : List Node} {n g l : Node}
      (around : use.ancestors = inner ++ n :: outer) (block : n.is .switchBlock = true)
      (groups : n.namedChildren = front ++ g :: later) (before : inner.getLastD use.node ∈ later)
      (group : g.is .switchBlockStatementGroup = true) (statement : l ∈ g.namedChildren)
      (is : l.is .localVariableDeclaration = true)
      (declared : (x, d) ∈ variablesOf source ⟨l, g :: n :: outer⟩)
      (absent : Absent source x use) : VariableAt source x d use .groupVariable

/-- An expression built around a name, and what it is built of, from the outside in: parentheses without
comments, calls of operators that keep the type on what is no name of the type itself, and names of fresh
variables without a type of their own, which start with what comes next. -/
inductive Wrapped (source : Source) (base : Cursor) : List Wrapper → Cursor → Prop
  | base : Wrapped source base [] base
  | parenthesis {ws : List Wrapper} {c : Cursor} {e : Node}
      (is : c.node.is .parenthesizedExpression = true)
      (bare : ∀ m ∈ c.node.children, m.isComment = false) (inside : e ∈ c.node.namedChildren)
      (more : Wrapped source base ws (c.down e)) : Wrapped source base (.parenthesis :: ws) c
  | operator {ws : List Wrapper} {c : Cursor} {object : Node} (is : c.node.is .methodInvocation = true)
      (receiver : c.node.child? .object = some object)
      (keeps : nameOf source c.node ∈ typePreservingOperators)
      (plain : object.text source ∉ [monoSimpleName, monoName])
      (more : Wrapped source base ws (c.down object)) : Wrapped source base (.operator :: ws) c
  | name {ws : List Wrapper} {w : Wrapper} {c v : Cursor} {t : Node} (is : c.node.is .identifier = true)
      (scope : VariableAt source (c.node.text source) ⟨some t, some v⟩ c w)
      (untyped : t.text source = "var") (more : Wrapped source base ws v) :
      Wrapped source base (w :: ws) c

/-! ### Variables -/

theorem namesIn_of_list {ns : List Node}
    (list : n.isAny [.block, .constructorBody, .switchBlockStatementGroup, .program] = true) :
    namesIn source ⟨n, outer⟩ ns = variablesAmong source ⟨n, outer⟩ .localVariableDeclaration ns := by
  obtain ⟨k, hk, is⟩ := List.any_eq_true.1 list
  rw [namesIn, show n.label = .kind k from beq_iff_eq.1 is]
  simp only [List.mem_cons, List.not_mem_nil, or_false] at hk
  rcases hk with rfl | rfl | rfl | rfl <;> rfl

theorem mem_variablesAmong {ns : List Node} {scope : Cursor} {k : Kind} (hl : l ∈ ns)
    (is : l.is k = true) (declared : (x, d) ∈ variablesOf source (scope.down l)) :
    (x, d) ∈ variablesAmong source scope k ns :=
  List.mem_flatMap.2 ⟨l, List.mem_filter.2 ⟨hl, is⟩, declared⟩

/-- A statement of a list is among those before a later one. -/
theorem mem_statementsBefore {k : Node} {front later : List Node}
    (ordered : n.namedChildren.Pairwise fun a b => a.start < b.start)
    (statements : n.namedChildren = front ++ l :: later) (before : k ∈ later) :
    l ∈ statementsBefore k n := by
  rw [statements, List.pairwise_append] at ordered
  obtain ⟨_, others, across⟩ := ordered
  have earlier : ∀ m ∈ front, decide (m.start < k.start) = true := fun m hm =>
    decide_eq_true (across m hm k (List.mem_cons_of_mem l before))
  have own : decide (l.start < k.start) = true :=
    decide_eq_true ((List.pairwise_cons.1 others).1 k before)
  rw [statementsBefore, statements, List.takeWhile_append_of_pos earlier,
    List.takeWhile_cons_of_pos (p := fun m : Node => decide (m.start < k.start)) own]
  exact List.mem_append_right _ List.mem_cons_self

/-- A fresh variable in scope is found where it is declared, but for one of an earlier group. -/
theorem VariableAt.found {text : List Char} (clean : (parse text).hasError = false)
    (within : use.Within (parse text)) (h : VariableAt source x d use .localVariable) :
    declaration? source x use = some d := by
  cases h with
  | statement around list statements before is declared alone =>
    refine declaration?_of_alone alone around ?_
    rw [namesIn_of_list list]
    have ordered := (within.of_around around).pairwise_start clean
    exact mem_variablesAmong (mem_statementsBefore ordered statements before) is declared
  | loop around loop init _ is declared alone =>
    refine declaration?_of_alone alone around ?_
    rw [namesIn, beq_iff_eq.1 loop]
    exact mem_variablesAmong init is declared
  | resource around tries resources inside _ _ name made alone =>
    refine declaration?_of_alone alone around ?_
    rw [namesIn, beq_iff_eq.1 tries]
    dsimp only
    rw [resourcesOf, resources]
    exact List.mem_map.2 ⟨_, inside, by rw [name, made]; rfl⟩

/-! ### Ways to a type -/

section

variable {nameType? : Cursor → Option ResolvedType} {levels : Nat}

theorem typeWithin?_name (is : c.node.is .identifier = true) :
    typeWithin? source nameType? (levels + 1) c =
      (declaration? source (c.node.text source) c).bind
        (·.type? source (typeWithin? source nameType? levels)) := by
  rw [typeWithin?, beq_iff_eq.1 is]

theorem typeWithin?_parenthesis {e : Node} (is : c.node.is .parenthesizedExpression = true)
    (single : c.node.namedChildren = [e]) :
    typeWithin? source nameType? (levels + 1) c = typeWithin? source nameType? levels (c.down e) := by
  rw [typeWithin?, beq_iff_eq.1 is]
  dsimp only
  rw [single]
  rfl

theorem typeWithin?_operator {object : Node} (is : c.node.is .methodInvocation = true)
    (receiver : c.node.child? .object = some object)
    (keeps : nameOf source c.node ∈ typePreservingOperators)
    (plain : object.text source ∉ [monoSimpleName, monoName]) :
    typeWithin? source nameType? (levels + 1) c =
      typeWithin? source nameType? levels (c.down object) := by
  rw [typeWithin?, beq_iff_eq.1 is]
  dsimp only
  rw [receiver]
  dsimp only
  rw [if_neg, if_pos]
  · exact List.contains_iff_mem.2 keeps
  · simpa using plain

/-- A way of one step more is allowed if there is one level more. -/
theorem allowed_cons (other : w ≠ .groupVariable) :
    ((w :: ws).length < levels + 1 ∧ .groupVariable ∉ w :: ws) ↔
      ws.length < levels ∧ .groupVariable ∉ ws := by
  rw [List.length_cons, Nat.add_lt_add_iff_right, List.mem_cons, not_or]
  exact and_congr_right fun _ => and_iff_right other.symm

/-- The type of what is built around a name is that of the name, if the way to it is no longer than
allowed. -/
theorem Wrapped.typeWithin? {text : String}
    (clean : (CompilationUnit.ofString text).hasSyntaxErrors = false) (h : Wrapped source base ws c)
    (within : c.Within (parse text.toList))
    (name : base.node.is .identifier = true)
    (found : declaration? source (base.node.text source) base = some d) (typed : d.type = some t)
    (explicit : t.text source ≠ "var") :
    Receiver.typeWithin? source nameType? levels c =
      if ws.length < levels ∧ .groupVariable ∉ ws then typeOfNode? source t else none := by
  induction h generalizing levels with
  | base =>
    cases levels with
    | zero => rfl
    | succ levels =>
      rw [typeWithin?_name name, found, Option.bind_some, Declaration.type?, typed]
      dsimp only
      rw [if_neg (by simpa using explicit), if_pos ⟨Nat.succ_pos levels, List.not_mem_nil⟩]
  | @parenthesis ws c e is bare inside _ ih =>
    cases levels with
    | zero => rfl
    | succ levels =>
      have below := Node.mem_children_of_mem_namedChildren inside
      have single : c.node.namedChildren = [e] := by
        cases within with
        | here =>
          rw [Callback.is_ne (Java.is_program_parse clean) (by decide)] at is
          cases is
        | down above own =>
          exact (above.belongs_child clean own).namedChildren_of_parenthesis is bare inside
      rw [typeWithin?_parenthesis is single, ih (.down within below),
        if_congr (allowed_cons (by decide)) rfl rfl]
  | operator is receiver keeps plain _ ih =>
    cases levels with
    | zero => rfl
    | succ levels =>
      rw [typeWithin?_operator is receiver keeps plain,
        ih (.down within (Node.mem_children_of_child? receiver)),
        if_congr (allowed_cons (by decide)) rfl rfl]
  | @name ws w c v u is scope untyped _ ih =>
    cases levels with
    | zero => rfl
    | succ levels =>
      rw [typeWithin?_name is]
      cases w with
      | localVariable =>
        have own := scope.found clean within
        have value := (within_declarationAround? within own).value v rfl
        rw [own, Option.bind_some, Declaration.type?]
        dsimp only
        rw [if_pos (beq_iff_eq.2 untyped), Option.bind_some, ih value,
          if_congr (allowed_cons (by decide)) rfl rfl]
      | groupVariable =>
        cases scope with
        | group _ _ _ _ _ _ _ _ absent =>
          rw [declaration?_of_absent absent, if_neg fun allowed => allowed.2 List.mem_cons_self]
          rfl
      | parenthesis => cases scope
      | operator => cases scope

end

/-- What is built around a name with a declared type, in any number of steps, each a parenthesis, an operator
that keeps the type or a fresh variable in scope without a type of its own, has the type of the name, if
there are no more steps than 32, and no type otherwise. With any other number of levels the type is lost
at that number of steps or is the same. A variable that is declared in an earlier group of a `switch` is
not found, although it is in scope, and so what is built with it has no type. -/
theorem wrapped_receiver_typed (text : String) :
    let u := CompilationUnit.ofString text
    u.hasSyntaxErrors = false → ∀ base d t, base.node.is .identifier = true →
      declaration? u.source (base.node.text u.source) base = some d → d.type = some t →
      t.text u.source ≠ "var" → ∀ ws c, c.Within u.root → Wrapped u.source base ws c →
        type? u.source c =
            (if ws.length ≤ 32 ∧ .groupVariable ∉ ws then typeOfNode? u.source t else none) ∧
          ∀ nameType? levels, typeWithin? u.source nameType? levels c =
            if ws.length < levels ∧ .groupVariable ∉ ws then typeOfNode? u.source t else none := by
  intro u clean base d t name found typed explicit ws c within wrapped
  have allLevels (nameType? : Cursor → Option ResolvedType) (levels : Nat) :
      typeWithin? u.source nameType? levels c =
        if ws.length < levels ∧ .groupVariable ∉ ws then typeOfNode? u.source t else none :=
    wrapped.typeWithin? clean within name found typed explicit
  refine ⟨?_, allLevels⟩
  have cap : (ws.length ≤ 32 ∧ .groupVariable ∉ ws) ↔ (ws.length < levels ∧ .groupVariable ∉ ws) :=
    and_congr_left' Nat.lt_succ_iff.symm
  rw [type?, if_congr cap rfl rfl]
  cases u.source.size with
  | zero => exact allLevels _ _
  | succ hops => exact allLevels _ _

/-! ### A chain of variables -/

instance : DecidableEq Cursor := fun a b =>
  decidable_of_iff (a.node = b.node ∧ a.ancestors = b.ancestors) (by cases a; cases b; simp)

instance : DecidableEq Declaration := fun a b =>
  decidable_of_iff (a.type = b.type ∧ a.value = b.value) (by cases a; cases b; simp)

instance (source : Source) (x : String) (d : Declaration) (place : Cursor) :
    Decidable (Alone source x d place) :=
  decidable_of_iff (∀ l ∈ place.ancestors.tails, ∀ n ∈ l.head?.toList,
      ∀ e ∈ namesIn source ⟨n, l.tail⟩ n.namedChildren, e.1 = x → e.2 = d) <| by
    constructor
    · intro all n outer suffix
      exact all (n :: outer) ((List.mem_tails _ _).2 suffix) n (by simp)
    · intro alone l hl n hn
      cases l with
      | nil => cases hn
      | cons m outer =>
        cases List.mem_singleton.1 hn
        exact alone n outer ((List.mem_tails _ _).1 hl)

/-- The cursor at a named node inside, by the positions on the way to it. -/
def descend (c : Cursor) (positions : List Nat) : Cursor :=
  positions.foldl (fun c i => c.down (c.node.namedChildren.getD i default)) c

theorem down_descend {i : Nat} (h : Wrapped source base ws (descend c [i])) :
    Wrapped source base ws (c.down (descend c [i]).node) := h

/-- Whether a block begins with a variable that starts with a call on some name in parentheses, and a
statement whose resource starts with a call on this variable and stands at the beginning of its body. -/
def Chained (source : Source) (block : Cursor) : Prop :=
  let x := descend block [0]
  let value := descend x [1, 1]
  let call := descend value [0]
  let tries := descend block [1]
  let spec := descend tries [0]
  let y := descend spec [0]
  let callX := descend y [2]
  let placeX := descend callX [0]
  let placeY := descend tries [1, 0, 0, 0]
  (value.node.is .parenthesizedExpression = true ∧ (∀ c ∈ value.node.children, c.isComment = false) ∧
    call.node ∈ value.node.namedChildren) ∧
  (call.node.is .methodInvocation = true ∧ call.node.child? .object = some (descend call [0]).node ∧
    nameOf source call.node ∈ typePreservingOperators ∧
    (descend call [0]).node.text source ∉ [monoSimpleName, monoName]) ∧
  (callX.node.is .methodInvocation = true ∧ callX.node.child? .object = some placeX.node ∧
    nameOf source callX.node ∈ typePreservingOperators ∧
    placeX.node.text source ∉ [monoSimpleName, monoName]) ∧
  (placeX.node.is .identifier = true ∧ block.node.is .block = true ∧
    block.node.namedChildren = [] ++ x.node :: [tries.node] ∧
    x.node.is .localVariableDeclaration = true ∧
    (placeX.node.text source, (⟨some (descend x [0]).node, some value⟩ : Declaration)) ∈
      variablesOf source x ∧
    Alone source (placeX.node.text source) ⟨some (descend x [0]).node, some value⟩ placeX ∧
    (descend x [0]).node.text source = "var") ∧
  (placeY.node.is .identifier = true ∧ tries.node.is .tryWithResourcesStatement = true ∧
    tries.node.child? .resources = some spec.node ∧ y.node ∈ spec.node.namedChildren ∧
    y.node.stop ≤ placeY.node.start ∧
    (descend tries [1]).node.isAny [.catchClause, .finallyClause] = false ∧
    nameOf source y.node = placeY.node.text source ∧
    (⟨some (descend y [0]).node, some callX⟩ : Declaration) = declarationAt y ∧
    Alone source (placeY.node.text source) ⟨some (descend y [0]).node, some callX⟩ placeY ∧
    (descend y [0]).node.text source = "var")

instance (source : Source) (block : Cursor) : Decidable (Chained source block) := by
  unfold Chained
  infer_instance

theorem Chained.wrapped {block : Cursor} (h : Chained source block) :
    let value := descend (descend block [0]) [1, 1]
    Wrapped source (descend (descend value [0]) [0])
      [.localVariable, .operator, .localVariable, .parenthesis, .operator]
      (descend (descend block [1]) [1, 0, 0, 0]) := by
  obtain ⟨⟨isValue, bare, inParentheses⟩, ⟨isCall, object, keeps, plain⟩,
    ⟨isCallX, objectX, keepsX, plainX⟩,
    ⟨nameX, isBlock, statements, isX, declaredX, aloneX, untypedX⟩,
    ⟨nameY, isTry, resources, isResource, before, covered, namedY, made, aloneY, untypedY⟩⟩ := h
  let tries := descend block [1]
  let spec := descend tries [0]
  let y := descend spec [0]
  let callX := descend y [2]
  have aroundX : (descend callX [0]).ancestors =
      [callX.node, y.node, spec.node, tries.node] ++ block.node :: block.ancestors := rfl
  have aroundY : (descend tries [1, 0, 0, 0]).ancestors =
      [(descend tries [1, 0, 0]).node, (descend tries [1, 0]).node, (descend tries [1]).node] ++
        tries.node :: tries.ancestors := rfl
  have list : block.node.isAny [.block, .constructorBody, .switchBlockStatementGroup, .program] = true :=
    List.any_eq_true.2 ⟨.block, List.mem_cons_self, isBlock⟩
  have scopeX := VariableAt.statement aroundX list statements (List.mem_singleton_self _) isX declaredX
    aloneX
  have scopeY := VariableAt.resource aroundY isTry resources isResource before covered namedY made aloneY
  have inCall := Wrapped.operator isCall object keeps plain (down_descend .base)
  have inValue := Wrapped.parenthesis isValue bare inParentheses (down_descend inCall)
  have inX := Wrapped.name nameX scopeX untypedX inValue
  have inCallX := Wrapped.operator isCallX objectX keepsX plainX (down_descend inX)
  exact .name nameY scopeY untypedY inCallX

/-- A variable that starts with a call in parentheses, and a resource that starts with a call on it. -/
def chainedText : String :=
  "class C\x7bvoid f(A m)\x7bvar x=(m.log());try(var y=x.log())\x7by.h();\x7d\x7d\x7d"

set_option maxRecDepth 100000 in
theorem read_chainedText :
    let u := CompilationUnit.ofString chainedText
    let method := descend ⟨u.root, []⟩ [0, 1, 0]
    let block := descend method [3]
    let base := descend (descend (descend (descend block [0]) [1, 1]) [0]) [0]
    let type := (descend method [2, 0, 0]).node
    u.hasSyntaxErrors = false ∧ Chained u.source block ∧
      descend (descend block [1]) [1, 0, 0, 0] ∈ u.root.cursors [] ∧ base.node.is .identifier = true ∧
      declaration? u.source (base.node.text u.source) base = some ⟨some type, none⟩ ∧
      type.is .typeIdentifier = true ∧ type.text u.source = "A" := by
  rw [CompilationUnit.ofString_eq_ofCharsOf]
  decide +kernel

/-- The resource has the type of the parameter, which is five steps away. -/
theorem wrapped_receiver_typed_of_chained :
    let u := CompilationUnit.ofString chainedText
    u.hasSyntaxErrors = false ∧ ∃ base d t c, base.node.is .identifier = true ∧
      declaration? u.source (base.node.text u.source) base = some d ∧ d.type = some t ∧
      t.text u.source ≠ "var" ∧ c.Within u.root ∧
      Wrapped u.source base [.localVariable, .operator, .localVariable, .parenthesis, .operator] c ∧
      type? u.source c = some ⟨"A", []⟩ := by
  intro u
  obtain ⟨clean, chained, inside, name, found, typeName, typeText⟩ := read_chainedText
  have within := Cursor.Within.of_mem_cursors u.root .here inside
  have explicit := typeText ▸ (by decide : "A" ≠ "var")
  have wrapped := chained.wrapped
  obtain ⟨typed, _⟩ := wrapped_receiver_typed chainedText clean _ _ _ name found rfl explicit _ _ within
    wrapped
  refine ⟨clean, _, _, _, _, name, found, rfl, explicit, within, wrapped, typed.trans ?_⟩
  have simple := Callback.is_ne typeName (show Kind.typeIdentifier ≠ .annotatedType by decide)
  rw [if_pos (by decide), typeOfNode?, simple, if_neg (by decide), isTypeName, Node.isAny,
    List.any_cons, typeName, typeText]
  rfl

end MonoTap.Receiver
