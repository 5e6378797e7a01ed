import Mathlib.Data.List.Forall2
import MonoTap.Proofs.GuardTests

/-!
# Respelled tests

The tests against `null` in the conditions of a callback can be spelled in other ways: with more
parentheses and comments, or with the operands the other way round. A walk over the callback meets the
same names in the same order.
-/

set_option autoImplicit false

namespace MonoTap.Callback

open Java (Node Kind Role)
open Text (Source)

/-! ### Spellings -/

/-- For each comment among some nodes, whether it begins on the row where the statement before it
ends, which is `row`. -/
def besideRows (source : Source) (row : Option Nat) : List Node → List Bool
  | [] => []
  | c :: cs =>
    if c.isComment then (row == some (source.row c.start)) :: besideRows source row cs
    else besideRows source (some (source.row c.stop)) cs

/-- The name that a condition compares with `null`, and how. -/
def conditionTest? (source : Source) (n : Node) : Option (String × NullCheck) := do
  guard (n.role == some .condition)
  let (operand, check) ← nullTest? n
  guard (operand.is .identifier)
  return (operand.text source, check)

/-- Whether a node is a word, which is known by its text. -/
def isWord (n : Node) : Bool :=
  n.is .identifier || n.role == some .name || n.children.isEmpty

/-- Whether two nodes of two texts are equal in themselves: what they are, their words, and on which
rows the comments in them stand. -/
def alike (s t : Source) (a b : Node) : Bool :=
  (!isWord a || a.text s == b.text t) &&
    besideRows s none a.namedChildren == besideRows t none b.namedChildren

mutual

/-- Whether two nodes of two texts are the same but for how the tests of names against `null` in
their conditions are spelled. -/
def respells (s t : Source) : Node → Node → Bool
  | .mk label role start stop children, b =>
    let a := Node.mk label role start stop children
    label == b.label && role == b.role && conditionTest? s a == conditionTest? t b &&
      ((conditionTest? s a).isSome || alike s t a b && respellsAll s t children b.children)

/-- Whether the nodes of two lists are the same in that sense. -/
def respellsAll (s t : Source) : List Node → List Node → Bool
  | [], [] => true
  | a :: as, b :: bs => respells s t a b && respellsAll s t as bs
  | _, _ => false

end

variable {s t : Source} {a b n m : Node} {text text' : List Char} {as bs : List Node}

/-- Two nodes of two texts are the same but for the spelling of tests. -/
def Respelled (s t : Source) (a b : Node) : Prop :=
  respells s t a b = true

/-- Two nodes that are no such tests and are equal in themselves, with respelled nodes inside. -/
structure Kept (s t : Source) (a b : Node) : Prop where
  noTest : conditionTest? s a = none ∧ conditionTest? t b = none
  word : isWord a = true → a.text s = b.text t
  rows : besideRows s none a.namedChildren = besideRows t none b.namedChildren
  inside : List.Forall₂ (Respelled s t) a.children b.children

theorem respellsAll_iff : respellsAll s t as bs = true ↔ List.Forall₂ (Respelled s t) as bs := by
  induction as generalizing bs with
  | nil => cases bs <;> simp [respellsAll]
  | cons a as ih => cases bs <;> simp [respellsAll, ih, Respelled]

theorem respells_eq (a b : Node) : respells s t a b =
    (a.label == b.label && a.role == b.role && conditionTest? s a == conditionTest? t b &&
      ((conditionTest? s a).isSome || alike s t a b && respellsAll s t a.children b.children)) := by
  cases a
  rw [respells]
  rfl

/-- A condition that tests a name is in parentheses or a comparison. -/
theorem exists_of_conditionTest? {test : String × NullCheck} (h : conditionTest? s n = some test) :
    n.role = some .condition ∧ ∃ operand, nullTest? n = some (operand, test.2) ∧
      operand.is .identifier = true ∧ operand.text s = test.1 := by
  obtain ⟨_, role, h⟩ := Option.bind_eq_some_iff.1 h
  obtain ⟨⟨operand, check⟩, found, h⟩ := Option.bind_eq_some_iff.1 h
  obtain ⟨_, name, h⟩ := Option.bind_eq_some_iff.1 h
  cases h
  exact ⟨eq_of_beq (of_guard role), operand, found, of_guard name, rfl⟩

theorem conditionTest?_eq_none {k : Kind} (is : n.is k = true)
    (other : k ∉ [Kind.parenthesizedExpression, .binaryExpression]) : conditionTest? s n = none := by
  cases test : conditionTest? s n with
  | none => rfl
  | some found =>
    obtain ⟨_, operand, nullTest, _⟩ := exists_of_conditionTest? test
    obtain ⟨e, _, _, _, _, _, he, binary, _⟩ := exists_of_nullTest nullTest
    have label : n.label = .kind k := eq_of_beq is
    cases unwrapped_eq_some_iff.1 he with
    | bare =>
      have same := eq_of_beq binary
      rw [label, Java.Label.kind.injEq] at same
      simp [same] at other
    | parenthesized parens =>
      have same := eq_of_beq parens
      rw [label, Java.Label.kind.injEq] at same
      simp [same] at other

namespace Respelled

theorem label (h : Respelled s t a b) : a.label = b.label := by
  simp only [Respelled, respells_eq, Bool.and_eq_true, beq_iff_eq] at h
  exact h.1.1.1

theorem role (h : Respelled s t a b) : a.role = b.role := by
  simp only [Respelled, respells_eq, Bool.and_eq_true, beq_iff_eq] at h
  exact h.1.1.2

/-- Respelled nodes are the same test, or no tests and equal in themselves. -/
theorem cases (h : Respelled s t a b) :
    (∃ test, conditionTest? s a = some test ∧ conditionTest? t b = some test) ∨ Kept s t a b := by
  simp only [Respelled, respells_eq, Bool.and_eq_true, Bool.or_eq_true, respellsAll_iff,
    beq_iff_eq] at h
  obtain ⟨⟨_, test⟩, rest⟩ := h
  cases found : conditionTest? s a with
  | some known => exact Or.inl ⟨known, rfl, test ▸ found⟩
  | none =>
    simp only [found, Option.isSome_none, Bool.false_eq_true, false_or, alike, Bool.and_eq_true,
      Bool.or_eq_true, Bool.not_eq_true', beq_iff_eq] at rest
    obtain ⟨⟨words, rows⟩, inside⟩ := rest
    refine Or.inr ⟨⟨found, test ▸ found⟩, ?_, rows, inside⟩
    intro word
    rcases words with other | text
    · rw [word] at other
      cases other
    · exact text

theorem is (h : Respelled s t a b) (k : Kind) : a.is k = b.is k := by
  rw [Node.is, Node.is, h.label]

theorem isComment (h : Respelled s t a b) : a.isComment = b.isComment := by
  rw [Node.isComment, Node.isComment, h.label]

theorem isNamed (h : Respelled s t a b) : a.isNamed = b.isNamed := by
  rw [Node.isNamed, Node.isNamed, h.label]

theorem kept_of_is {k : Kind} (h : Respelled s t a b) (is : a.is k = true)
    (other : k ∉ [Kind.parenthesizedExpression, .binaryExpression]) : Kept s t a b := by
  rcases h.cases with ⟨test, found, _⟩ | kept
  · rw [conditionTest?_eq_none is other] at found
    cases found
  · exact kept

theorem kept_of_role {part : Role} (h : Respelled s t a b) (role : a.role = some part)
    (other : part ≠ .condition) : Kept s t a b := by
  rcases h.cases with ⟨test, found, _⟩ | kept
  · have condition := (exists_of_conditionTest? found).1
    rw [role, Option.some.injEq] at condition
    exact (other condition).elim
  · exact kept

end Respelled

/-! ### Nodes inside -/

/-- Related lists have related members where both satisfy a test. -/
theorem forall₂_filter {α β : Type} {R : α → β → Prop} {l : List α} {m : List β} {p : α → Bool}
    {q : β → Bool} (h : List.Forall₂ R l m) (agree : ∀ a b, R a b → p a = q b) :
    List.Forall₂ (fun a b => p a = true ∧ R a b) (l.filter p) (m.filter q) := by
  rw [List.forall₂_and_left]
  constructor
  · intro a ha
    exact (List.mem_filter.1 ha).2
  · apply List.rel_filter _ h
    intro a b hab
    dsimp only
    rw [agree a b hab]

/-- What is found in related lists is related, and satisfies the test. -/
theorem rel_find? {α β : Type} {R S : α → β → Prop} {l : List α} {m : List β} {p : α → Bool}
    {q : β → Bool} (h : List.Forall₂ R l m) (agree : ∀ a b, R a b → p a = q b)
    (both : ∀ a b, p a = true → R a b → S a b) : Option.Rel S (l.find? p) (m.find? q) := by
  have filtered := forall₂_filter h agree
  rw [← List.head?_filter, ← List.head?_filter]
  generalize l.filter p = found at filtered
  generalize m.filter q = found' at filtered
  cases filtered with
  | nil => exact .none
  | cons first _ => exact .some (both _ _ first.1 first.2)

namespace Kept

theorem namedChildren (h : Kept s t a b) :
    List.Forall₂ (Respelled s t) a.namedChildren b.namedChildren :=
  (forall₂_filter h.inside fun _ _ same => same.isNamed).imp fun _ _ both => both.2

theorem childrenOf (h : Kept s t a b) (part : Role) :
    List.Forall₂ (fun c d => c.role = some part ∧ Respelled s t c d) (a.childrenOf part)
      (b.childrenOf part) := by
  apply (forall₂_filter h.inside _).imp
  · intro c d both
    exact ⟨eq_of_beq both.1, both.2⟩
  · intro c d same
    rw [same.role]

theorem child? (h : Kept s t a b) (part : Role) :
    Option.Rel (fun c d => c.role = some part ∧ Respelled s t c d) (a.child? part)
      (b.child? part) := by
  apply rel_find? h.inside
  · intro c d same
    rw [same.role]
  · intro c d role same
    exact ⟨eq_of_beq role, same⟩

theorem ofKind? (h : Kept s t a b) (k : Kind) :
    Option.Rel (fun c d => c.is k = true ∧ Respelled s t c d) (a.ofKind? k) (b.ofKind? k) :=
  rel_find? h.namedChildren (fun _ _ same => same.is k) fun _ _ is same => ⟨is, same⟩

end Kept

/-! ### Steps of a walk -/

/-- Two events of the same sort, with the same name. The offsets of mentions are related. -/
inductive ScopeEvent.Same (P : Nat → Nat → Prop) : ScopeEvent → ScopeEvent → Prop
  | enter : Same P .enter .enter
  | leave : Same P .leave .leave
  | declare (name : String) (type type' : Option String) (offset offset' : Nat) :
      Same P (.declare name type offset) (.declare name type' offset')
  | mention (name : String) {offset offset' : Nat} (paired : P offset offset') :
      Same P (.mention name offset) (.mention name offset')

/-- Two steps that are the same, or go to respelled nodes. -/
inductive Step.Same (s t : Source) : Step → Step → Prop
  | event {e f : ScopeEvent} (same : e.Same (fun _ _ => True) f) : Same s t (.event e) (.event f)
  | visit {a b : Node} (same : Respelled s t a b) : Same s t (.visit a) (.visit b)

/-- Steps that are the same one by one. -/
def SameSteps (s t : Source) : List Step → List Step → Prop :=
  List.Forall₂ (Step.Same s t)

namespace SameSteps

variable {l l' k k' : List Step}

theorem append (h : SameSteps s t l l') (more : SameSteps s t k k') :
    SameSteps s t (l ++ k) (l' ++ k') :=
  List.rel_append h more

theorem inScope (h : SameSteps s t l l') :
    SameSteps s t (Callback.inScope l) (Callback.inScope l') :=
  .cons (.event .enter) (List.rel_append h (.cons (.event .leave) .nil))

theorem visits (h : List.Forall₂ (Respelled s t) as bs) :
    SameSteps s t (Callback.visits as) (Callback.visits bs) := by
  rw [SameSteps, Callback.visits, Callback.visits, List.forall₂_map_left_iff,
    List.forall₂_map_right_iff]
  exact h.imp fun _ _ same => .visit same

theorem flatMap {α β : Type} {R : α → β → Prop} {xs : List α} {ys : List β} {f : α → List Step}
    {g : β → List Step} (h : List.Forall₂ R xs ys) (each : ∀ x y, R x y → SameSteps s t (f x) (g y)) :
    SameSteps s t (xs.flatMap f) (ys.flatMap g) :=
  List.rel_flatMap h fun x y => each x y

theorem childrenOf (h : Kept s t a b) (part : Role) :
    SameSteps s t (Callback.visits (a.childrenOf part)) (Callback.visits (b.childrenOf part)) :=
  visits ((h.childrenOf part).imp fun _ _ both => both.2)

theorem visitParts (h : Kept s t a b) (parts : List Role) :
    SameSteps s t (Callback.visitParts a parts) (Callback.visitParts b parts) :=
  flatMap (List.forall₂_same.2 fun _ _ => rfl) fun part part' (same : part = part') =>
    same ▸ childrenOf h part

/-- A name is declared in the same way, whatever the type is. -/
theorem declareName {name name' : Option Node} (type type' : Option Node)
    (h : Option.Rel (fun c d => c.text s = d.text t) name name') :
    SameSteps s t (Callback.declareName s name type) (Callback.declareName t name' type') := by
  cases h with
  | none => exact .nil
  | some same =>
    rw [Callback.declareName, Callback.declareName, same]
    exact .cons (.event (.declare ..)) .nil

end SameSteps

theorem Respelled.text_of_identifier (h : Respelled s t a b) (is : a.is .identifier = true) :
    a.text s = b.text t := by
  apply (h.kept_of_is is (by decide)).word
  rw [isWord, is]
  rfl

theorem Kept.name (h : Kept s t a b) :
    Option.Rel (fun c d => c.text s = d.text t) (a.child? .name) (b.child? .name) := by
  generalize named : a.child? .name = name
  generalize named' : b.child? .name = name'
  have found := h.child? .name
  rw [named, named'] at found
  cases found with
  | none => exact .none
  | some both =>
    apply Option.Rel.some
    apply (both.2.kept_of_role both.1 (by decide)).word
    simp [isWord, both.1]

theorem SameSteps.declareParameter (h : Respelled s t a b) :
    SameSteps s t (Callback.declareParameter s a) (Callback.declareParameter t b) := by
  rw [Callback.declareParameter, Callback.declareParameter, ← h.is, ← h.is]
  split
  · rename_i is
    exact declareName _ _ (h.kept_of_is is (by decide)).name
  · split
    · rename_i is
      apply declareName
      have found := (h.kept_of_is is (by decide)).ofKind? .variableDeclarator
      generalize a.ofKind? .variableDeclarator = declarator at found
      generalize b.ofKind? .variableDeclarator = declarator' at found
      cases found with
      | none => exact .none
      | some both => exact (both.2.kept_of_is both.1 (by decide)).name
    · exact .nil

theorem SameSteps.declareParameters (h : List.Forall₂ (Respelled s t) as bs) :
    SameSteps s t (as.flatMap (Callback.declareParameter s))
      (bs.flatMap (Callback.declareParameter t)) :=
  flatMap h fun _ _ => declareParameter

theorem SameSteps.declareLambdaParameters (h : Kept s t a b) :
    SameSteps s t (Callback.declareLambdaParameters s a) (Callback.declareLambdaParameters t b) := by
  rw [Callback.declareLambdaParameters, Callback.declareLambdaParameters]
  have found := h.child? .parameters
  generalize a.child? .parameters = ps at found
  generalize b.child? .parameters = ps' at found
  cases found with
  | none => exact .nil
  | @some ps ps' both =>
    have kept := both.2.kept_of_role both.1 (by decide)
    dsimp only
    rw [← both.2.is, ← both.2.is]
    split
    · rename_i is
      exact declareName _ _ (.some (both.2.text_of_identifier is))
    · split
      · apply flatMap (forall₂_filter kept.namedChildren fun _ _ same => same.is _)
        intro p p' single
        exact declareName _ _ (.some (single.2.text_of_identifier single.1))
      · exact declareParameters kept.namedChildren

theorem SameSteps.declareFields (h : Kept s t a b) :
    SameSteps s t (Callback.declareFields s a) (Callback.declareFields t b) := by
  apply flatMap (forall₂_filter h.namedChildren fun _ _ same => same.is _)
  intro field field' both
  have own := both.2.kept_of_is both.1 (by decide)
  apply flatMap (own.childrenOf .declarator)
  intro d d' declarator
  exact declareName _ _ (declarator.2.kept_of_role declarator.1 (by decide)).name

/-- The walks over two nodes that are equal in themselves take the same steps. -/
theorem sameSteps_steps (label : a.label = b.label) (h : Kept s t a b) :
    SameSteps s t (steps s a) (steps t b) := by
  have children : SameSteps s t (visits a.namedChildren) (visits b.namedChildren) :=
    .visits h.namedChildren
  have parts := fun parts => SameSteps.visitParts h parts
  have declarators {f g : Node → List Step} (each : ∀ d e, Kept s t d e → SameSteps s t (f d) (g e)) :
      SameSteps s t ((a.childrenOf .declarator).flatMap f) ((b.childrenOf .declarator).flatMap g) :=
    .flatMap (h.childrenOf .declarator) fun d e both =>
      each d e (both.2.kept_of_role both.1 (by decide))
  have parameters : SameSteps s t
      ((((a.child? .parameters).map Node.namedChildren).getD []).flatMap (declareParameter s))
      ((((b.child? .parameters).map Node.namedChildren).getD []).flatMap (declareParameter t)) := by
    have found := h.child? .parameters
    generalize a.child? .parameters = ps at found
    generalize b.child? .parameters = ps' at found
    cases found with
    | none => exact .nil
    | some both =>
      exact .declareParameters (both.2.kept_of_role both.1 (by decide)).namedChildren
  have body : SameSteps s t (visits (a.child? .body).toList) (visits (b.child? .body).toList) := by
    have found := h.child? .body
    generalize a.child? .body = inner at found
    generalize b.child? .body = inner' at found
    cases found with
    | none => exact .nil
    | some both => exact .visits (.cons both.2 .nil)
  unfold steps
  rw [← label]
  split
  · exact .nil
  · rename_i k is
    split
    · have word : isWord a = true := by rw [isWord, Node.is, is]; rfl
      rw [h.word word]
      exact .cons (.event (.mention _ trivial)) .nil
    · exact parts _
    · exact parts _
    -- methodReference
    · exact .visits (List.forall₂_take 1 h.namedChildren)
    -- labeledStatement
    · apply SameSteps.visits
      apply (forall₂_filter h.namedChildren fun c d same => by rw [same.is]).imp
      exact fun _ _ both => both.2
    iterate 4 · exact .nil
    iterate 3 · exact parts _
    -- localVariableDeclaration
    · apply declarators
      intro d e kept
      exact (SameSteps.declareName _ _ kept.name).append (.childrenOf kept .value)
    -- fieldDeclaration
    · apply declarators
      intro d e kept
      exact .childrenOf kept .value
    -- classBody
    · exact ((SameSteps.declareFields h).append children).inScope
    -- methodDeclaration and constructorDeclaration
    · exact (parameters.append (parts _)).inScope
    · exact (parameters.append (parts _)).inScope
    -- lambdaExpression
    · exact ((SameSteps.declareLambdaParameters h).append (parts _)).inScope
    -- enhancedForStatement
    · exact (((parts _).append (.declareName _ _ h.name)).append (parts _)).inScope
    iterate 7 · exact children.inScope
    -- catchFormalParameter
    · exact .declareName _ _ h.name
    -- resource
    · have named := h.name
      generalize a.child? .name = name at named
      generalize b.child? .name = name' at named
      cases named with
      | none => exact children
      | some same => exact (parts _).append (.declareName _ _ (.some same))
    -- instanceofExpression
    · exact (parts _).append (.declareName _ _ h.name)
    -- recordPatternComponent
    · apply SameSteps.flatMap h.namedChildren
      intro c d same
      rw [← same.is]
      split
      · rename_i name
        exact .declareName _ _ (.some (same.text_of_identifier name))
      · exact .visits (.cons same .nil)
    iterate 5 · exact body
    · exact children

/-! ### Walks over tests -/

variable {c e operand left right : Node} {check : NullCheck}

theorem scopeEvents_of_isComment (h : n.Belongs text) (comment : n.isComment = true) :
    scopeEvents s n = [] := by
  have none : n.namedChildren = [] := by rw [Node.namedChildren, h.comment_leaf comment]; rfl
  rw [Node.isComment] at comment
  rw [scopeEvents_eq, steps]
  split
  · rfl
  · rename_i k label
    rw [label] at comment
    cases k <;> cases comment
    all_goals
      show eventsOf s (visits n.namedChildren) = []
      rw [none]
      rfl

/-- A walk over an expression whose parts are all visited leaves comments out. -/
theorem scopeEvents_of_children (h : n.Belongs text)
    (is : n.is .parenthesizedExpression = true ∨ n.is .binaryExpression = true ∨
      n.is .nullLiteral = true) :
    scopeEvents s n = (uncommented n).flatMap (scopeEvents s) := by
  have visits : steps s n = visits n.namedChildren := by
    rcases is with is | is | is <;>
    · have label := eq_of_beq is
      rw [steps, label]
  rw [scopeEvents_eq, visits, eventsOf_visits, uncommented]
  have belongs : ∀ c ∈ n.namedChildren, c.Belongs text := fun c hc =>
    h.child (Node.mem_children_of_mem_namedChildren hc)
  generalize n.namedChildren = cs at belongs ⊢
  induction cs with
  | nil => rfl
  | cons c cs ih =>
    have rest := ih fun d hd => belongs d (List.mem_cons_of_mem _ hd)
    rw [List.flatMap_cons, List.filter_cons, rest]
    cases comment : c.isComment with
    | true =>
      rw [scopeEvents_of_isComment (belongs c List.mem_cons_self) comment]
      rfl
    | false => rfl

/-- Parentheses around an expression change nothing in a walk. -/
theorem scopeEvents_of_unwraps (h : n.Belongs text) (unwraps : Unwraps n e) :
    scopeEvents s n = scopeEvents s e ∧ e.Belongs text := by
  induction unwraps with
  | bare => exact ⟨rfl, h⟩
  | @parenthesized n c e is only inside ih =>
    have mem : c ∈ uncommented n := only ▸ List.mem_singleton_self c
    obtain ⟨same, belongs⟩ := ih (h.child (mem_children_of_mem_uncommented mem))
    refine ⟨?_, belongs⟩
    rw [scopeEvents_of_children h (Or.inl is), only, List.flatMap_cons, List.flatMap_nil,
      List.append_nil, same]

theorem Unwraps.isNamed (h : Unwraps n e) (named : e.isNamed = true) : n.isNamed = true := by
  cases h with
  | bare => exact named
  | parenthesized is =>
    rw [Node.isNamed, eq_of_beq is]

/-- A walk over a comparison goes over its operands. -/
theorem scopeEvents_of_comparison (h : n.Belongs text) (compared : Comparison n left check right)
    (namedLeft : left.isNamed = true) (namedRight : right.isNamed = true) :
    scopeEvents s n = scopeEvents s left ++ scopeEvents s right ∧ left.Belongs text ∧
      right.Belongs text := by
  obtain ⟨e, operator, l, r, he, binary, hoperator, label, hleft, hl, hright, hr⟩ := compared
  obtain ⟨same, belongs⟩ := scopeEvents_of_unwraps (s := s) h he
  have inLeft := Node.mem_children_of_child? hleft
  obtain ⟨sameLeft, belongsLeft⟩ := scopeEvents_of_unwraps (s := s) (belongs.child inLeft) hl
  obtain ⟨sameRight, belongsRight⟩ :=
    scopeEvents_of_unwraps (s := s) (belongs.child (Node.mem_children_of_child? hright)) hr
  obtain ⟨l', operator', r', core, hleft', hoperator', hright'⟩ :=
    belongs.core_of_binary binary inLeft
  cases hleft.symm.trans hleft'
  cases hoperator.symm.trans hoperator'
  cases hright.symm.trans hright'
  have bare : operator.isNamed = false := by rw [Node.isNamed, label]
  have parts : uncommented e = [l, r] := by
    rw [uncommented, ← belongs.filter_core, core]
    simp [hl.isNamed namedLeft, hr.isNamed namedRight, bare]
  refine ⟨?_, belongsLeft, belongsRight⟩
  rw [same, scopeEvents_of_children belongs (Or.inr (Or.inl binary)), parts, List.flatMap_cons,
    List.flatMap_cons, List.flatMap_nil, List.append_nil, sameLeft, sameRight]

theorem scopeEvents_of_null (h : n.Belongs text) (is : n.is .nullLiteral = true) :
    scopeEvents s n = [] := by
  rw [scopeEvents_of_children h (Or.inr (Or.inr is)), uncommented, Node.namedChildren,
    h.null_leaf is]
  rfl

/-- A walk over a test of a name against `null` mentions the name and nothing else. -/
theorem scopeEvents_of_test (h : n.Belongs text) (compares : ComparesWithNull n operand check)
    (name : operand.is .identifier = true) :
    scopeEvents s n = [.mention (operand.text s) operand.start] := by
  obtain ⟨null, is, compared⟩ := compares
  have namedOperand : operand.isNamed = true := by rw [Node.isNamed, eq_of_beq name]
  have namedNull : null.isNamed = true := by rw [Node.isNamed, eq_of_beq is]
  have mention : scopeEvents s operand = [.mention (operand.text s) operand.start] := by
    rw [scopeEvents_eq, steps_of_identifier name]
    rfl
  rcases compared with compared | compared
  · obtain ⟨same, _, belongs⟩ := scopeEvents_of_comparison h compared namedOperand namedNull
    rw [same, mention, scopeEvents_of_null belongs is]
    rfl
  · obtain ⟨same, belongs, _⟩ := scopeEvents_of_comparison h compared namedNull namedOperand
    rw [same, mention, scopeEvents_of_null belongs is]
    rfl

/-! ### Walks over respelled nodes -/

theorem scopeEvents_of_nullTest (h : n.Belongs text) (test : nullTest? n = some (operand, check))
    (name : operand.is .identifier = true) :
    scopeEvents s n = [.mention (operand.text s) operand.start] :=
  scopeEvents_of_test h ((nullTest_eq_some_iff name).1 test) name

/-- Members of related lists, in pairs. -/
theorem forall₂_mem {α β : Type} {R : α → β → Prop} {l : List α} {m : List β}
    (h : List.Forall₂ R l m) : List.Forall₂ (fun a b => a ∈ l ∧ b ∈ m ∧ R a b) l m := by
  induction h with
  | nil => exact .nil
  | cons first others ih =>
    apply List.Forall₂.cons
    · exact ⟨List.mem_cons_self, List.mem_cons_self, first⟩
    · exact ih.imp fun a b ⟨ha, hb, hab⟩ =>
        ⟨List.mem_cons_of_mem _ ha, List.mem_cons_of_mem _ hb, hab⟩

/-- The walks over respelled nodes meet the same names. -/
theorem sameEvents_of_respelled (same : Respelled s t a b) (ha : a.Belongs text)
    (hb : b.Belongs text') :
    List.Forall₂ (ScopeEvent.Same fun _ _ => True) (scopeEvents s a) (scopeEvents t b) := by
  generalize hsize : sizeOf a = size
  induction size using Nat.strongRecOn generalizing a b with
  | ind size ih =>
    rcases same.cases with ⟨test, found, found'⟩ | kept
    · obtain ⟨_, operand, nullTest, name, spelled⟩ := exists_of_conditionTest? found
      obtain ⟨_, operand', nullTest', name', spelled'⟩ := exists_of_conditionTest? found'
      rw [scopeEvents_of_nullTest ha nullTest name, scopeEvents_of_nullTest hb nullTest' name',
        spelled, spelled']
      exact .cons (.mention _ trivial) .nil
    · rw [scopeEvents_eq, scopeEvents_eq, eventsOf, eventsOf]
      apply List.rel_flatMap (forall₂_mem (sameSteps_steps same.label kept))
      rintro step step' ⟨inA, inB, same⟩
      cases same with
      | event same => exact .cons same .nil
      | visit same =>
        exact ih _ (hsize ▸ (inwards_steps s a).lt _ inA) same
          (ha.inside ((inside_steps s a).mem_of_visit _ inA))
          (hb.inside ((inside_steps t b).mem_of_visit _ inB)) rfl

end MonoTap.Callback
