import MonoTap.Proofs.Denotation
import MonoTap.Proofs.Hops
import MonoTap.Proofs.VisitOrder
import MonoTap.Proofs.WalkInvariants

/-!
# Declared names

The declaration that a name in a tree makes is known by the nodes around the name. The walk over a
callback declares names of this sort only, each with the type of its declaration, and the binding that a
name in the callback denotes has the type of the declaration at the place where the binding is declared.
-/

set_option autoImplicit false

namespace MonoTap.Java

/-! ### The kinds of parts -/

namespace Rule

variable {S : Type} {grammar : S → Rule S} {rule : Rule S} {op nodes : List Node} {ts : List Token}
  {part : Role} {k : Kind}

/-- Whether all that a rule gives is of one kind. -/
def givesKind (k : Kind) : Rule S → Bool
  | .leaf _ kind | .name kind | .node kind _ => kind == k
  | .alt a b => givesKind k a && givesKind k b
  | _ => false

/-- Whether the nodes that a rule gives and that play some part are all of one kind, as far as its
fields tell. The left part of the chain around the rule stands for itself only if that is known of it. -/
def partsAre (part : Role) (k : Kind) : (known : Bool) → Rule S → Bool
  | known, .seq a b | known, .alt a b => partsAre part k known a && partsAre part k known b
  | known, .chain base suffix => partsAre part k known base && partsAre part k true suffix
  | known, .many r => partsAre part k known r
  | _, .field role r => role != part || r.givesKind k
  | known, .left => known
  | _, _ => true

theorem Derives.givesKind (h : Derives grammar rule op ts nodes) (proper : ∀ t ∈ ts, t.Proper)
    (regular : rule.isRegular = true) (gives : rule.givesKind k = true) {n : Node}
    (hn : n ∈ core nodes) : n.label = .kind k ∨ n.label = .kind .missing := by
  have leaf {t : Token} {kind : Kind} (proper : t.Proper) (plain : (!kind.isExtra) = true)
      (gives : (kind == k) = true) (hn : n ∈ core (t.toNodes (.kind kind))) :
      n.label = .kind k ∨ n.label = .kind .missing := by
    obtain ⟨l, single, known⟩ := @core_toNodes t (.kind kind) proper fun kind' same => by
      cases same
      simpa using plain
    rw [single] at hn
    cases List.mem_singleton.1 hn
    rw [← eq_of_beq gives]
    exact known
  induction h with
  | leaf reads => exact leaf (proper _ List.mem_cons_self) regular gives hn
  | name isName => exact leaf (proper _ List.mem_cons_self) regular gives hn
  | altLeft left ih =>
    rw [isRegular, Bool.and_eq_true] at regular
    rw [Rule.givesKind, Bool.and_eq_true] at gives
    exact ih proper regular.1 gives.1 hn
  | altRight right ih =>
    rw [isRegular, Bool.and_eq_true] at regular
    rw [Rule.givesKind, Bool.and_eq_true] at gives
    exact ih proper regular.2 gives.2 hn
  | @node r kind op nodes ts inner ih =>
    rw [isRegular, Bool.and_eq_true, Bool.not_eq_true'] at regular
    rcases core_wrap regular.1 nodes with ⟨none, same⟩ | ⟨_, _, start, stop, _, _, single⟩
    · rw [same, none] at hn
      cases hn
    · rw [single] at hn
      cases List.mem_singleton.1 hn
      rw [← eq_of_beq gives]
      exact Or.inl rfl
  | _ => cases gives

/-- A node that counts and plays the part is of the kind that the rule has there. -/
theorem Derives.partsAre (closed : ∀ s, (grammar s).partsAre part k false = true)
    (regularAll : ∀ s, (grammar s).isRegular = true) (h : Derives grammar rule op ts nodes)
    (proper : ∀ t ∈ ts, t.Proper) (regular : rule.isRegular = true) {known : Bool}
    (parts : rule.partsAre part k known = true)
    (operand : known = true → ∀ n ∈ core op, n.role = some part →
      n.label = .kind k ∨ n.label = .kind .missing) :
    ∀ n ∈ core nodes, n.role = some part → n.label = .kind k ∨ n.label = .kind .missing := by
  have bare {t : Token} {label : Label} (proper : t.Proper) {n : Node}
      (hn : n ∈ core (t.toNodes label)) (role : n.role = some part) :
      n.label = .kind k ∨ n.label = .kind .missing := by
    rw [core_toNodes_role proper hn] at role
    cases role
  induction h generalizing known with
  | empty | manyNil | «unless» => exact fun n hn => (List.not_mem_nil hn).elim
  | left => exact operand parts
  | token reads => exact fun n => bare (proper _ List.mem_cons_self)
  | leaf reads => exact fun n => bare (proper _ List.mem_cons_self)
  | name isName => exact fun n => bare (proper _ List.mem_cons_self)
  | literal is => exact fun n => bare (proper _ List.mem_cons_self)
  | glued reads more =>
    intro n hn role
    rw [core_append, core_eq_nil fun n hn => ((proper _ List.mem_cons_self).loose n hn).extra] at hn
    cases List.mem_singleton.1 hn
    cases role
  | @ref op nodes s ts inner ih => exact ih proper (regularAll s) (closed s) nofun
  | seq first second ihFirst ihSecond =>
    rw [isRegular, Bool.and_eq_true] at regular
    rw [Rule.partsAre, Bool.and_eq_true] at parts
    intro n hn
    rw [core_append] at hn
    rcases List.mem_append.1 hn with hn | hn
    · exact ihFirst (fun t ht => proper t (List.mem_append_left _ ht)) regular.1 parts.1 operand n hn
    · exact ihSecond (fun t ht => proper t (List.mem_append_right _ ht)) regular.2 parts.2 operand n hn
  | altLeft first ih =>
    rw [isRegular, Bool.and_eq_true] at regular
    rw [Rule.partsAre, Bool.and_eq_true] at parts
    exact ih proper regular.1 parts.1 operand
  | altRight second ih =>
    rw [isRegular, Bool.and_eq_true] at regular
    rw [Rule.partsAre, Bool.and_eq_true] at parts
    exact ih proper regular.2 parts.2 operand
  | manyCons head tail ihHead ihTail =>
    intro n hn
    rw [core_append] at hn
    rcases List.mem_append.1 hn with hn | hn
    · exact ihHead (fun t ht => proper t (List.mem_append_left _ ht)) regular parts operand n hn
    · exact ihTail (fun t ht => proper t (List.mem_append_right _ ht)) regular parts operand n hn
  | node inner ih =>
    intro n hn role
    rw [isRegular, Bool.and_eq_true, Bool.not_eq_true'] at regular
    rw [core_wrap_role regular.1 hn] at role
    cases role
  | @field r own op nodes ts inner ih =>
    intro n hn role
    rw [core_assign] at hn
    obtain ⟨m, hm, rfl⟩ := List.mem_map.1 hn
    have same : (m.withRole own).label = m.label := by cases m; rfl
    rw [role_withRole, Option.some.injEq] at role
    rw [Rule.partsAre, role, bne_self_eq_false, Bool.false_or] at parts
    rw [same]
    exact inner.givesKind proper regular parts hm
  | chainBase inner ih =>
    simp only [isRegular, Bool.and_eq_true] at regular
    rw [Rule.partsAre, Bool.and_eq_true] at parts
    exact ih proper regular.1.2 parts.1 operand
  | chainMore inner step more ihInner ihStep ihMore =>
    simp only [isRegular, Bool.and_eq_true] at regular
    rw [Rule.partsAre, Bool.and_eq_true] at parts
    obtain ⟨⟨⟨soloBase, soloSuffix⟩, regularBase⟩, regularSuffix⟩ := regular
    have base := ihInner (fun t ht => proper t (List.mem_append_left _ ht)) regularBase parts.1 operand
    have longer := ihStep (fun t ht => proper t (List.mem_append_right _ (List.mem_append_left _ ht)))
      regularSuffix parts.2 fun _ => base
    apply ihMore (fun t ht => proper t (List.mem_append_right _ (List.mem_append_right _ ht)))
      (isRegular_chain_left soloSuffix regularSuffix) _ fun _ => longer
    · exact true
    · rw [Rule.partsAre, Bool.and_eq_true]
      exact ⟨rfl, parts.2⟩

end Rule

namespace Node

variable {text : List Char} {n c m : Node} {k lab : Kind} {part : Role}

/-- The nodes inside that play a part are of the kind that the rules have there. -/
theorem Belongs.is_of_role (h : n.Belongs text) (is : n.is k = true) (hc : c ∈ n.children)
    (role : c.role = some part)
    (top : (Grammar.program.insides k).all (Rule.partsAre part lab false) = true)
    (symbols : ∀ s, ((Grammar.ruleOf s).insides k).all (Rule.partsAre part lab false) = true)
    (closed : ∀ s, (Grammar.ruleOf s).partsAre part lab false = true) : c.is lab = true := by
  obtain ⟨r, known, fills⟩ := h.exists_rule is hc
  have parts : r.partsAre part lab false = true := known.all top symbols
  obtain ⟨regular, op, ts, nodes, _, proper, derives, same⟩ := fills
  have counts := h.mem_core_of_role hc role
  rw [same, core_dropWhile] at counts
  have clean := (h.child hc).clean
  rcases derives.partsAre closed isRegularGrammar_ruleOf.regular proper regular parts nofun c counts
    role with label | missing
  · rw [Node.is, label, beq_self_eq_true]
  · have faultless := not_isAny_of_hasError clean
    rw [isAny, List.any_cons, List.any_cons, Node.is, Node.is, missing] at faultless
    simp at faultless

/-- The variables of a declaration are declarators. -/
theorem Belongs.is_declarator (h : n.Belongs text)
    (kind : n.is .localVariableDeclaration = true ∨ n.is .fieldDeclaration = true)
    (hc : c ∈ n.childrenOf .declarator) : c.is .variableDeclarator = true := by
  have inside := mem_children_of_mem_childrenOf hc
  have role : c.role = some .declarator := eq_of_beq (List.mem_filter.1 hc).2
  have closed : ∀ s, (Grammar.ruleOf s).partsAre .declarator .variableDeclarator false = true := fun s => by
    cases s <;> decide +kernel
  rcases kind with is | is
  · exact h.is_of_role is inside role rfl (fun s => by cases s <;> decide +kernel) closed
  · exact h.is_of_role is inside role rfl (fun s => by cases s <;> decide +kernel) closed

/-- The nodes that declare a variable by their own name. -/
def namedKinds : List Kind :=
  [.variableDeclarator, .formalParameter, .enhancedForStatement, .catchFormalParameter, .resource,
    .instanceofExpression]

/-- The name of a node that declares a variable is an identifier. -/
theorem Belongs.is_name (h : n.Belongs text) (kind : n.isAny namedKinds = true)
    (found : n.child? .name = some m) : m.is .identifier = true := by
  have inside := mem_children_of_child? found
  have role := role_of_child? found
  have closed : ∀ s, (Grammar.ruleOf s).partsAre .name .identifier false = true := fun s => by
    cases s <;> decide +kernel
  rw [isAny, List.any_eq_true] at kind
  obtain ⟨k, hk, is⟩ := kind
  have rules : ∀ k ∈ namedKinds,
      (Grammar.program.insides k).all (Rule.partsAre .name .identifier false) = true ∧
        ∀ s, ((Grammar.ruleOf s).insides k).all (Rule.partsAre .name .identifier false) = true := by
    intro k hk
    simp only [namedKinds, List.mem_cons, List.not_mem_nil, or_false] at hk
    rcases hk with rfl | rfl | rfl | rfl | rfl | rfl <;>
      exact ⟨rfl, fun s => by cases s <;> decide +kernel⟩
  exact h.is_of_role is inside role (rules k hk).1 (rules k hk).2 closed

end Node

end MonoTap.Java

namespace MonoTap.Callback

open Java (Cursor Kind Node Role)
open Receiver (Declaration declarationAt)
open Text (Source)

/-! ### The declarations that names make -/

/-- The declaration that a name makes, by the nodes around it. The names of variable parameters and of
parameters without types, and those in patterns that take records apart, have no type. -/
def declarationOf (name : Cursor) : Declaration :=
  match name.ancestors with
  | [] => ⟨none, none⟩
  | d :: around =>
    if d.is .variableDeclarator then
      match around with
      | [] => ⟨none, none⟩
      | declaration :: _ =>
        if declaration.is .spreadParameter then ⟨none, none⟩
        else ⟨declaration.child? .type, (d.child? .value).map (Cursor.mk d around).down⟩
    else if d.is .catchFormalParameter then ⟨d.ofKind? .catchType, none⟩
    else if d.is .instanceofExpression then ⟨d.child? .right, none⟩
    else if d.is .resource then declarationAt ⟨d, around⟩
    else if d.isAny [.formalParameter, .enhancedForStatement] then ⟨d.child? .type, none⟩
    else ⟨none, none⟩

section

variable {source : Source} {text : List Char} {root n m d p : Node} {outer : List Node} {a : Cursor}

theorem is_ne {k l : Kind} (h : n.is k = true) (other : k ≠ l) : n.is l = false := by
  rw [Node.is, beq_iff_eq] at h
  rw [Node.is, h, beq_eq_false_iff_ne]
  exact fun same => other (Java.Label.kind.inj same)

theorem declarationOf_variable (is : d.is .variableDeclarator = true)
    (plain : n.is .spreadParameter = false) :
    declarationOf ⟨m, d :: n :: outer⟩ =
      ⟨n.child? .type, (d.child? .value).map (Cursor.mk d (n :: outer)).down⟩ := by
  simp [declarationOf, is, plain]

theorem declarationOf_spread (is : d.is .variableDeclarator = true)
    (spread : n.is .spreadParameter = true) : declarationOf ⟨m, d :: n :: outer⟩ = ⟨none, none⟩ := by
  simp [declarationOf, is, spread]

theorem declarationOf_typed (is : n.is .formalParameter = true ∨ n.is .enhancedForStatement = true) :
    declarationOf ⟨m, n :: outer⟩ = ⟨n.child? .type, none⟩ := by
  rcases is with is | is <;>
    simp [declarationOf, Node.isAny, is, is_ne is]

theorem declarationOf_caught (is : n.is .catchFormalParameter = true) :
    declarationOf ⟨m, n :: outer⟩ = ⟨n.ofKind? .catchType, none⟩ := by
  simp [declarationOf, is, is_ne is]

theorem declarationOf_pattern (is : n.is .instanceofExpression = true) :
    declarationOf ⟨m, n :: outer⟩ = ⟨n.child? .right, none⟩ := by
  simp [declarationOf, is, is_ne is]

theorem declarationOf_resource (is : n.is .resource = true) :
    declarationOf ⟨m, n :: outer⟩ = declarationAt ⟨n, outer⟩ := by
  simp [declarationOf, is, is_ne is]

theorem declarationOf_untyped
    (is : n.is .lambdaExpression = true ∨ n.is .inferredParameters = true ∨
      n.is .recordPatternComponent = true) :
    declarationOf ⟨m, n :: outer⟩ = ⟨none, none⟩ := by
  rcases is with is | is | is <;>
    simp [declarationOf, Node.isAny, is_ne is]

/-- A place in a tree where a name is declared. -/
structure Declared (root : Node) (a : Cursor) : Prop where
  within : a.Within root
  name : a.node.is .identifier = true

/-- Steps that declare names at places in a tree, with the types of the declarations there. -/
def DeclaresAt (source : Source) (root : Node) (l : List Step) : Prop :=
  ∀ name type offset, .event (.declare name type offset) ∈ l → ∃ a, Declared root a ∧
    a.node.text source = name ∧ a.node.start = offset ∧
    (declarationOf a).type.map (Node.text source) = type

theorem declaresAt_visits (ns : List Node) : DeclaresAt source root (visits ns) := by
  intro name type offset he
  simp [visits] at he

theorem DeclaresAt.append {l more : List Step} (first : DeclaresAt source root l)
    (second : DeclaresAt source root more) : DeclaresAt source root (l ++ more) := by
  intro name type offset he
  exact (List.mem_append.1 he).elim (first name type offset) (second name type offset)

theorem declaresAt_flatMap {α : Type} {l : List α} {f : α → List Step}
    (each : ∀ a ∈ l, DeclaresAt source root (f a)) : DeclaresAt source root (l.flatMap f) := by
  intro name type offset he
  obtain ⟨a, ha, he⟩ := List.mem_flatMap.1 he
  exact each a ha name type offset he

theorem DeclaresAt.inScope {l : List Step} (h : DeclaresAt source root l) :
    DeclaresAt source root (inScope l) := by
  intro name type offset he
  simp only [Callback.inScope, List.cons_append, List.mem_cons, List.mem_append, Step.event.injEq,
    reduceCtorEq, List.not_mem_nil, or_false, false_or] at he
  exact h name type offset he

theorem declaresAt_visitParts (n : Node) (parts : List Role) :
    DeclaresAt source root (visitParts n parts) :=
  declaresAt_flatMap fun _ _ => declaresAt_visits _

theorem declaresAt_declareName {name type : Option Node}
    (each : ∀ m, name = some m → ∃ around, Declared root ⟨m, around⟩ ∧
      (declarationOf ⟨m, around⟩).type = type) :
    DeclaresAt source root (declareName source name type) := by
  intro x t offset he
  cases name with
  | none => cases he
  | some m =>
    obtain ⟨around, declared, typed⟩ := each m rfl
    cases List.mem_singleton.1 he
    exact ⟨_, declared, rfl, rfl, by rw [typed]⟩

theorem isAny_namedKinds {k : Kind} (is : n.is k = true) (known : k ∈ Node.namedKinds) :
    n.isAny Node.namedKinds = true :=
  List.any_eq_true.2 ⟨k, known, is⟩

variable (h : root.Belongs text)
include h

/-- The name of a node that declares a variable is a place where a name is declared. -/
theorem declared_name (within : Cursor.Within root ⟨n, outer⟩) (kind : n.isAny Node.namedKinds = true)
    (found : n.child? .name = some m) : Declared root ⟨m, n :: outer⟩ where
  within := .down within (Node.mem_children_of_child? found)
  name := (h.inside within.mem_preorder).is_name kind found

theorem declared_variable (within : Cursor.Within root ⟨n, outer⟩)
    (kind : n.is .localVariableDeclaration = true ∨ n.is .fieldDeclaration = true)
    (hd : d ∈ n.childrenOf .declarator) (found : d.child? .name = some m) :
    Declared root ⟨m, d :: n :: outer⟩ ∧ declarationOf ⟨m, d :: n :: outer⟩ =
      ⟨n.child? .type, (d.child? .value).map (Cursor.mk d (n :: outer)).down⟩ := by
  have is := (h.inside within.mem_preorder).is_declarator kind hd
  have plain : n.is .spreadParameter = false := kind.elim (is_ne · (by decide)) (is_ne · (by decide))
  have deeper : Cursor.Within root ⟨d, n :: outer⟩ := .down within (Node.mem_children_of_mem_childrenOf hd)
  exact ⟨declared_name h deeper (isAny_namedKinds is (by decide)) found,
    declarationOf_variable is plain⟩

theorem declaresAt_parameter (within : Cursor.Within root ⟨p, outer⟩) :
    DeclaresAt source root (declareParameter source p) := by
  rw [declareParameter]
  split
  · rename_i is
    exact declaresAt_declareName fun m hm => ⟨_, declared_name h within (isAny_namedKinds is (by decide)) hm,
      congrArg Declaration.type (declarationOf_typed (.inl is))⟩
  · split
    · rename_i spread
      apply declaresAt_declareName
      intro m hm
      obtain ⟨d, hd, hm⟩ := Option.bind_eq_some_iff.1 hm
      have inside : d ∈ p.namedChildren := List.mem_of_find?_eq_some hd
      have is : d.is .variableDeclarator = true :=
        List.find?_some (p := fun c : Node => c.is .variableDeclarator) hd
      have deeper : Cursor.Within root ⟨d, p :: outer⟩ :=
        .down within (Node.mem_children_of_mem_namedChildren inside)
      exact ⟨_, declared_name h deeper (isAny_namedKinds is (by decide)) hm,
        congrArg Declaration.type (declarationOf_spread is spread)⟩
    · intro name type offset he
      cases he

theorem declaresAt_parameters (within : Cursor.Within root ⟨n, outer⟩) :
    DeclaresAt source root ((((n.child? .parameters).map Node.namedChildren).getD []).flatMap
      (declareParameter source)) := by
  apply declaresAt_flatMap
  intro p hp
  cases found : n.child? .parameters with
  | none => simp [found] at hp
  | some ps =>
    simp only [found, Option.map_some, Option.getD_some] at hp
    exact declaresAt_parameter h (.down (.down within (Node.mem_children_of_child? found))
      (Node.mem_children_of_mem_namedChildren hp))

theorem declaresAt_lambdaParameters (within : Cursor.Within root ⟨n, outer⟩)
    (lambda : n.is .lambdaExpression = true) :
    DeclaresAt source root (declareLambdaParameters source n) := by
  rw [declareLambdaParameters]
  split
  · intro name type offset he
    cases he
  · rename_i ps found
    have deeper : Cursor.Within root ⟨ps, n :: outer⟩ := .down within (Node.mem_children_of_child? found)
    split
    · rename_i is
      apply declaresAt_declareName
      rintro m ⟨⟩
      exact ⟨_, ⟨deeper, is⟩, congrArg Declaration.type (declarationOf_untyped (.inl lambda))⟩
    · split
      · rename_i inferred
        apply declaresAt_flatMap
        intro p hp
        obtain ⟨hp, is⟩ := List.mem_filter.1 hp
        apply declaresAt_declareName
        rintro m ⟨⟩
        exact ⟨_, ⟨.down deeper (Node.mem_children_of_mem_namedChildren hp), is⟩,
          congrArg Declaration.type (declarationOf_untyped (.inr (.inl inferred)))⟩
      · exact declaresAt_flatMap fun p hp => declaresAt_parameter h
          (.down deeper (Node.mem_children_of_mem_namedChildren hp))

theorem declaresAt_variables (within : Cursor.Within root ⟨n, outer⟩)
    (kind : n.is .localVariableDeclaration = true ∨ n.is .fieldDeclaration = true)
    (hd : d ∈ n.childrenOf .declarator) :
    DeclaresAt source root (declareName source (d.child? .name) (n.child? .type)) :=
  declaresAt_declareName fun _ hm =>
    have ⟨declared, typed⟩ := declared_variable h within kind hd hm
    ⟨_, declared, congrArg Declaration.type typed⟩

theorem declaresAt_fields (within : Cursor.Within root ⟨n, outer⟩) :
    DeclaresAt source root (declareFields source n) := by
  apply declaresAt_flatMap
  intro field hfield
  obtain ⟨hfield, is⟩ := List.mem_filter.1 hfield
  apply declaresAt_flatMap
  intro d hd
  exact declaresAt_variables h (.down within (Node.mem_children_of_mem_namedChildren hfield)) (.inr is) hd

/-- The steps over a node declare names where declarations in the tree have them. -/
theorem declaresAt_steps (within : Cursor.Within root ⟨n, outer⟩) :
    DeclaresAt source root (steps source n) := by
  have own {k : Kind} {type : Option Node} (label : n.label = .kind k) (known : k ∈ Node.namedKinds)
      (typed : ∀ m, (declarationOf ⟨m, n :: outer⟩).type = type) :
      DeclaresAt source root (declareName source (n.child? .name) type) :=
    have is : n.is k = true := beq_iff_eq.2 label
    declaresAt_declareName fun m hm =>
      ⟨_, declared_name h within (isAny_namedKinds is known) hm, typed m⟩
  have visited := @declaresAt_visits source root
  have parts := @declaresAt_visitParts source root n
  have none : DeclaresAt source root [] := fun _ _ _ he => (List.not_mem_nil he).elim
  unfold steps
  split
  · exact none
  · rename_i k label
    split
    · intro name type offset he
      simp at he
    · exact parts _
    · exact parts _
    · exact visited _
    · exact visited _
    iterate 4 · exact none
    iterate 3 · exact parts _
    · exact declaresAt_flatMap fun d hd =>
        (declaresAt_variables h within (.inl (beq_iff_eq.2 label)) hd).append (visited _)
    · exact declaresAt_flatMap fun d hd => visited _
    · exact ((declaresAt_fields h within).append (visited _)).inScope
    iterate 2 · exact ((declaresAt_parameters h within).append (parts _)).inScope
    · exact ((declaresAt_lambdaParameters h within (beq_iff_eq.2 label)).append (parts _)).inScope
    · have loop := own label (by decide) fun m =>
        congrArg Declaration.type (declarationOf_typed (.inr (beq_iff_eq.2 label)))
      exact (((parts _).append loop).append (parts _)).inScope
    iterate 7 · exact (visited _).inScope
    · exact own label (by decide) fun m =>
        congrArg Declaration.type (declarationOf_caught (beq_iff_eq.2 label))
    · split
      · exact visited _
      · rename_i name named
        have resource := own label (by decide) fun m =>
          congrArg Declaration.type (declarationOf_resource (beq_iff_eq.2 label))
        rw [named] at resource
        exact (parts _).append resource
    · exact (parts _).append (own label (by decide) fun m =>
        congrArg Declaration.type (declarationOf_pattern (beq_iff_eq.2 label)))
    · apply declaresAt_flatMap
      intro c hc
      split
      · rename_i is
        apply declaresAt_declareName
        rintro m ⟨⟩
        exact ⟨_, ⟨.down within (Node.mem_children_of_mem_namedChildren hc), is⟩,
          congrArg Declaration.type (declarationOf_untyped (.inr (.inr (beq_iff_eq.2 label))))⟩
      · exact visited _
    iterate 5 · exact visited _
    · exact visited _

omit h in
/-- Every node of a tree stands at a place. -/
theorem exists_within (hn : n ∈ root.preorder) : ∃ outer, Cursor.Within root ⟨n, outer⟩ := by
  refine Node.preorder_induction (motive := fun n => ∃ outer, Cursor.Within root ⟨n, outer⟩) ?_
    ⟨[], .here⟩ hn
  rintro n ⟨outer, within⟩ c hc
  exact ⟨n :: outer, .down within hc⟩

/-- The walk over a node declares names where declarations in the node have them. -/
theorem declared_of_mem_scopeEvents {name : String} {type : Option String} {offset : Nat}
    (he : .declare name type offset ∈ scopeEvents source root) : ∃ a, Declared root a ∧
      a.node.text source = name ∧ a.node.start = offset ∧
      (declarationOf a).type.map (Node.text source) = type := by
  obtain ⟨n, hn, here⟩ := exists_steps_of_mem_scopeEvents he
  obtain ⟨outer, within⟩ := exists_within hn
  exact declaresAt_steps h within name type offset here

/-- No two places where names are declared begin at one offset. -/
theorem Declared.eq_of_start {b : Cursor} (ha : Declared root a) (hb : Declared root b)
    (same : a.node.start = b.node.start) : a = b :=
  Cursor.Within.eq_of_start h.placed (fun _ hc => h.child hc) h.identifier_leaf ha.within hb.within
    ha.name hb.name same

end

/-! ### The types of bindings -/

namespace Resolution

variable {events : List ScopeEvent} {r : Resolution} {P : Binding → Prop}

theorem nextId_le_foldl (r : Resolution) (events : List ScopeEvent) :
    r.nextId ≤ (events.foldl run r).nextId := by
  induction events generalizing r with
  | nil => exact Nat.le_refl _
  | cons e events ih => exact Nat.le_trans (nextId_le_run r e) (ih _)

/-- A number is taken after the declaration that has it. -/
theorem lt_of_declaredAt? {id offset : Nat} (h : r.declaredAt? events id = some offset) :
    id < (events.foldl run r).nextId := by
  induction events generalizing r with
  | nil => cases h
  | cons e events ih =>
    cases e with
    | enter | leave | mention => exact ih h
    | declare name type at_ =>
      rw [declaredAt?] at h
      split at h
      · rename_i taken
        rw [Bool.and_eq_true, Bool.not_eq_true', beq_iff_eq] at taken
        obtain ⟨inner, outer, scopes⟩ := List.exists_cons_of_ne_nil (List.isEmpty_eq_false_iff.1 taken.1)
        have next : (r.run (.declare name type at_)).nextId = r.nextId + 1 := by rw [run, scopes]
        have later := nextId_le_foldl (r.run (.declare name type at_)) events
        rw [List.foldl_cons]
        omega
      · exact ih h

/-- A binding that some events make, run from a state: the declaration among the events, in a scope that
is open there, with the next number. -/
def MadeBy (r : Resolution) (events : List ScopeEvent) (b : Binding) : Prop :=
  ∃ before offset after, events = before ++ .declare b.name b.type offset :: after ∧
    (before.foldl run r).nextId = b.id ∧ (before.foldl run r).scopes ≠ []

/-- The bindings after some events are those from before and those that the events make. -/
theorem madeBy_foldl (h : r.All P) (events : List ScopeEvent) :
    (events.foldl run r).All fun b => P b ∨ r.MadeBy events b := by
  induction events using List.reverseRecOn with
  | nil => exact h.imp fun _ => Or.inl
  | append_singleton events e ih =>
    have older : (events.foldl run r).All fun b => P b ∨ r.MadeBy (events ++ [e]) b := by
      apply ih.imp
      rintro b (old | ⟨before, offset, after, rfl, made⟩)
      · exact Or.inl old
      · exact Or.inr ⟨before, offset, after ++ [e], by rw [List.append_assoc]; rfl, made⟩
    rw [List.foldl_append, List.foldl_cons, List.foldl_nil]
    cases e with
    | enter | leave => exact older.run _ fun next => by simp [run] at next
    | mention name offset =>
      apply older.run
      intro next
      rw [run] at next
      split at next <;> simp at next
    | declare name type offset =>
      rcases scopes_run_declare (events.foldl run r) name type offset with
        ⟨_, same⟩ | ⟨inner, outer, scopes, after⟩
      · rw [same]
        exact older
      · constructor
        · rw [after]
          intro scope hscope b hb
          rcases List.mem_cons.1 hscope with rfl | hscope
          · rcases List.mem_cons.1 hb with rfl | hb
            · exact Or.inr ⟨events, offset, [], rfl, rfl, scopes ▸ List.cons_ne_nil _ _⟩
            · exact older.scopes inner (scopes ▸ List.mem_cons_self) b hb
          · exact older.scopes scope (scopes ▸ List.mem_cons_of_mem _ hscope) b hb
        · rw [run, scopes]
          exact older.occurrences

theorem MadeBy.declaredAt? {b : Binding} (h : r.MadeBy events b) :
    ∃ offset, .declare b.name b.type offset ∈ events ∧
      r.declaredAt? events b.id = some offset := by
  obtain ⟨before, offset, after, rfl, next, opened⟩ := h
  refine ⟨offset, List.mem_append_right _ List.mem_cons_self, ?_⟩
  have none : r.declaredAt? before b.id = none := by
    rw [Option.eq_none_iff_forall_ne_some]
    intro other found
    have := lt_of_declaredAt? found
    omega
  rw [declaredAt?_append, none, Option.none_or, Resolution.declaredAt?]
  apply if_pos
  rw [Bool.and_eq_true, Bool.not_eq_true', beq_iff_eq]
  exact ⟨List.isEmpty_eq_false_iff.2 opened, next⟩

end Resolution

section

variable {source : Source} {parameters : List (String × Option String)} {block : Node} {o : Occurrence}

/-- What a name in a callback denotes is a parameter, with the name and the type of the parameter, or it
has the name and the type that the walk declares where it is declared. -/
theorem binding_of_mem_occurrences
    (ho : o ∈ (Resolution.ofBody source parameters block).occurrences) :
    (∃ i, targetOf source parameters block o.binding.id = some (.parameter i) ∧
      parameters[i]? = some (o.binding.name, o.binding.type)) ∨
    ∃ offset, targetOf source parameters block o.binding.id = some (.declared offset) ∧
      .declare o.binding.name o.binding.type offset ∈ scopeEvents source block := by
  have next : (Resolution.start parameters).nextId = parameters.length + 1 := by
    simp [Resolution.start, Resolution.parameterBindings]
  have atStart : (Resolution.start parameters).All fun b =>
      ∃ i, b.id = i + 1 ∧ parameters[i]? = some (b.name, b.type) := by
    constructor
    · intro scope hscope b hb
      rw [Resolution.start] at hscope
      cases List.mem_singleton.1 hscope
      rw [List.mem_reverse, Resolution.parameterBindings] at hb
      obtain ⟨⟨⟨name, type⟩, i⟩, hp, rfl⟩ := List.mem_map.1 hb
      exact ⟨i, rfl, List.mem_zipIdx_iff_getElem?.1 hp⟩
    · intro o ho
      cases ho
  rcases (Resolution.madeBy_foldl atStart (scopeEvents source block)).occurrences o ho with
    ⟨i, id, found⟩ | made
  · have bound : i < parameters.length := (List.getElem?_eq_some_iff.1 found).1
    refine Or.inl ⟨i, ?_, found⟩
    rw [targetOf, id, if_pos (by omega), Nat.add_sub_cancel]
  · obtain ⟨offset, mem, declared⟩ := made.declaredAt?
    obtain ⟨before, _, _, _, taken, _⟩ := made
    have later := Resolution.nextId_le_foldl (Resolution.start parameters) before
    refine Or.inr ⟨offset, ?_, mem⟩
    rw [targetOf, if_neg (by omega), declaredIn?, declared]
    rfl

end

end MonoTap.Callback
