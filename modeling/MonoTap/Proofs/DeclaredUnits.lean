import Mathlib.Data.List.Flatten
import Mathlib.Data.List.Forall2
import MonoTap.Java.CompilationUnit
import MonoTap.Proofs.Calls
import MonoTap.Proofs.Marks

/-!
# Declared units

The units of a text without faults are the declarations that can be reached from the top level by way of
the bodies of types, in the order of the text. Of the declarations after the constants of an enumeration
only the methods and constructors are units: a type that is declared there is left out, with all that is
inside it.
-/

set_option autoImplicit false

namespace MonoTap.Java

open Text (Source)

/-! ### Names of declarations -/

namespace Rule

variable {S : Type} {grammar : S → Rule S} {rule : Rule S} {op nodes : List Node} {ts : List Token}
  {part : Role}

/-- Whether a rule always gives a node that plays a part. -/
def supplies (part : Role) : Rule S → Bool
  | .seq a b => supplies part a || supplies part b
  | .alt a b => supplies part a && supplies part b
  | .field role r => role == part && decide (1 ≤ r.least)
  | _ => false

theorem Derives.supplies (g : IsRegularGrammar grammar) (h : Derives grammar rule op ts nodes)
    (proper : ∀ t ∈ ts, t.Proper) (regular : rule.isRegular = true) (supplied : rule.Supplied op)
    (supplies : rule.supplies part = true) : ∃ n ∈ core nodes, n.role = some part := by
  induction h with
  | seq left right ihLeft ihRight =>
    rw [isRegular, Bool.and_eq_true] at regular
    rw [List.forall_mem_append] at proper
    rw [Rule.supplies, Bool.or_eq_true] at supplies
    rw [core_append]
    rcases supplies with first | second
    · obtain ⟨n, mem, role⟩ := ihLeft proper.1 regular.1 supplied.seq.1 first
      exact ⟨n, List.mem_append_left _ mem, role⟩
    · obtain ⟨n, mem, role⟩ := ihRight proper.2 regular.2 supplied.seq.2 second
      exact ⟨n, List.mem_append_right _ mem, role⟩
  | altLeft left ih =>
    rw [isRegular, Bool.and_eq_true] at regular
    rw [Rule.supplies, Bool.and_eq_true] at supplies
    exact ih proper regular.1 supplied.alt.1 supplies.1
  | altRight right ih =>
    rw [isRegular, Bool.and_eq_true] at regular
    rw [Rule.supplies, Bool.and_eq_true] at supplies
    exact ih proper regular.2 supplied.alt.2 supplies.2
  | @field r role op nodes ts inner ih =>
    rw [Rule.supplies, Bool.and_eq_true, beq_iff_eq, decide_eq_true_eq] at supplies
    have whole : Derives grammar (.field role r) op ts (Node.assign role nodes) := .field inner
    have counts := (whole.counts g proper regular supplied).least
    have some := Nat.le_trans supplies.2 counts
    obtain ⟨n, mem⟩ := List.exists_mem_of_length_pos some
    exact ⟨n, mem, supplies.1 ▸ role_of_field whole n mem⟩
  | _ => cases supplies

end Rule

namespace Node

variable {text : List Char} {n : Node}

/-- A node that holds something has a child for each part that the rules for its kind give. -/
theorem Belongs.exists_child {k : Kind} {part : Role} (h : n.Belongs text) (is : n.is k = true)
    (some : n.children ≠ []) (top : (Grammar.program.insides k).all (Rule.supplies part) = true)
    (symbols : ∀ s, ((Grammar.ruleOf s).insides k).all (Rule.supplies part) = true) :
    ∃ c, n.child? part = Option.some c := by
  obtain ⟨c, hc⟩ := List.exists_mem_of_ne_nil n.children some
  obtain ⟨r, known, regular, op, ts, nodes, supplied, proper, derives, same⟩ := h.exists_rule is hc
  have supplies : r.supplies part = true := known.all top symbols
  obtain ⟨m, mem, role⟩ := derives.supplies isRegularGrammar_ruleOf proper regular supplied supplies
  rw [← core_dropWhile, ← same] at mem
  apply Option.isSome_iff_exists.1
  rw [child?, List.find?_isSome]
  exact ⟨m, (Java.mem_core.1 mem).1, beq_iff_eq.2 role⟩

end Node

/-- What a declaration of a type or of a member declares. -/
def UnitKind.of? (n : Node) : Option UnitKind :=
  (ofType? n).or (ofMember? n)

/-- The kinds of declarations that give units. The compact constructor of a record has a kind of its own
and gives none. -/
def declarationKinds : List Kind :=
  [.classDeclaration, .recordDeclaration, .interfaceDeclaration, .enumDeclaration, .methodDeclaration,
    .constructorDeclaration]

section

variable {text : String} {n : Node} {package : String} {names : List String}

theorem UnitKind.isAny_of_of? (h : (UnitKind.of? n).isSome = true) :
    n.isAny declarationKinds = true := by
  rw [of?, ofType?, ofMember?] at h
  rw [Node.isAny, declarationKinds]
  split at h
  iterate 4 · simp [Node.is, *]
  split at h
  iterate 2 · simp [Node.is, *]
  cases h

theorem UnitKind.ofMember?_eq_none (type : (UnitKind.ofType? n).isSome = true) :
    UnitKind.ofMember? n = none := by
  rw [ofType?] at type
  split at type
  iterate 4 · simp [ofMember?, *]
  cases type

theorem isSome_of?_of_member (member : (UnitKind.ofMember? n).isSome = true) :
    (UnitKind.of? n).isSome = true := by
  rw [UnitKind.of?, Option.isSome_or, member, Bool.or_true]

theorem isSome_of?_of_type (type : (UnitKind.ofType? n).isSome = true) :
    (UnitKind.of? n).isSome = true := by
  rw [UnitKind.of?, Option.isSome_or, type, Bool.true_or]

theorem UnitKind.not_is_enumBodyDeclarations (unit : (UnitKind.of? n).isSome = true) :
    n.is .enumBodyDeclarations = false := by
  cases is : n.is .enumBodyDeclarations with
  | false => rfl
  | true =>
    rw [Node.is, beq_iff_eq] at is
    rw [of?, ofType?, ofMember?, is] at unit
    cases unit

/-- Each declaration of a text without faults has a name. -/
theorem declaredName_ne_empty (belongs : n.Belongs text.toList) (anchored : n.Anchored text.toList)
    (unit : (UnitKind.of? n).isSome = true) : declaredName (.ofString text) n ≠ "" := by
  have kind := UnitKind.isAny_of_of? unit
  obtain ⟨k, mem, is⟩ := List.any_eq_true.1 kind
  have composite : n.isAny compositeKinds = true := by
    apply List.any_eq_true.2
    exact ⟨k, (by decide : declarationKinds ⊆ compositeKinds) mem, is⟩
  have some := anchored.composite composite
  obtain ⟨name, found⟩ : ∃ name, n.child? .name = Option.some name := by
    simp only [declarationKinds, List.mem_cons, List.not_mem_nil, or_false] at mem
    rcases mem with rfl | rfl | rfl | rfl | rfl | rfl
    all_goals exact belongs.exists_child is some rfl fun s => by cases s <;> decide +kernel
  rw [declaredName, found]
  exact (belongs.child (Node.mem_children_of_child? found)).text_ne_empty

/-- Names joined by dots, after the package if there is one. -/
def nameWithin (package : String) (names : List String) : String :=
  ".".intercalate (if package.isEmpty then names else package :: names)

theorem intercalate_ne_empty {x : String} (nonempty : x ≠ "") : ".".intercalate (x :: names) ≠ "" := by
  cases names with
  | nil => simpa using nonempty
  | cons next names => simp [String.intercalate_cons_cons]

theorem intercalate_concat {x name : String} (nonempty : x ≠ "") :
    ".".intercalate (x :: names ++ [name]) = qualify (".".intercalate (x :: names)) name := by
  rw [String.intercalate_append_of_ne_nil (List.cons_ne_nil x names) (List.cons_ne_nil name []),
    String.intercalate_singleton, qualify, if_neg]
  rw [String.isEmpty_iff]
  exact intercalate_ne_empty nonempty

/-- A name inside the scope of named ones. -/
theorem nameWithin_concat {name : String} (named : ∀ x ∈ names, x ≠ "") :
    nameWithin package (names ++ [name]) = qualify (nameWithin package names) name := by
  by_cases unnamed : package.isEmpty = true
  · rw [nameWithin, nameWithin, if_pos unnamed, if_pos unnamed]
    cases names with
    | nil => simp [qualify]
    | cons x names => exact intercalate_concat (named x List.mem_cons_self)
  · rw [nameWithin, nameWithin, if_neg unnamed, if_neg unnamed]
    apply intercalate_concat
    rwa [String.isEmpty_iff] at unnamed

theorem nameWithin_ne_empty (some : names ≠ []) (named : ∀ x ∈ names, x ≠ "") :
    nameWithin package names ≠ "" := by
  rw [nameWithin]
  split
  · cases names with
    | nil => exact absurd rfl some
    | cons x names => exact intercalate_ne_empty (named x List.mem_cons_self)
  · rename_i unnamed
    rw [String.isEmpty_iff] at unnamed
    exact intercalate_ne_empty unnamed

end

/-! ### Declarations -/

/-- The nodes directly in the body of a declaration. -/
def bodyOf (n : Node) : List Node :=
  (n.child? .body).elim [] Node.namedChildren

/-- Whether a node stands after the constants of an enumeration. -/
def AfterConstants (owner n : Node) : Prop :=
  ∃ part ∈ bodyOf owner, part.is .enumBodyDeclarations = true ∧ n ∈ part.namedChildren

/-- The declarations that can be reached from the top level by way of the bodies of types, each with the
types around it from the outside in. -/
inductive Declared (root : Node) : List Node → Node → Prop
  | top {n : Node} (mem : n ∈ root.children) (type : (UnitKind.ofType? n).isSome = true) :
      Declared root [] n
  | inside {around : List Node} {owner n : Node} (outer : Declared root around owner)
      (type : (UnitKind.ofType? owner).isSome = true)
      (member : n ∈ bodyOf owner ∨ AfterConstants owner n)
      (unit : (UnitKind.of? n).isSome = true) : Declared root (around ++ [owner]) n

/-- Whether each type of a chain of declarations stands directly in the body of the type around it, and so
not after the constants of an enumeration. -/
def TypesDirect (chain : List Node) : Prop :=
  ∀ owner inner, [owner, inner] <:+: chain → (UnitKind.ofType? inner).isSome = true →
    inner ∈ bodyOf owner

/-- What a unit says about the declaration that it comes from, given the types around that. -/
structure CodeUnit.Describes (source : Source) (package : String) (around : List Node) (n : Node)
    (u : CodeUnit) : Prop where
  kind : UnitKind.of? n = some u.kind
  name : u.name = declaredName source n
  qualifiedName : u.qualifiedName = nameWithin package ((around ++ [n]).map (declaredName source))
  parent : u.parent = around.getLast?.map (declaredName source)
  firstLine : u.firstLine = source.line n.start
  lastLine : u.lastLine = source.line n.stop
  text : u.source = n.text source
  signature : u.signature = String.ofList (signatureOf u.source.toList)

/-! ### Listings -/

theorem exists_body {n m : Node} (h : m ∈ bodyOf n) :
    ∃ body ∈ n.children, m ∈ body.children := by
  rw [bodyOf] at h
  cases found : n.child? .body with
  | none =>
    rw [found] at h
    cases h
  | some body =>
    rw [found] at h
    exact ⟨body, Node.mem_children_of_child? found, Node.mem_children_of_mem_namedChildren h⟩

theorem sizeOf_lt_of_mem_bodyOf {n m : Node} (h : m ∈ bodyOf n) : sizeOf m < sizeOf n := by
  obtain ⟨body, inNode, inBody⟩ := exists_body h
  have := Node.sizeOf_lt_of_mem_children inNode
  have := Node.sizeOf_lt_of_mem_children inBody
  omega

/-- The declarations that units come from, each with the types around it: a type itself, and then its
members and the types directly in its body. -/
def listing (around : List Node) (n : Node) : List (List Node × Node) :=
  if (UnitKind.ofType? n).isSome then
    (around, n) :: (bodyOf n).attach.flatMap fun ⟨m, _inBody⟩ =>
      if (UnitKind.ofMember? m).isSome then [(around ++ [n], m)]
      else if m.is .enumBodyDeclarations then
        (m.namedChildren.filter fun c => (UnitKind.ofMember? c).isSome).map fun c => (around ++ [n], c)
      else listing (around ++ [n]) m
  else []
termination_by sizeOf n
decreasing_by exact sizeOf_lt_of_mem_bodyOf _inBody

variable {root n m o : Node} {around chain : List Node}

/-- What a node in a body adds to a listing, where the chain ends with the owner of the body. -/
def listingIn (chain : List Node) (m : Node) : List (List Node × Node) :=
  if (UnitKind.ofMember? m).isSome then [(chain, m)]
  else if m.is .enumBodyDeclarations then
    (m.namedChildren.filter fun c => (UnitKind.ofMember? c).isSome).map fun c => (chain, c)
  else listing chain m

theorem listing_of_type (type : (UnitKind.ofType? n).isSome = true) :
    listing around n = (around, n) :: (bodyOf n).flatMap (listingIn (around ++ [n])) := by
  rw [listing, if_pos type]
  congr 1
  rw [List.flatMap_subtype (g := listingIn (around ++ [n])) (fun m _ => rfl), List.unattach_attach]

theorem listing_eq_nil (other : (UnitKind.ofType? n).isSome = false) : listing around n = [] := by
  rw [listing, if_neg (by simp [other])]

theorem isType_of_mem_listing {entry : List Node × Node} (h : entry ∈ listing around n) :
    (UnitKind.ofType? n).isSome = true := by
  cases type : (UnitKind.ofType? n).isSome with
  | true => rfl
  | false =>
    rw [listing_eq_nil type] at h
    cases h

theorem mem_listing_self (type : (UnitKind.ofType? n).isSome = true) : (around, n) ∈ listing around n := by
  rw [listing_of_type type]
  exact List.mem_cons_self

theorem UnitKind.not_type_of_is (is : n.is .enumBodyDeclarations = true) :
    (UnitKind.ofType? n).isSome = false := by
  rw [Node.is, beq_iff_eq] at is
  rw [ofType?, is]
  rfl

/-- What a node in a body adds is a member of the owner, or belongs to a type in the body. -/
theorem mem_listingIn {entry : List Node × Node} : entry ∈ listingIn chain m ↔
    (UnitKind.ofMember? entry.2).isSome = true ∧ entry.1 = chain ∧
        (entry.2 = m ∨ m.is .enumBodyDeclarations = true ∧ entry.2 ∈ m.namedChildren) ∨
      (UnitKind.ofType? m).isSome = true ∧ entry ∈ listing chain m := by
  obtain ⟨around, n⟩ := entry
  by_cases member : (UnitKind.ofMember? m).isSome = true
  · have noType : (UnitKind.ofType? m).isSome ≠ true := by
      intro type
      rw [UnitKind.ofMember?_eq_none type] at member
      cases member
    have noPart := UnitKind.not_is_enumBodyDeclarations (isSome_of?_of_member member)
    rw [listingIn, if_pos member]
    simp only [List.mem_singleton, Prod.mk.injEq, noPart, noType, false_and, or_false,
      Bool.false_eq_true]
    constructor
    · rintro ⟨rfl, rfl⟩
      exact ⟨member, rfl, rfl⟩
    · rintro ⟨-, rfl, rfl⟩
      exact ⟨rfl, rfl⟩
  · have other : n = m → ¬ (UnitKind.ofMember? n).isSome = true := by
      rintro rfl
      exact member
    by_cases part : m.is .enumBodyDeclarations = true
    · rw [listingIn, if_neg member, if_pos part]
      simp only [List.mem_map, List.mem_filter, Prod.mk.injEq, part, UnitKind.not_type_of_is part,
        true_and, false_and, or_false, Bool.false_eq_true]
      constructor
      · rintro ⟨c, ⟨mem, kind⟩, rfl, rfl⟩
        exact ⟨kind, rfl, Or.inr mem⟩
      · rintro ⟨kind, rfl, same | mem⟩
        · exact absurd kind (other same)
        · exact ⟨n, ⟨mem, kind⟩, rfl, rfl⟩
    · rw [listingIn, if_neg member, if_neg part]
      constructor
      · intro mem
        exact Or.inr ⟨isType_of_mem_listing mem, mem⟩
      · rintro (⟨kind, -, same | ⟨is, -⟩⟩ | ⟨-, mem⟩)
        · exact absurd kind (other same)
        · exact absurd is part
        · exact mem

theorem typesDirect_singleton : TypesDirect [n] := by
  intro owner inner within
  have := within.length_le
  simp at this

theorem typesDirect_concat : TypesDirect (chain ++ [o, n]) ↔
    TypesDirect (chain ++ [o]) ∧ ((UnitKind.ofType? n).isSome = true → n ∈ bodyOf o) := by
  have split : chain ++ [o, n] = chain ++ [o] ++ [n] := by simp
  constructor
  · intro direct
    constructor
    · intro owner inner within
      apply direct owner inner
      rw [split]
      exact within.trans (List.prefix_append _ _).isInfix
    · exact direct o n (List.suffix_append chain [o, n]).isInfix
  · rintro ⟨before, last⟩ owner inner within type
    rw [split, List.infix_concat_iff] at within
    rcases within with atEnd | earlier
    · obtain ⟨front, same⟩ := atEnd
      have ends : front ++ [owner] ++ [inner] = chain ++ [o] ++ [n] := by simpa using same
      obtain ⟨owners, inners⟩ := List.append_inj' ends rfl
      obtain rfl : inner = n := List.singleton_inj.1 inners
      obtain rfl : owner = o := List.singleton_inj.1 (List.append_inj' owners rfl).2
      exact last type
    · exact before owner inner earlier type

/-- The listing of a declared type lists declarations below it. -/
theorem declared_of_mem_listing (type : (UnitKind.ofType? n).isSome = true)
    (declared : Declared root around n) (direct : TypesDirect (around ++ [n])) :
    ∀ entry ∈ listing around n,
      Declared root entry.1 entry.2 ∧ TypesDirect (entry.1 ++ [entry.2]) := by
  generalize size : sizeOf n = k
  induction k using Nat.strongRecOn generalizing n around with
  | ind k ih =>
    intro entry mem
    rw [listing_of_type type, List.mem_cons, List.mem_flatMap] at mem
    rcases mem with rfl | ⟨m, inBody, mem⟩
    · exact ⟨declared, direct⟩
    · rw [mem_listingIn] at mem
      obtain ⟨chain, c⟩ := entry
      rcases mem with ⟨member, rfl, place⟩ | ⟨typeM, mem⟩
      · have inside : c ∈ bodyOf n ∨ AfterConstants n c := by
          rcases place with rfl | ⟨is, mem⟩
          · exact Or.inl inBody
          · exact Or.inr ⟨m, inBody, is, mem⟩
        refine ⟨declared.inside type inside (isSome_of?_of_member member), ?_⟩
        rw [List.append_assoc]
        apply typesDirect_concat.2
        refine ⟨direct, fun typeC => ?_⟩
        rw [UnitKind.ofMember?_eq_none typeC] at member
        cases member
      · apply ih (sizeOf m) (size ▸ sizeOf_lt_of_mem_bodyOf inBody) typeM _ _ rfl (chain, c) mem
        · exact declared.inside type (Or.inl inBody) (isSome_of?_of_type typeM)
        · rw [List.append_assoc]
          exact typesDirect_concat.2 ⟨direct, fun _ => inBody⟩

/-- With a type a listing lists the declarations inside it, but for types after the constants. -/
theorem mem_listing_inside (listed : (chain, o) ∈ listing around n)
    (type : (UnitKind.ofType? o).isSome = true) (unit : (UnitKind.of? m).isSome = true)
    (member : m ∈ bodyOf o ∨ AfterConstants o m)
    (direct : (UnitKind.ofType? m).isSome = true → m ∈ bodyOf o) :
    (chain ++ [o], m) ∈ listing around n := by
  have own : (chain ++ [o], m) ∈ (bodyOf o).flatMap (listingIn (chain ++ [o])) := by
    apply List.mem_flatMap.2
    by_cases typeM : (UnitKind.ofType? m).isSome = true
    · exact ⟨m, direct typeM, mem_listingIn.2 (Or.inr ⟨typeM, mem_listing_self typeM⟩)⟩
    · have memberM : (UnitKind.ofMember? m).isSome = true := by
        rw [UnitKind.of?, Option.isSome_or, Bool.or_eq_true] at unit
        exact unit.resolve_left typeM
      rcases member with inBody | ⟨part, inBody, is, mem⟩
      · exact ⟨m, inBody, mem_listingIn.2 (Or.inl ⟨memberM, rfl, Or.inl rfl⟩)⟩
      · exact ⟨part, inBody, mem_listingIn.2 (Or.inl ⟨memberM, rfl, Or.inr ⟨is, mem⟩⟩)⟩
  -- the owner is listed below some node of the body, unless it is the top of the listing itself
  generalize size : sizeOf n = k
  induction k using Nat.strongRecOn generalizing n around with
  | ind k ih =>
    have typeN := isType_of_mem_listing listed
    rw [listing_of_type typeN] at listed ⊢
    apply List.mem_cons_of_mem
    rcases List.mem_cons.1 listed with same | below
    · cases same
      exact own
    · obtain ⟨c, inBody, below⟩ := List.mem_flatMap.1 below
      apply List.mem_flatMap.2
      refine ⟨c, inBody, mem_listingIn.2 ?_⟩
      rcases mem_listingIn.1 below with ⟨memberO, -⟩ | ⟨typeC, below⟩
      · rw [UnitKind.ofMember?_eq_none type] at memberO
        cases memberO
      · exact Or.inr ⟨typeC, ih _ (size ▸ sizeOf_lt_of_mem_bodyOf inBody) below rfl⟩

/-- The declarations that the units of a tree come from. -/
def listings (root : Node) : List (List Node × Node) :=
  root.children.flatMap (listing [])

/-- The listings of a tree are of all declarations but those in types after the constants. -/
theorem mem_listings : (around, n) ∈ listings root ↔
    Declared root around n ∧ TypesDirect (around ++ [n]) := by
  rw [listings, List.mem_flatMap]
  constructor
  · rintro ⟨top, mem, listed⟩
    have type := isType_of_mem_listing listed
    exact declared_of_mem_listing type (.top mem type) typesDirect_singleton _ listed
  · rintro ⟨declared, direct⟩
    induction declared with
    | top mem type => exact ⟨_, mem, mem_listing_self type⟩
    | @inside around owner n outer type member unit ih =>
      rw [List.append_assoc] at direct
      obtain ⟨before, last⟩ := typesDirect_concat.1 direct
      obtain ⟨top, mem, listed⟩ := ih before
      exact ⟨top, mem, mem_listing_inside listed type unit member last⟩

/-! ### The order of a listing -/

theorem preorderAll_eq_flatMap (ns : List Node) : Node.preorderAll ns = ns.flatMap Node.preorder := by
  induction ns with
  | nil => rfl
  | cons n ns ih => rw [Node.preorderAll, ih, List.flatMap_cons]

theorem preorder_sublist (mem : m ∈ n.children) : m.preorder.Sublist (Node.preorderAll n.children) := by
  rw [preorderAll_eq_flatMap]
  have one := (List.singleton_sublist.2 mem).flatMap Node.preorder
  rwa [List.flatMap_singleton] at one

theorem sublist_preorderAll (ns : List Node) : ns.Sublist (Node.preorderAll ns) := by
  have each := List.Sublist.flatMap_right ns (f := fun n => [n]) (g := Node.preorder) fun n _ => by
    rw [Node.preorder_eq]
    exact List.singleton_sublist.2 List.mem_cons_self
  rwa [List.flatMap_singleton', ← preorderAll_eq_flatMap] at each

theorem flatMap_bodyOf_sublist {f : Node → List Node}
    (each : ∀ m ∈ bodyOf n, (f m).Sublist m.preorder) :
    ((bodyOf n).flatMap f).Sublist (Node.preorderAll n.children) := by
  apply (List.Sublist.flatMap_right _ each).trans
  rw [bodyOf]
  cases found : n.child? .body with
  | none => simp
  | some body =>
    have named : body.namedChildren.Sublist body.children := List.filter_sublist
    apply (named.flatMap Node.preorder).trans
    rw [← preorderAll_eq_flatMap]
    apply List.Sublist.trans _ (preorder_sublist (Node.mem_children_of_child? found))
    rw [Node.preorder_eq]
    exact List.sublist_cons_self _ _

/-- The declarations of a listing come in the order of the text. -/
theorem listing_sublist (around : List Node) (n : Node) :
    ((listing around n).map Prod.snd).Sublist n.preorder := by
  generalize size : sizeOf n = k
  induction k using Nat.strongRecOn generalizing n around with
  | ind k ih =>
    cases type : (UnitKind.ofType? n).isSome with
    | false =>
      rw [listing_eq_nil type]
      exact List.nil_sublist _
    | true =>
      rw [listing_of_type type, List.map_cons, List.map_flatMap, Node.preorder_eq]
      apply List.Sublist.cons_cons
      apply flatMap_bodyOf_sublist
      intro m inBody
      rw [listingIn]
      split
      · rw [Node.preorder_eq]
        exact List.singleton_sublist.2 List.mem_cons_self
      · split
        · rw [List.map_map, Node.preorder_eq]
          have members : ((m.namedChildren.filter fun c => (UnitKind.ofMember? c).isSome).map
              (Prod.snd ∘ fun c => (around ++ [n], c))).Sublist m.children := by
            have plain : (Prod.snd ∘ fun c => (around ++ [n], c)) = (id : Node → Node) := rfl
            rw [plain, List.map_id]
            exact List.filter_sublist.trans List.filter_sublist
          exact (members.trans (sublist_preorderAll _)).trans (List.sublist_cons_self _ _)
        · exact ih _ (size ▸ sizeOf_lt_of_mem_bodyOf inBody) _ _ rfl

theorem listings_sublist (root : Node) :
    ((listings root).map Prod.snd).Sublist (Node.preorderAll root.children) := by
  rw [listings, List.map_flatMap, preorderAll_eq_flatMap]
  exact List.Sublist.flatMap_right _ fun n _ => listing_sublist [] n

theorem mem_preorderAll_of_mem_children {ns : List Node} (inside : n ∈ Node.preorderAll ns)
    (h : m ∈ n.children) : m ∈ Node.preorderAll ns := by
  obtain ⟨top, mem, below⟩ := Node.mem_preorderAll.1 inside
  have inner := Node.mem_preorder_of_mem_children h (Node.self_mem_preorder m)
  exact Node.mem_preorderAll.2 ⟨top, mem, Node.mem_preorder_trans below inner⟩

theorem mem_preorderAll_of_mem_bodyOf {ns : List Node} (inside : n ∈ Node.preorderAll ns)
    (h : m ∈ bodyOf n) : m ∈ Node.preorderAll ns := by
  obtain ⟨body, inNode, inBody⟩ := exists_body h
  exact mem_preorderAll_of_mem_children (mem_preorderAll_of_mem_children inside inNode) inBody

theorem Declared.mem_preorderAll (declared : Declared root around n) :
    n ∈ Node.preorderAll root.children := by
  induction declared with
  | top mem _ => exact Node.mem_preorderAll.2 ⟨_, mem, Node.self_mem_preorder _⟩
  | inside _ _ member _ ih =>
    rcases member with inBody | ⟨part, inBody, _, inPart⟩
    · exact mem_preorderAll_of_mem_bodyOf ih inBody
    · exact mem_preorderAll_of_mem_children (mem_preorderAll_of_mem_bodyOf ih inBody)
        (Node.mem_children_of_mem_namedChildren inPart)

theorem sizeOf_le_of_mem_preorder (h : m ∈ n.preorder) : sizeOf m ≤ sizeOf n := by
  apply Node.preorder_induction (motive := fun k => sizeOf k ≤ sizeOf n) _ (Nat.le_refl _) h
  intro k bound c hc
  have := Node.sizeOf_lt_of_mem_children hc
  omega

/-! ### Units of a text -/

section

variable {text : String} (clean : (parse text.toList).hasError = false)
include clean

theorem belongs_of_mem (inside : n ∈ Node.preorderAll (parse text.toList).children) :
    n.Belongs text.toList := by
  obtain ⟨top, mem, below⟩ := Node.mem_preorderAll.1 inside
  exact (Node.belongs_of_mem_parse clean mem).inside below

theorem nodup_preorderAll : (Node.preorderAll (parse text.toList).children).Nodup := by
  have apart := (placed_parse clean).pairwise_preorder
  apply apart.imp_of_mem
  rintro a b ha hb order rfl
  -- a node inside another is smaller, and one after it begins where the other has ended
  rcases order with inside | after
  · obtain ⟨c, hc, below⟩ := Node.mem_preorderAll.1 inside
    have smaller := Node.sizeOf_lt_of_mem_children hc
    have := sizeOf_le_of_mem_preorder below
    omega
  · have := (belongs_of_mem clean ha).spans.wide
    omega

theorem declaredName_of_mem (inside : n ∈ Node.preorderAll (parse text.toList).children)
    (unit : (UnitKind.of? n).isSome = true) : declaredName (.ofString text) n ≠ "" :=
  declaredName_ne_empty (belongs_of_mem clean inside) (anchored_of_mem_parse clean inside) unit

end

variable {source : Source} {package : String}

theorem describes_ofNode {kind : UnitKind} (unit : UnitKind.of? n = some kind) :
    (CodeUnit.ofNode source kind (declaredName source n)
      (nameWithin package ((around ++ [n]).map (declaredName source)))
      (around.getLast?.map (declaredName source)) n).Describes source package around n :=
  ⟨unit, rfl, rfl, rfl, rfl, rfl, rfl, rfl⟩

/-- What a node in a body adds to the units of its owner. -/
def unitsIn (source : Source) (owner qualified : String) (m : Node) : List CodeUnit :=
  if (UnitKind.ofMember? m).isSome then (memberUnit? source owner qualified m).toList
  else if m.is .enumBodyDeclarations then m.namedChildren.filterMap (memberUnit? source owner qualified)
  else typeUnits source qualified (some owner) m

theorem typeUnits_of_type {kind : UnitKind} {scope : String} {parent : Option String}
    (type : UnitKind.ofType? n = some kind) (named : declaredName source n ≠ "") :
    typeUnits source scope parent n =
      .ofNode source kind (declaredName source n) (qualify scope (declaredName source n)) parent n ::
        (bodyOf n).flatMap (unitsIn source (declaredName source n)
          (qualify scope (declaredName source n))) := by
  have some : (declaredName source n).isEmpty ≠ true := by
    rw [ne_eq, String.isEmpty_iff]
    exact named
  rw [typeUnits, type]
  dsimp only
  rw [if_neg some, bodyOf]
  congr 1
  split
  · rename_i none
    rw [none]
    rfl
  · rename_i body found
    rw [found, Option.elim_some, List.flatMap_subtype
      (g := unitsIn source (declaredName source n) (qualify scope (declaredName source n)))
      (fun m _ => rfl), List.unattach_attach]

theorem typeUnits_eq_nil {scope : String} {parent : Option String}
    (other : (UnitKind.ofType? n).isSome = false) : typeUnits source scope parent n = [] := by
  rw [Option.isSome_eq_false_iff, Option.isNone_iff_eq_none] at other
  rw [typeUnits, other]

theorem forall₂_flatMap {α β γ : Type} {R : β → γ → Prop} {f : α → List β} {g : α → List γ}
    {xs : List α} (each : ∀ x ∈ xs, List.Forall₂ R (f x) (g x)) :
    List.Forall₂ R (xs.flatMap f) (xs.flatMap g) := by
  induction xs with
  | nil => exact .nil
  | cons x xs ih =>
    rw [List.flatMap_cons, List.flatMap_cons]
    apply List.rel_append (each x List.mem_cons_self)
    exact ih fun y hy => each y (List.mem_cons_of_mem x hy)

theorem forall₂_filterMap {α β γ : Type} {R : β → γ → Prop} {f : α → Option β} {g : α → γ}
    {p : α → Bool} {xs : List α} (taken : ∀ x ∈ xs, p x = true → ∃ y, f x = some y ∧ R y (g x))
    (left : ∀ x ∈ xs, p x = false → f x = none) :
    List.Forall₂ R (xs.filterMap f) ((xs.filter p).map g) := by
  induction xs with
  | nil => exact .nil
  | cons x xs ih =>
    have rest := ih (fun y hy => taken y (List.mem_cons_of_mem x hy))
      fun y hy => left y (List.mem_cons_of_mem x hy)
    cases chosen : p x with
    | false =>
      rw [List.filterMap_cons_none (left x List.mem_cons_self chosen),
        List.filter_cons_of_neg (by simp [chosen])]
      exact rest
    | true =>
      obtain ⟨y, found, related⟩ := taken x List.mem_cons_self chosen
      rw [List.filterMap_cons_some found, List.filter_cons_of_pos chosen, List.map_cons]
      exact .cons related rest

theorem exists_of_forall₂ {α β : Type} {R : α → β → Prop} {xs : List α} {ys : List β} {y : β}
    (h : List.Forall₂ R xs ys) (mem : y ∈ ys) : ∃ x ∈ xs, R x y := by
  induction h with
  | nil => cases mem
  | cons related _ ih =>
    rcases List.mem_cons.1 mem with rfl | mem
    · exact ⟨_, List.mem_cons_self, related⟩
    · obtain ⟨x, hx, related⟩ := ih mem
      exact ⟨x, List.mem_cons_of_mem _ hx, related⟩

section

variable {text : String} (clean : (parse text.toList).hasError = false)
include clean

/-- The unit of a member of a type. -/
theorem describes_memberUnit? (named : ∀ a ∈ around ++ [n], declaredName (.ofString text) a ≠ "")
    (inside : m ∈ Node.preorderAll (parse text.toList).children)
    (member : (UnitKind.ofMember? m).isSome = true) :
    ∃ u, memberUnit? (.ofString text) (declaredName (.ofString text) n)
        (nameWithin package ((around ++ [n]).map (declaredName (.ofString text)))) m = some u ∧
      u.Describes (.ofString text) package (around ++ [n]) m := by
  obtain ⟨kind, known⟩ := Option.isSome_iff_exists.1 member
  have unit : UnitKind.of? m = some kind := by
    have noType : UnitKind.ofType? m = none := by
      cases type : UnitKind.ofType? m with
      | none => rfl
      | some other =>
        rw [UnitKind.ofMember?_eq_none (by rw [type]; rfl)] at known
        cases known
    rw [UnitKind.of?, noType, known]
    rfl
  have own : declaredName (.ofString text) m ≠ "" :=
    declaredName_of_mem clean inside (by rw [unit]; rfl)
  have names : ∀ x ∈ (around ++ [n]).map (declaredName (.ofString text)), x ≠ "" := by
    intro x hx
    obtain ⟨a, ha, rfl⟩ := List.mem_map.1 hx
    exact named a ha
  have scope : nameWithin package ((around ++ [n]).map (declaredName (.ofString text))) ≠ "" :=
    nameWithin_ne_empty (by simp) names
  have qualified : nameWithin package ((around ++ [n]).map (declaredName (.ofString text))) ++ "." ++
      declaredName (.ofString text) m =
      nameWithin package ((around ++ [n] ++ [m]).map (declaredName (.ofString text))) := by
    have parts : (around ++ [n] ++ [m]).map (declaredName (.ofString text)) =
        (around ++ [n]).map (declaredName (.ofString text)) ++ [declaredName (.ofString text) m] :=
      List.map_append
    rw [parts, nameWithin_concat names, qualify, if_neg]
    rwa [String.isEmpty_iff]
  refine ⟨_, ?_, describes_ofNode unit⟩
  rw [memberUnit?, known, Option.map_some]
  dsimp only
  rw [if_neg (by rwa [String.isEmpty_iff]), qualified]
  simp

/-- The units of a type come from its listing. -/
theorem describes_typeUnits (named : ∀ a ∈ around, declaredName (.ofString text) a ≠ "")
    (inside : n ∈ Node.preorderAll (parse text.toList).children) :
    List.Forall₂ (fun u entry => CodeUnit.Describes (.ofString text) package entry.1 entry.2 u)
      (typeUnits (.ofString text) (nameWithin package (around.map (declaredName (.ofString text))))
        (around.getLast?.map (declaredName (.ofString text))) n)
      (listing around n) := by
  generalize size : sizeOf n = k
  induction k using Nat.strongRecOn generalizing n around with
  | ind k ih =>
    cases type : UnitKind.ofType? n with
    | none =>
      rw [typeUnits_eq_nil (by rw [type]; rfl), listing_eq_nil (by rw [type]; rfl)]
      exact .nil
    | some kind =>
      have isType : (UnitKind.ofType? n).isSome = true := by rw [type]; rfl
      have own : declaredName (.ofString text) n ≠ "" :=
        declaredName_of_mem clean inside (isSome_of?_of_type isType)
      have namedAll : ∀ a ∈ around ++ [n], declaredName (.ofString text) a ≠ "" := by
        simpa [or_imp, forall_and] using ⟨named, own⟩
      have qualified : qualify (nameWithin package (around.map (declaredName (.ofString text))))
          (declaredName (.ofString text) n) =
          nameWithin package ((around ++ [n]).map (declaredName (.ofString text))) := by
        rw [List.map_append, List.map_singleton, nameWithin_concat]
        intro x hx
        obtain ⟨a, ha, rfl⟩ := List.mem_map.1 hx
        exact named a ha
      rw [typeUnits_of_type type own, listing_of_type isType, qualified]
      -- the type itself, and then node by node what its body adds on both sides
      apply List.Forall₂.cons
      · apply describes_ofNode
        rw [UnitKind.of?, type]
        rfl
      · apply forall₂_flatMap
        intro m inBody
        have insideM := mem_preorderAll_of_mem_bodyOf inside inBody
        rw [unitsIn, listingIn]
        split
        · rename_i member
          obtain ⟨u, same, describes⟩ := describes_memberUnit? clean namedAll insideM member
          rw [same]
          exact .cons describes .nil
        · split
          · apply forall₂_filterMap
            · intro c hc member
              apply describes_memberUnit? clean namedAll _ member
              exact mem_preorderAll_of_mem_children insideM (Node.mem_children_of_mem_namedChildren hc)
            · intro c hc other
              rw [Option.isSome_eq_false_iff, Option.isNone_iff_eq_none] at other
              rw [memberUnit?, other]
              rfl
          · have below := ih _ (size ▸ sizeOf_lt_of_mem_bodyOf inBody) namedAll insideM rfl
            rw [List.getLast?_concat, Option.map_some] at below
            exact below

/-- The units of a text come from the listings of its tree. -/
theorem describes_units :
    let u := CompilationUnit.ofString text
    List.Forall₂ (fun unit entry => unit.Describes u.source u.packageName entry.1 entry.2) u.units
      (listings u.root) := by
  intro u
  apply forall₂_flatMap
  intro n mem
  have top : n ∈ Node.preorderAll (parse text.toList).children :=
    Node.mem_preorderAll.2 ⟨n, mem, Node.self_mem_preorder n⟩
  have units : List.Forall₂ _ (typeUnits _ (nameWithin u.packageName ([].map _)) _ n) _ :=
    describes_typeUnits clean (fun a ha => by cases ha) top
  have scope : nameWithin u.packageName [] = u.packageName := by
    rw [nameWithin]
    split
    · rename_i unnamed
      rw [String.isEmpty_iff] at unnamed
      rw [unnamed]
      rfl
    · exact String.intercalate_singleton
  rw [List.map_nil, scope] at units
  exact units

end

/-- The units of a text without syntax errors are, in the order of the text and each once, its declared
types, methods and constructors, but for the types after the constants of an enumeration and what is
inside them. -/
theorem units_are_declared (text : String)
    (clean : (CompilationUnit.ofString text).hasSyntaxErrors = false) :
    let u := CompilationUnit.ofString text
    ∃ entries : List (List Node × Node),
      List.Forall₂ (fun unit entry => unit.Describes u.source u.packageName entry.1 entry.2)
        u.units entries ∧
      (∀ around n, (around, n) ∈ entries ↔ Declared u.root around n ∧ TypesDirect (around ++ [n])) ∧
      (entries.map Prod.snd).Sublist u.root.preorder ∧
      (entries.map Prod.snd).Nodup := by
  intro u
  have inOrder := listings_sublist u.root
  refine ⟨listings u.root, describes_units clean, fun around n => mem_listings, ?_, ?_⟩
  · rw [Node.preorder_eq]
    exact inOrder.trans (List.sublist_cons_self _ _)
  · exact (nodup_preorderAll clean).sublist inOrder

/-- A text with types inside types, one of them after the constants of an enumeration. -/
def nestedTypesText : String :=
  "package p; class A \x7b interface I \x7b record R(int i) \x7b\x7d \x7d " ++
    "enum E \x7b X; void f() \x7b\x7d class B \x7b\x7d \x7d \x7d"

set_option maxRecDepth 100000 in
theorem read_nestedTypesText :
    let u := CompilationUnit.ofString nestedTypesText
    (!u.hasSyntaxErrors && u.packageName == "p" && u.root.children.any fun a =>
      (UnitKind.ofType? a).isSome && (bodyOf a).any fun e =>
        (UnitKind.ofType? e).isSome && (bodyOf e).any fun part =>
          part.is .enumBodyDeclarations && part.namedChildren.any fun f =>
            (UnitKind.ofMember? f).isSome &&
              [a, e, f].map (declaredName u.source) == ["A", "E", "f"]) = true := by
  rw [CompilationUnit.ofString_eq_ofCharsOf]
  decide +kernel

/-- A method of the enumeration is a unit there. -/
theorem units_are_declared_of_nestedTypes :
    let u := CompilationUnit.ofString nestedTypesText
    u.hasSyntaxErrors = false ∧
      ∃ unit ∈ u.units, unit.qualifiedName = "p.A.E.f" ∧ unit.parent = some "E" := by
  intro u
  have read := read_nestedTypesText
  simp only [Bool.and_eq_true, Bool.not_eq_true', List.any_eq_true, beq_iff_eq] at read
  obtain ⟨⟨clean, package⟩, a, inRoot, typeA, e, inA, typeE, part, inE, is, f, inPart, member, names⟩ :=
    read
  obtain ⟨entries, describes, complete, -, -⟩ := units_are_declared nestedTypesText clean
  have noType : (UnitKind.ofType? f).isSome ≠ true := by
    intro type
    rw [UnitKind.ofMember?_eq_none type] at member
    cases member
  have listed : ([a, e], f) ∈ entries := by
    apply (complete [a, e] f).2
    constructor
    · have declared := ((Declared.top inRoot typeA).inside typeA (Or.inl inA) (isSome_of?_of_type typeE))
      exact declared.inside typeE (Or.inr ⟨part, inE, is, inPart⟩) (isSome_of?_of_member member)
    · show TypesDirect ([a] ++ [e, f])
      apply typesDirect_concat.2
      constructor
      · show TypesDirect ([] ++ [a, e])
        exact typesDirect_concat.2 ⟨typesDirect_singleton, fun _ => inA⟩
      · intro type
        exact absurd type noType
  obtain ⟨unit, inUnits, own⟩ := exists_of_forall₂ describes listed
  refine ⟨clean, unit, inUnits, ?_, ?_⟩
  · rw [own.qualifiedName, package]
    show nameWithin "p" ([a, e, f].map (declaredName u.source)) = _
    rw [names]
    decide
  · rw [own.parent]
    simp only [List.map_cons, List.map_nil, List.cons.injEq] at names
    exact congrArg some names.2.1

end MonoTap.Java
