import MonoTap.Proofs.MovedTypes
import MonoTap.Proofs.RelocatedNames

/-!
# Types in relocated trees

In a relocated tree an expression has the same type, if the relocation keeps the texts that types are
read from, and leaves out no comment that is taken for a type argument, an operand or an argument.
-/

set_option autoImplicit false

namespace MonoTap.Java

namespace Node

variable {text : List Char} {n : Node}

theorem Belongs.typeIdentifier_leaf (h : n.Belongs text) (is : n.is .typeIdentifier = true) :
    n.children = [] :=
  h.leaf is rfl fun s => by cases s <;> decide +kernel

end Node

end MonoTap.Java

namespace MonoTap.Receiver

open Java (Cursor Kind Node Relocation Solid opensComment telling)
open Java.Node (relocateAll)
open Text (Source)

variable {text : String} {source target : Source} {e : Relocation} {m n root : Node} {c : Cursor}
  {ns : List Node}

theorem unannotated_relocate (n : Node) :
    unannotated (n.relocate e) = relocateAll e (unannotated n) := by
  rw [unannotated, Node.namedChildren_relocate, Node.filter_relocateAll fun c => by
    rw [Node.isAny_relocate], unannotated]

theorem isTypeName_relocate (n : Node) : isTypeName (n.relocate e) = isTypeName n :=
  Node.isAny_relocate n _

theorem not_drops_of_isTypeName (is : isTypeName n = true) : e.drops n = false := by
  obtain ⟨k, known, is⟩ := List.any_eq_true.1 is
  refine Node.not_drops_of_is is ?_
  simp only [List.mem_cons, List.not_mem_nil, or_false] at known
  rcases known with rfl | rfl <;> rfl

section

variable (belongs : ∀ m ∈ root.children, m.Belongs text.toList)
  (faithful : e.Faithful source target root)
include belongs faithful

/-! ### Types that are spelled out -/

theorem typeName_relocate (hn : n ∈ Node.preorderAll root.children) (is : isTypeName n = true) :
    (n.relocate e).text target = n.text source := by
  have kept : e.drops n = false := not_drops_of_isTypeName is
  rw [isTypeName, Node.isAny, List.any_cons, List.any_cons, List.any_nil, Bool.or_false,
    Bool.or_eq_true] at is
  rcases is with is | is
  · exact faithful.leaf n hn ((belongs_below belongs hn).typeIdentifier_leaf is) kept
  · refine faithful.name n hn ?_
    rw [Node.isName, Node.isAny, List.any_cons, is, Bool.true_or, Bool.or_true]

omit belongs in
/-- An argument of a type. -/
theorem argumentText?_relocate (hn : n ∈ Node.preorderAll root.children)
    (is : n.is .typeArguments = true) (hm : m ∈ n.children) :
    argumentText? target (m.relocate e) = argumentText? source m := by
  have same := faithful.arguments n hn is
  have deeper {c : Node} (hc : c ∈ m.children) : c ∈ Node.preorderAll n.children :=
    Node.mem_preorderAll.2 ⟨m, hm, m.mem_preorder_of_mem_children hc c.self_mem_preorder⟩
  have own := (same m (Node.mem_preorderAll.2 ⟨m, hm, m.self_mem_preorder⟩)).2
  have bounded : ((m.relocate e).children.any fun c => c.label == .token "extends") =
      m.children.any fun c => c.label == .token "extends" := by
    rw [Node.children_relocate, Node.relocateAll_of_kept fun c hc => (same c (deeper hc)).1, List.any_map]
    exact congrArg (List.any m.children) (funext fun c => by rw [Function.comp_apply, Node.label_relocate])
  have inside {c : Node} (last : (unannotated m).getLast? = some c) : c ∈ m.children :=
    Node.mem_children_of_mem_namedChildren (List.mem_filter.1 (List.mem_of_getLast? last)).1
  rw [argumentText?, Node.is_relocate, bounded, unannotated_relocate,
    Node.getLast?_relocateAll fun c last => (same c (deeper (inside last))).1, own, argumentText?]
  split
  · split
    · cases last : (unannotated m).getLast? with
      | none => rfl
      | some c => exact congrArg some (same c (deeper (inside last))).2
    · rfl
  · rfl

/-- The type that a node spells out. -/
theorem typeOfNode?_relocate (hn : n ∈ Node.preorderAll root.children) :
    typeOfNode? target (n.relocate e) = typeOfNode? source n := by
  have below {n c : Node} {p : Node → Bool} (hn : n ∈ Node.preorderAll root.children)
      (last : (n.namedChildren.filter p).getLast? = some c) :
      c ∈ Node.preorderAll root.children ∧ p c = true := by
    obtain ⟨hc, holds⟩ := List.mem_filter.1 (List.mem_of_getLast? last)
    exact ⟨mem_preorderAll_of_child (mem_preorder_of_below hn) (Node.mem_children_of_mem_namedChildren hc), holds⟩
  fun_induction typeOfNode? source n with
  | case1 n annotated c last ih =>
    have moved := Node.getLast?_relocateAll (faithful.annotated n hn annotated)
    rw [last, ← unannotated_relocate] at moved
    rw [typeOfNode?, Node.is_relocate, if_pos annotated]
    split
    · rename_i d last'
      cases moved.symm.trans last'
      exact ih (below hn last).1
    · rename_i last'
      cases moved.symm.trans last'
  | case2 n annotated last =>
    have moved := Node.getLast?_relocateAll (faithful.annotated n hn annotated)
    rw [last, ← unannotated_relocate] at moved
    rw [typeOfNode?, Node.is_relocate, if_pos annotated]
    split
    · rename_i d last'
      cases moved.symm.trans last'
    · rfl
  | case3 n plain name =>
    rw [typeOfNode?, Node.is_relocate, if_neg plain, isTypeName_relocate, if_pos name,
      typeName_relocate belongs faithful hn name]
  | case4 n plain noName generic =>
    rw [typeOfNode?, Node.is_relocate, if_neg plain, isTypeName_relocate, if_neg noName,
      Node.is_relocate, if_pos generic, Node.namedChildren_relocate,
      Node.filter_relocateAll isTypeName_relocate, Node.filter_relocateAll fun m => Node.is_relocate m _,
      Node.getLast?_relocateAll fun c last => not_drops_of_isTypeName (below hn last).2,
      Node.getLast?_relocateAll fun c last => Node.not_drops_of_is (below hn last).2 rfl]
    cases hhead : (n.namedChildren.filter isTypeName).getLast? with
    | none => rfl
    | some head =>
      obtain ⟨headBelow, name⟩ := below hn hhead
      simp only [Option.map_some, typeName_relocate belongs faithful headBelow name]
      cases hargs : (n.namedChildren.filter (·.is .typeArguments)).getLast? with
      | none => rfl
      | some args =>
        obtain ⟨argsBelow, is⟩ := below hn hargs
        have same := faithful.arguments args argsBelow is
        have kept : ∀ m ∈ args.namedChildren, e.drops m = false := fun m hm =>
          (same m (Node.mem_preorderAll.2 ⟨m, Node.mem_children_of_mem_namedChildren hm,
            m.self_mem_preorder⟩)).1
        have each : (args.relocate e).namedChildren.map (argumentText? target) =
            args.namedChildren.map (argumentText? source) := by
          rw [Node.namedChildren_relocate, Node.relocateAll_of_kept kept, List.map_map]
          exact List.map_congr_left fun m hm =>
            argumentText?_relocate faithful argsBelow is (Node.mem_children_of_mem_namedChildren hm)
        simp only [Option.map_some, Option.getD_some, each]
  | case5 n plain noName other =>
    rw [typeOfNode?, Node.is_relocate, if_neg plain, isTypeName_relocate, if_neg noName,
      Node.is_relocate, if_neg other]

theorem declarationType?_relocate {d : Declaration} (h : d.Within root)
    {inner? inner?' : Cursor → Option ResolvedType}
    (further : ∀ v : Cursor, v.Within root → inner?' (v.relocate e) = inner? v) :
    (d.relocate e).type? target inner?' = d.type? source inner? := by
  rw [Declaration.type?, Declaration.relocate]
  unfold Declaration.type?
  cases type : d.type with
  | none => rfl
  | some t =>
    obtain ⟨n, hn, part⟩ := h.type t type
    have inside : t ∈ n.children := by
      rcases part with found | found
      · exact Node.mem_children_of_child? found
      · exact Node.mem_children_of_mem_namedChildren (List.mem_of_find?_eq_some found)
    have below := mem_preorderAll_of_child hn inside
    have inferred : ((t.relocate e).text target == "var") = (t.text source == "var") := by
      rw [Bool.eq_iff_iff, beq_iff_eq, beq_iff_eq, faithful.word t below "var" List.mem_cons_self]
    simp only [Option.map_some, inferred]
    split
    · cases value : d.value with
      | none => rfl
      | some v => exact further v (h.value v value)
    · exact typeOfNode?_relocate belongs faithful below

/-! ### Types of expressions -/

omit belongs faithful in
theorem isFactory_of {object : Node} (call : n.is .methodInvocation = true)
    (found : n.child? .object = some object)
    (mono : (object.text source == monoSimpleName || object.text source == monoName) = true)
    (just : (((n.child? .name).map (Node.text source)).getD "" == "just" ||
      ((n.child? .name).map (Node.text source)).getD "" == "justOrEmpty") = true) :
    n.isFactory source = true := by
  rw [Node.isFactory, call, found, Option.any_some, List.contains_cons, List.contains_cons,
    List.contains_nil, Bool.or_false, mono]
  cases named : n.child? .name with
  | none =>
    rw [named] at just
    cases just
  | some m =>
    rw [named] at just
    rw [Option.any_some, List.contains_cons, List.contains_cons, List.contains_nil, Bool.or_false]
    exact just

variable {name? name?' : Cursor → Option ResolvedType}

omit belongs faithful in
theorem literalTypeOf?_relocate (n : Node) : literalTypeOf? (n.relocate e) = literalTypeOf? n := by
  rw [literalTypeOf?, Node.label_relocate, literalTypeOf?]

omit faithful in
theorem argumentType_relocate (h : c.Within root)
    (further : ∀ v : Cursor, v.Within root → name?' (v.relocate e) = name? v) (mono : String) {name : String}
    (kept : (name == "just" || name == "justOrEmpty") = true → ∀ args,
      c.node.child? .arguments = some args → ∀ m ∈ args.children, e.drops m = false) :
    argumentType name?' mono name (c.relocate e) = argumentType name? mono name c := by
  rw [argumentType, argumentType, Cursor.node_relocate,
    Node.child?_relocate (belongs_children belongs h.mem_preorder)]
  split
  · rename_i factory
    cases found : c.node.child? .arguments with
    | none => rfl
    | some args =>
      have inside := kept factory args found
      have all : relocateAll e args.namedChildren = args.namedChildren.map (Node.relocate e) :=
        Node.relocateAll_of_kept fun m hm => inside m (Node.mem_children_of_mem_namedChildren hm)
      simp only [Option.map_some, Node.namedChildren_relocate, all]
      cases values : args.namedChildren with
      | nil => rfl
      | cons value more =>
        cases more with
        | cons => rfl
        | nil =>
          have place : ((c.down args).down value).Within root :=
            .down (.down h (Node.mem_children_of_child? found))
              (Node.mem_children_of_mem_namedChildren (values ▸ List.mem_cons_self))
          simp only [List.map_cons, List.map_nil, literalTypeOf?_relocate, Node.is_relocate]
          cases literalTypeOf? value with
          | some literal => rfl
          | none =>
            dsimp only
            split
            · rw [Cursor.down_relocate, Cursor.down_relocate, further _ place]
            · rfl
  · rfl

theorem factoryType_relocate (h : c.Within root) (call : c.node.is .methodInvocation = true)
    (below : c.node ∈ Node.preorderAll root.children)
    (further : ∀ v : Cursor, v.Within root → name?' (v.relocate e) = name? v) {mono name : String}
    (kept : (name == "just" || name == "justOrEmpty") = true → ∀ args,
      c.node.child? .arguments = some args → ∀ m ∈ args.children, e.drops m = false) :
    factoryType target name?' mono name (c.relocate e) = factoryType source name? mono name c := by
  have untyped := argumentType_relocate belongs h further mono kept
  rw [factoryType_eq, factoryType_eq, Cursor.node_relocate,
    Node.child?_relocate (belongs_children belongs h.mem_preorder)]
  cases found : c.node.child? .typeArguments with
  | none => exact untyped
  | some args =>
    have mem := Node.mem_children_of_child? found
    have is := (belongs_below belongs below).is_typeArguments call mem (Node.role_of_child? found)
    have same := faithful.arguments args (mem_preorderAll_of_child h.mem_preorder mem) is
    have inside {m : Node} (hm : m ∈ args.namedChildren) : m ∈ Node.preorderAll args.children :=
      Node.mem_preorderAll.2 ⟨m, Node.mem_children_of_mem_namedChildren hm, m.self_mem_preorder⟩
    have all : relocateAll e args.namedChildren = args.namedChildren.map (Node.relocate e) :=
      Node.relocateAll_of_kept fun m hm => (same m (inside hm)).1
    simp only [Option.map_some, Option.getD_some, Node.namedChildren_relocate, all]
    cases witness : args.namedChildren with
    | nil => exact untyped
    | cons argument more =>
      cases more with
      | cons => exact untyped
      | nil =>
        have spelled := (same argument (inside (witness ▸ List.mem_cons_self))).2
        simp only [List.map_cons, List.map_nil, spelled]

end

section

variable (program : root.is .program = true) (belongs : ∀ m ∈ root.children, m.Belongs text.toList)
  (scans : ∀ m ∈ Node.preorderAll root.children, m.Scans text.toList)
  (faithful : e.Faithful (.ofString text) target root)
  (sorted : root.children.Pairwise fun a b => a.start ≤ b.start)
  {name? name?' : Cursor → Option ResolvedType}
include program belongs scans faithful sorted

theorem typeWithin?_relocate (levels : Nat) (h : c.Within root)
    (further : ∀ v : Cursor, v.Within root → name?' (v.relocate e) = name? v) :
    typeWithin? target name?' levels (c.relocate e) = typeWithin? (.ofString text) name? levels c := by
  induction levels generalizing c with
  | zero => rfl
  | succ levels ih =>
    have place := h.mem_preorder
    have inside := belongs_children belongs place
    have declared {found found' : Option Declaration}
        (moved : found' = found.map (Declaration.relocate e))
        (within : ∀ d, found = some d → d.Within root) :
        found'.bind (·.type? target (typeWithin? target name?' levels)) =
          found.bind (·.type? (.ofString text) (typeWithin? (.ofString text) name? levels)) := by
      subst moved
      cases found with
      | none => rfl
      | some d => exact declarationType?_relocate belongs faithful (within d rfl) fun v hv => ih hv
    unfold typeWithin?
    dsimp only
    rw [Cursor.node_relocate, Node.label_relocate]
    split
    · rfl
    · rename_i k label
      have inner {l : Kind} (own : l = k) (other : (Java.Label.kind l == .kind .program) = false) :
          c.node.is l = true ∧ c.node ∈ Node.preorderAll root.children := by
        refine ⟨by rw [Node.is, label, own, beq_self_eq_true], below_of_within program h ?_⟩
        rw [Node.is, label, ← own]
        exact other
      split
      -- identifier
      · obtain ⟨is, below⟩ := inner rfl rfl
        have own := belongs_below belongs below
        rw [faithful.leaf _ below (own.identifier_leaf is) (Node.not_drops_of_is is rfl)]
        refine declared ?_ fun d found => within_declarationAround? h found
        exact declarationAround?_relocate belongs scans faithful sorted own.text_ne_empty
          ((scans _ below).not_opensComment is) h
      -- fieldAccess
      · rw [Node.child?_relocate inside, Node.child?_relocate inside]
        cases c.node.child? .object with
        | none => rfl
        | some object =>
          cases found : c.node.child? .field with
          | none => rfl
          | some field =>
            have isName : field.isName = true := by
              rw [Node.isName, Node.role_of_child? found]
              rfl
            have spelled := faithful.name field
              (mem_preorderAll_of_child place (Node.mem_children_of_child? found)) isName
            simp only [Option.map_some, Node.is_relocate, spelled]
            split
            · exact declared (fieldAround?_relocate belongs faithful h) fun d found =>
                within_fieldAround? h found
            · rfl
      -- parenthesizedExpression
      · obtain ⟨is, below⟩ := inner rfl rfl
        rw [Node.namedChildren_relocate, Node.head?_relocateAll (faithful.parenthesis _ below is)]
        cases first : c.node.namedChildren.head? with
        | none => rfl
        | some e =>
          have mem := Node.mem_children_of_mem_namedChildren (List.mem_of_mem_head? first)
          exact ih (.down h mem)
      -- castExpression
      · rw [Node.child?_relocate inside]
        cases found : c.node.child? .type with
        | none => rfl
        | some t =>
          exact typeOfNode?_relocate belongs faithful
            (mem_preorderAll_of_child place (Node.mem_children_of_child? found))
      -- methodInvocation
      · obtain ⟨is, below⟩ := inner rfl rfl
        rw [Node.child?_relocate inside]
        cases found : c.node.child? .object with
        | none => rfl
        | some object =>
          have mem := Node.mem_children_of_child? found
          have objectBelow := mem_preorderAll_of_child place mem
          have name : (((c.node.relocate e).child? .name).map (Node.text target)).getD "" =
              ((c.node.child? .name).map (Node.text (.ofString text))).getD "" := by
            rw [Node.child?_relocate inside]
            cases named : c.node.child? .name with
            | none => rfl
            | some m =>
              refine faithful.name m (mem_preorderAll_of_child place (Node.mem_children_of_child? named)) ?_
              rw [Node.isName, Node.role_of_child? named]
              rfl
          have same {word : String} (known : word ∈ telling) :
              ((object.relocate e).text target == word) = (object.text (.ofString text) == word) := by
            rw [Bool.eq_iff_iff, beq_iff_eq, beq_iff_eq, faithful.word object objectBelow word known]
          simp only [Option.map_some, name, same (by decide : monoSimpleName ∈ telling),
            same (by decide : monoName ∈ telling)]
          split
          · rename_i mono
            have spelled : (object.relocate e).text target = object.text (.ofString text) := by
              rw [Bool.or_eq_true, beq_iff_eq, beq_iff_eq] at mono
              rcases mono with mono | mono
              · exact mono ▸ (faithful.word object objectBelow _ (by decide)).2 mono
              · exact mono ▸ (faithful.word object objectBelow _ (by decide)).2 mono
            rw [spelled, factoryType_relocate belongs faithful h is below further fun just =>
              faithful.factory c.node below (isFactory_of is found mono just)]
          · split
            · exact ih (.down h mem)
            · rfl
      · rfl

theorem typeAfter?_relocate (hops : Nat) (h : c.Within root) :
    typeAfter? target hops (c.relocate e) = typeAfter? (.ofString text) hops c := by
  induction hops generalizing c with
  | zero => exact typeWithin?_relocate program belongs scans faithful sorted levels h fun _ _ => rfl
  | succ hops ih =>
    exact typeWithin?_relocate program belongs scans faithful sorted levels h fun v hv => ih hv

/-- An expression has the same type in the relocated tree. -/
theorem type?_relocate {lo hi : Nat} (placed : Java.Placed (Solid text.toList) lo root.children hi)
    (h : c.Within root) : type? target (c.relocate e) = type? (.ofString text) c := by
  have isNot {n : Node} (is : n.is .identifier = true) (program : n.is .program = true) : False := by
    rw [Node.is, beq_iff_eq] at is program
    rw [is] at program
    cases program
  have bounds : ∀ m ∈ root.preorder, m.is .identifier = true →
      m.start < (Source.ofString text).size := by
    intro m hm is
    rw [Node.preorder_eq] at hm
    rcases List.mem_cons.1 hm with rfl | hm
    · exact (isNot is program).elim
    · have spans := (belongs_below belongs hm).spans
      have := spans.last.le
      have wide := spans.wide
      rw [← Text.encode_eq, ← Source.toBytes_ofString, Source.length_toBytes] at this
      omega
  rw [type?, typeAfter?_relocate program belongs scans faithful sorted _ h, typeAfter?_eq_type? placed
    belongs (fun is => (isNot is program).elim) h bounds faithful.larger]

end

end MonoTap.Receiver
