import MonoTap.Proofs.Hops
import MonoTap.Proofs.MovedScopes

/-!
# Types and carriage returns

With carriage returns put in, a name is declared at the same place and an expression has the same type.
A type may be spelled over several lines, and then has the carriage returns too. A line comment among
type arguments counts as one of them and would take a carriage return along, so there must be none.
-/

set_option autoImplicit false

namespace MonoTap.Java

open Text (Source crlfText)

/-- A node of a text without faults, and without line comments among the arguments of a type. -/
structure Node.Fair (text : String) (n : Node) : Prop where
  belongs : n.Belongs text.toList
  scans : ∀ m ∈ n.preorder, m.Scans text.toList
  arguments : ∀ m ∈ n.preorder, m.isAny [.typeArguments, .wildcard] = true →
    ∀ c ∈ m.children, c.is .lineComment = false

namespace Node

variable {text : String} {s : Source} {n c : Node}

theorem Fair.inside (h : n.Fair text) (hc : c ∈ n.preorder) : c.Fair text where
  belongs := h.belongs.inside hc
  scans _ hm := h.scans _ (mem_preorder_trans hc hm)
  arguments _ hm := h.arguments _ (mem_preorder_trans hc hm)

theorem Fair.child (h : n.Fair text) (hc : c ∈ n.children) : c.Fair text :=
  h.inside (n.mem_preorder_of_mem_children hc c.self_mem_preorder)

/-- A name is the same as a node's text with and without carriage returns, or neither. -/
theorem Fair.text_eq_iff (h : n.Fair text) {name : String}
    (plain : opensComment name.toList = false) :
    (n.crlf (.ofString text)).text (Source.ofString text).crlf = crlfText name ↔
      n.text (.ofString text) = name := by
  cases comment : n.isComment with
  | false => rw [h.belongs.text_crlf (not_lineComment comment), Text.crlfText_inj]
  | true =>
    -- a comment has the text of no name
    have opens := (h.scans n n.self_mem_preorder).opensComment comment
    obtain ⟨tail, ends⟩ := h.belongs.exists_ends (s := .ofString text)
    have moved : (n.crlf (.ofString text)).text (Source.ofString text).crlf =
        crlfText (n.text (.ofString text)) ++ tail := by
      rw [Node.text, start_crlf]
      exact Source.textOf_ends ends (Nat.le_of_lt h.belongs.spans.wide)
    constructor
    · intro same
      have begins : opensComment (Text.crlf (n.text (.ofString text)).toList ++ tail.toList) = true :=
        opensComment_append ((opensComment_crlf _).trans opens) _
      rw [← Text.toList_crlfText, ← String.toList_append, ← moved, same, Text.toList_crlfText,
        opensComment_crlf, plain] at begins
      cases begins
    · intro same
      rw [same, plain] at opens
      cases opens

theorem Fair.not_isComment (h : n.Fair text) {r : Role} (role : n.role = some r) :
    n.isComment = false := by
  cases comment : n.isComment with
  | false => rfl
  | true =>
    have none := (h.belongs.made.loose (by rw [isExtra, comment, Bool.true_or])).role
    rw [role] at none
    cases none

end Node

end MonoTap.Java

namespace MonoTap.Receiver

open Java (Cursor Kind Node Role opensComment)
open Text (Source beq_crlfText crlfText crlfText_inj mem_crlfText)

variable {text name : String} {s : Source} {n root : Node} {c : Cursor}

/-! ### Declarations -/

/-- The declaration with a carriage return put before each line feed. -/
def Declaration.crlf (s : Source) (d : Declaration) : Declaration :=
  ⟨d.type.map (Node.crlf s), d.value.map (Cursor.crlf s)⟩

theorem isNamed_crlf (h : n.Belongs text.toList) (name : String) :
    isNamed s.crlf (crlfText name) (n.crlf s) = isNamed s name n := by
  have whole (x : Option String) : (x.map crlfText).getD "" = crlfText (x.getD "") := by
    cases x <;> rfl
  rw [isNamed, h.text_child, whole, isNamed, Bool.eq_iff_iff, beq_iff_eq, beq_iff_eq, crlfText_inj]

theorem declarationAt_crlf (c : Cursor) :
    declarationAt (c.crlf s) = (declarationAt c).crlf s := by
  rw [declarationAt, Cursor.node_crlf, Node.child?_crlf, Node.child?_crlf, declarationAt,
    Declaration.crlf, Option.map_map, Option.map_map]
  rfl

theorem declarator?_crlf (h : ∀ m ∈ c.node.children, m.Belongs text.toList) :
    declarator? s.crlf (crlfText name) (c.crlf s) =
      (declarator? s name c).map (Declaration.crlf s) := by
  rw [declarator?, Cursor.node_crlf, Node.childrenOf_crlf, Node.find?_map_crlf fun m hm =>
    isNamed_crlf (h m (Node.mem_children_of_mem_childrenOf hm)) name, declarator?, Option.map_map,
    Option.map_map]
  refine congrArg (Option.map · _) (funext fun d => ?_)
  rw [Function.comp_apply, Function.comp_apply, Node.child?_crlf, Node.child?_crlf,
    Declaration.crlf, Option.map_map, Option.map_map]
  rfl

/-- What some of the declarations inside a node declare. -/
theorem findSome?_crlf {ns : List Node}
    (h : ∀ m ∈ ns, ∀ d ∈ m.children, d.Belongs text.toList) :
    (ns.map (Node.crlf s)).findSome? (fun m =>
        declarator? s.crlf (crlfText name) ((c.crlf s).down m)) =
      (ns.findSome? fun m => declarator? s name (c.down m)).map (Declaration.crlf s) := by
  induction ns with
  | nil => rfl
  | cons n ns ih =>
    have own : declarator? s.crlf (crlfText name) ((c.crlf s).down (n.crlf s)) =
        (declarator? s name (c.down n)).map (Declaration.crlf s) := by
      rw [Cursor.down_crlf]
      exact declarator?_crlf (h n List.mem_cons_self)
    rw [List.map_cons, List.findSome?_cons, List.findSome?_cons, own,
      ih fun m hm => h m (List.mem_cons_of_mem _ hm)]
    cases declarator? s name (c.down n) <;> rfl

section

variable (h : ∀ m ∈ c.node.children, m.Fair text)
include h

theorem belongs_inside {m : Node} (hm : m ∈ c.node.children) :
    ∀ d ∈ m.children, d.Belongs text.toList :=
  fun _ hd => (h m hm).belongs.child hd

theorem field?_crlf : field? s.crlf (crlfText name) (c.crlf s) =
    (field? s name c).map (Declaration.crlf s) := by
  rw [field?, Cursor.node_crlf, Node.namedChildren_crlf, Node.filter_map_crlf fun m =>
    Node.is_crlf m _, field?]
  exact findSome?_crlf fun m hm =>
    belongs_inside h (Node.mem_children_of_mem_namedChildren (List.mem_filter.1 hm).1)

theorem loopVariable?_crlf : loopVariable? s.crlf (crlfText name) (c.crlf s) =
    (loopVariable? s name c).map (Declaration.crlf s) := by
  rw [loopVariable?, Cursor.node_crlf, Node.childrenOf_crlf, Node.filter_map_crlf fun m =>
    Node.is_crlf m _, loopVariable?]
  exact findSome?_crlf fun m hm =>
    belongs_inside h (Node.mem_children_of_mem_childrenOf (List.mem_filter.1 hm).1)

theorem local?_crlf (before : Nat) :
    local? s.crlf (crlfText name) (s.moved before) (c.crlf s) =
      (local? s name before c).map (Declaration.crlf s) := by
  have earlier : ((fun m : Node => decide (m.start < s.moved before)) ∘ Node.crlf s) =
      fun m : Node => decide (m.start < before) := by
    funext m
    rw [Function.comp_apply, Node.start_crlf, Bool.eq_iff_iff, decide_eq_true_eq, decide_eq_true_eq,
      Source.moved_lt_iff]
  rw [local?, Cursor.node_crlf, Node.namedChildren_crlf, List.takeWhile_map, earlier,
    Node.filter_map_crlf fun m => Node.is_crlf m _, local?]
  refine findSome?_crlf fun m hm => belongs_inside h ?_
  exact Node.mem_children_of_mem_namedChildren
    ((List.takeWhile_prefix _).subset (List.mem_filter.1 hm).1)

theorem caught?_crlf : caught? s.crlf (crlfText name) (c.node.crlf s) =
    (caught? s name c.node).map (Declaration.crlf s) := by
  rw [caught?, Node.namedChildren_crlf, Node.find?_map_crlf (q := fun p =>
    p.is .catchFormalParameter && isNamed s name p) fun p hp => ?_, caught?, Option.map_map,
    Option.map_map]
  · refine congrArg (Option.map · _) (funext fun p => ?_)
    rw [Function.comp_apply, Node.ofKind?_crlf]
    rfl
  · rw [Node.is_crlf, isNamed_crlf (h p (Node.mem_children_of_mem_namedChildren hp)).belongs]

theorem resource?_crlf : resource? s.crlf (crlfText name) (c.crlf s) =
    (resource? s name c).map (Declaration.crlf s) := by
  rw [resource?, Cursor.node_crlf, Node.child?_crlf, resource?]
  cases found : c.node.child? .resources with
  | none => rfl
  | some rs =>
    have own := h rs (Node.mem_children_of_child? found)
    simp only [Option.map_some]
    rw [Node.namedChildren_crlf, Node.find?_map_crlf fun m hm => isNamed_crlf
      (own.belongs.child (Node.mem_children_of_mem_namedChildren hm)) name, Option.map_map,
      Option.map_map]
    refine congrArg (Option.map · _) (funext fun r => ?_)
    rw [Function.comp_apply, Cursor.down_crlf, Cursor.down_crlf, declarationAt_crlf]
    rfl

end

/-- A parameter is found by its name, and no comment among the parameters is taken for one. -/
theorem parameter?_crlf (h : ∀ m ∈ n.children, m.Fair text)
    (plain : opensComment name.toList = false) :
    parameter? (Source.ofString text).crlf (crlfText name) (n.crlf (.ofString text)) =
      (parameter? (.ofString text) name n).map (Declaration.crlf (.ofString text)) := by
  have same {p : Node} (fair : p.Fair text) :
      ((p.crlf (.ofString text)).text (Source.ofString text).crlf == crlfText name) =
        (p.text (.ofString text) == name) := by
    rw [Bool.eq_iff_iff, beq_iff_eq, beq_iff_eq, fair.text_eq_iff plain]
  rw [parameter?, Node.child?_crlf, parameter?]
  cases found : n.child? .parameters with
  | none => rfl
  | some ps =>
    have own := h ps (Node.mem_children_of_child? found)
    simp only [Option.map_some, Node.is_crlf, same own]
    split
    · split <;> rfl
    · split
      · rw [Node.namedChildren_crlf, Node.find?_map_crlf fun p hp =>
          same (own.child (Node.mem_children_of_mem_namedChildren hp)), Option.map_map,
          Option.map_map]
        rfl
      · rw [Node.namedChildren_crlf, Node.find?_map_crlf (q := fun p =>
          p.is .formalParameter && isNamed (.ofString text) name p) fun p hp => ?_, Option.map_map,
          Option.map_map]
        · refine congrArg (Option.map · _) (funext fun p => ?_)
          rw [Function.comp_apply, Node.child?_crlf]
          rfl
        · rw [Node.is_crlf, isNamed_crlf
            (own.child (Node.mem_children_of_mem_namedChildren hp)).belongs]

section

variable (program : root.is .program = true) (fair : ∀ m ∈ root.children, m.Fair text)
include fair

theorem fair_children (h : n ∈ root.preorder) : ∀ m ∈ n.children, m.Fair text := by
  intro m hm
  rw [Node.preorder_eq] at h
  rcases List.mem_cons.1 h with rfl | h
  · exact fair m hm
  · obtain ⟨top, htop, inside⟩ := Node.mem_preorderAll.1 h
    exact ((fair top htop).inside inside).child hm

theorem fieldAround?_crlf {node : Node} {outer : List Node}
    (h : Cursor.Within root ⟨node, outer⟩) :
    fieldAround? (Source.ofString text).crlf (crlfText name)
        (outer.map (Node.crlf (.ofString text))) =
      (fieldAround? (.ofString text) name outer).map (Declaration.crlf (.ofString text)) := by
  induction outer generalizing node with
  | nil => rfl
  | cons n outer ih =>
    have own := @field?_crlf text name (.ofString text) _
      (fair_children fair h.around.mem_preorder)
    rw [List.map_cons, fieldAround?, fieldAround?, Node.is_crlf, ih h.around]
    split
    · exact own
    · rfl

include program

theorem fair_of_within (h : c.Within root) (inside : c.node.is .program = false) :
    c.node.Fair text := by
  cases h with
  | here =>
    rw [program] at inside
    cases inside
  | down above hm => exact fair_children fair above.mem_preorder _ hm

theorem declaredBy?_crlf (h : c.Within root) (plain : opensComment name.toList = false)
    (inner : Node) :
    declaredBy? (Source.ofString text).crlf (crlfText name) (c.crlf (.ofString text))
        (inner.crlf (.ofString text)) =
      (declaredBy? (.ofString text) name c inner).map (Declaration.crlf (.ofString text)) := by
  have children := fair_children fair h.mem_preorder
  unfold declaredBy?
  rw [Cursor.node_crlf, Node.label_crlf, Node.start_crlf]
  split
  · rfl
  · rename_i k label
    split
    iterate 4 exact local?_crlf children _
    iterate 3 exact parameter?_crlf children plain
    · exact field?_crlf children
    · exact loopVariable?_crlf children
    · have own := fair_of_within program fair h (by rw [Node.is, label]; rfl)
      rw [isNamed_crlf own.belongs, Node.child?_crlf]
      split <;> rfl
    · exact caught?_crlf children
    · exact resource?_crlf children
    · rfl

/-- A name is declared at the same place. -/
theorem declarationAround?_crlf {inner : Node} {outer : List Node}
    (h : Cursor.Within root ⟨inner, outer⟩) (plain : opensComment name.toList = false) :
    declarationAround? (Source.ofString text).crlf (crlfText name) (inner.crlf (.ofString text))
        (outer.map (Node.crlf (.ofString text))) =
      (declarationAround? (.ofString text) name inner outer).map
        (Declaration.crlf (.ofString text)) := by
  induction outer generalizing inner with
  | nil => rfl
  | cons n outer ih =>
    have own := declaredBy?_crlf program fair h.around plain inner
    rw [List.map_cons, declarationAround?, declarationAround?, ih h.around]
    rw [Cursor.crlf] at own
    rw [own]
    cases declaredBy? (.ofString text) name ⟨n, outer⟩ inner <;> rfl

end

/-! ### Types -/

/-- The type with a carriage return put before each line feed. -/
def ResolvedType.crlf (t : ResolvedType) : ResolvedType :=
  ⟨crlfText t.name, t.arguments.map (Option.map crlfText)⟩

theorem unannotated_crlf (n : Node) :
    unannotated (n.crlf s) = (unannotated n).map (Node.crlf s) := by
  rw [unannotated, Node.namedChildren_crlf, Node.filter_map_crlf fun m => by rw [Node.isAny_crlf],
    unannotated]

theorem argumentText?_crlf (h : n.Fair text) (plain : n.is .lineComment = false) :
    argumentText? s.crlf (n.crlf s) = (argumentText? s n).map crlfText := by
  have bounded : ((n.crlf s).children.any fun c => c.label == .token "extends") =
      n.children.any fun c => c.label == .token "extends" := by
    rw [Node.children_crlf, List.any_map]
    exact congrArg (List.any n.children) (funext fun c => by rw [Function.comp_apply, Node.label_crlf])
  rw [argumentText?, Node.is_crlf, bounded, unannotated_crlf, List.getLast?_map,
    h.belongs.text_crlf plain, argumentText?]
  split
  · rename_i wildcard
    split
    · cases last : (unannotated n).getLast? with
      | none => rfl
      | some c =>
        have inside : c ∈ n.children := Node.mem_children_of_mem_namedChildren
          (List.mem_filter.1 (List.mem_of_getLast? last)).1
        have kind : n.isAny [.typeArguments, .wildcard] = true := by
          rw [Node.isAny, List.any_cons, List.any_cons, wildcard, Bool.true_or, Bool.or_true]
        exact congrArg some ((h.child inside).belongs.text_crlf
          (h.arguments n n.self_mem_preorder kind c inside))
    · rfl
  · rfl

theorem isTypeName_crlf (n : Node) : isTypeName (n.crlf s) = isTypeName n :=
  Node.isAny_crlf n _

theorem not_lineComment_of_isTypeName (h : isTypeName n = true) : n.is .lineComment = false := by
  cases comment : n.is .lineComment with
  | false => rfl
  | true =>
    rw [Node.is, beq_iff_eq] at comment
    rw [isTypeName, Node.isAny, List.any_cons, Node.is, comment, List.any_cons, Node.is, comment] at h
    cases h

/-- The type that a node spells out has its carriage returns. -/
theorem typeOfNode?_crlf (h : n.Fair text) :
    typeOfNode? s.crlf (n.crlf s) = (typeOfNode? s n).map ResolvedType.crlf := by
  fun_induction typeOfNode? s n with
  | case1 n annotated c last ih =>
    have inside : c ∈ n.children := Node.mem_children_of_mem_namedChildren
      (List.mem_filter.1 (List.mem_of_getLast? last)).1
    rw [typeOfNode?, Node.is_crlf, if_pos annotated]
    split
    · rename_i d last'
      rw [unannotated_crlf, List.getLast?_map, last] at last'
      cases last'
      exact ih (h.child inside)
    · rename_i last'
      rw [unannotated_crlf, List.getLast?_map, last] at last'
      cases last'
  | case2 n annotated last =>
    rw [typeOfNode?, Node.is_crlf, if_pos annotated]
    split
    · rename_i d last'
      rw [unannotated_crlf, List.getLast?_map, last] at last'
      cases last'
    · rfl
  | case3 n plain name =>
    rw [typeOfNode?, Node.is_crlf, if_neg plain, isTypeName_crlf, if_pos name,
      h.belongs.text_crlf (not_lineComment_of_isTypeName name)]
    rfl
  | case4 n plain noName generic =>
    rw [typeOfNode?, Node.is_crlf, if_neg plain, isTypeName_crlf, if_neg noName, Node.is_crlf,
      if_pos generic, Node.namedChildren_crlf, Node.filter_map_crlf isTypeName_crlf,
      Node.filter_map_crlf fun m => Node.is_crlf m _, List.getLast?_map, List.getLast?_map]
    have inside {m : Node} {p : Node → Bool}
        (last : (n.namedChildren.filter p).getLast? = some m) : m ∈ n.children ∧ p m = true := by
      obtain ⟨hm, holds⟩ := List.mem_filter.1 (List.mem_of_getLast? last)
      exact ⟨Node.mem_children_of_mem_namedChildren hm, holds⟩
    cases hhead : (n.namedChildren.filter isTypeName).getLast? with
    | none => rfl
    | some head =>
      obtain ⟨hmem, name⟩ := inside hhead
      have spelled := (h.child hmem).belongs.text_crlf (s := s) (not_lineComment_of_isTypeName name)
      simp only [Option.map_some, spelled]
      cases hargs : (n.namedChildren.filter (·.is .typeArguments)).getLast? with
      | none => rfl
      | some args =>
        obtain ⟨amem, is⟩ := inside hargs
        have kind : args.isAny [.typeArguments, .wildcard] = true := by
          rw [Node.isAny, List.any_cons, is, Bool.true_or]
        have fair := h.child amem
        have each : (args.crlf s).namedChildren.map (argumentText? s.crlf) =
            (args.namedChildren.map (argumentText? s)).map (Option.map crlfText) := by
          rw [Node.namedChildren_crlf, List.map_map, List.map_map]
          refine List.map_congr_left fun c hc => ?_
          have mem := Node.mem_children_of_mem_namedChildren hc
          exact argumentText?_crlf (fair.child mem)
            (fair.arguments args args.self_mem_preorder kind c mem)
        simp only [Option.map_some, Option.getD_some, each]
        rfl
  | case5 n plain noName other =>
    rw [typeOfNode?, Node.is_crlf, if_neg plain, isTypeName_crlf, if_neg noName, Node.is_crlf,
      if_neg other]
    rfl

theorem allPresent_crlf (arguments : List (Option String)) :
    allPresent (arguments.map (Option.map crlfText)) =
      (allPresent arguments).map (List.map crlfText) := by
  induction arguments with
  | nil => rfl
  | cons a arguments ih =>
    cases a with
    | none => rfl
    | some a =>
      rw [List.map_cons, Option.map_some, allPresent, ih, allPresent]
      cases allPresent arguments <;> rfl

/-- A type written out has its carriage returns. -/
theorem ResolvedType.text?_crlf (t : ResolvedType) : t.crlf.text? = t.text?.map crlfText := by
  rw [text?, crlf, List.isEmpty_map, allPresent_crlf, text?]
  split
  · rfl
  · cases allPresent t.arguments with
    | none => rfl
    | some arguments =>
      have close : crlfText ">" = ">" := Text.crlfText_of_not_mem (by decide)
      have open' : crlfText "<" = "<" := Text.crlfText_of_not_mem (by decide)
      have joined := Text.crlfText_intercalate ", " arguments
      rw [Text.crlfText_of_not_mem (s := ", ") (by decide)] at joined
      simp only [Option.map_some, Text.crlfText_append, joined, close, open']

theorem isMono_crlf (t : ResolvedType) (imported : Bool) :
    isMono t.crlf imported = isMono t imported := by
  show (crlfText t.name == monoName || crlfText t.name == monoSimpleName && imported) = _
  rw [beq_crlfText (by decide), beq_crlfText (by decide), isMono]

/-! ### Types of expressions -/

theorem literalTypeOf?_crlf (n : Node) : literalTypeOf? (n.crlf s) = literalTypeOf? n := by
  rw [literalTypeOf?, Node.label_crlf, literalTypeOf?]

theorem inLine_of_literalTypeOf? {literal : String} (h : literalTypeOf? n = some literal) :
    '\n' ∉ literal.toList := by
  unfold literalTypeOf? at h
  split at h
  · unfold literalType? at h
    split at h <;> cases h <;> decide
  · cases h

theorem contains_typePreservingOperators_crlf (name : String) :
    typePreservingOperators.contains (crlfText name) = typePreservingOperators.contains name := by
  rw [Bool.eq_iff_iff, List.contains_iff_mem, List.contains_iff_mem]
  exact mem_crlfText (by decide)

/-- The type of a factory call without a type argument: what can be told from its only argument. -/
def argumentType (nameType? : Cursor → Option ResolvedType) (mono name : String) (call : Cursor) :
    ResolvedType :=
  if name == "just" || name == "justOrEmpty" then
    match call.node.child? .arguments with
    | none => ⟨mono, [none]⟩
    | some args =>
      match args.namedChildren with
      | [value] =>
        match literalTypeOf? value with
        | some literal => ⟨mono, [some literal]⟩
        | none =>
          if value.is .identifier then
            ⟨mono, [(nameType? ((call.down args).down value)).bind ResolvedType.text?]⟩
          else ⟨mono, [none]⟩
      | _ => ⟨mono, [none]⟩
  else ⟨mono, [none]⟩

theorem factoryType_eq (source : Source) (nameType? : Cursor → Option ResolvedType)
    (mono name : String) (call : Cursor) :
    factoryType source nameType? mono name call =
      match ((call.node.child? .typeArguments).map Node.namedChildren).getD [] with
      | [argument] => ⟨mono, [some (argument.text source)]⟩
      | _ => argumentType nameType? mono name call := rfl

theorem argumentType_crlf {name? name?' : Cursor → Option ResolvedType} (h : c.Within root)
    (further : ∀ v : Cursor, v.Within root →
      name?' (v.crlf (.ofString text)) = (name? v).map ResolvedType.crlf) (mono name : String) :
    argumentType name?' (crlfText mono) (crlfText name) (c.crlf (.ofString text)) =
      (argumentType name? mono name c).crlf := by
  rw [argumentType, argumentType, beq_crlfText (by decide), beq_crlfText (by decide),
    Cursor.node_crlf, Node.child?_crlf]
  split
  · cases found : c.node.child? .arguments with
    | none => rfl
    | some args =>
      simp only [Option.map_some, Node.namedChildren_crlf]
      cases values : args.namedChildren with
      | nil => rfl
      | cons value more =>
        cases more with
        | cons => rfl
        | nil =>
          have place : ((c.down args).down value).Within root :=
            .down (.down h (Node.mem_children_of_child? found))
              (Node.mem_children_of_mem_namedChildren (values ▸ List.mem_cons_self))
          simp only [List.map_cons, List.map_nil, literalTypeOf?_crlf, Node.is_crlf]
          cases literal : literalTypeOf? value with
          | some literal' =>
            have inLine := inLine_of_literalTypeOf? literal
            simp only [ResolvedType.crlf, List.map_cons, Option.map_some,
              Text.crlfText_of_not_mem inLine, List.map_nil]
          | none =>
            dsimp only
            split
            · rw [Cursor.down_crlf, Cursor.down_crlf, further _ place]
              cases name? ((c.down args).down value) with
              | none => rfl
              | some t =>
                simp only [Option.map_some, Option.bind_some, ResolvedType.text?_crlf]
                rfl
            · rfl
  · rfl

section

variable (program : root.is .program = true) (fair : ∀ m ∈ root.children, m.Fair text)
  {name? name?' : Cursor → Option ResolvedType}
include fair

theorem declarationType?_crlf {d : Declaration} (h : d.Within root)
    {inner? inner?' : Cursor → Option ResolvedType}
    (further : ∀ v : Cursor, v.Within root →
      inner?' (v.crlf (.ofString text)) = (inner? v).map ResolvedType.crlf) :
    (d.crlf (.ofString text)).type? (Source.ofString text).crlf inner?' =
      (d.type? (.ofString text) inner?).map ResolvedType.crlf := by
  rw [Declaration.type?, Declaration.crlf]
  unfold Declaration.type?
  cases type : d.type with
  | none => rfl
  | some t =>
    obtain ⟨n, hn, part⟩ := h.type t type
    have inside : t ∈ n.children := by
      rcases part with found | found
      · exact Node.mem_children_of_child? found
      · exact Node.mem_children_of_mem_namedChildren (List.mem_of_find?_eq_some found)
    have own := fair_children fair hn t inside
    have plain : t.isComment = false := by
      rcases part with found | found
      · exact own.not_isComment (Node.role_of_child? found)
      · have is := List.find?_some found
        exact Node.isComment_of_is is rfl
    have spelled := own.belongs.text_crlf (s := .ofString text) (Node.not_lineComment plain)
    simp only [Option.map_some, spelled]
    rw [beq_crlfText (by decide)]
    split
    · cases value : d.value with
      | none => rfl
      | some v => exact further v (h.value v value)
    · exact typeOfNode?_crlf own

include program

theorem factoryType_crlf (h : c.Within root) (call : c.node.is .methodInvocation = true)
    (further : ∀ v : Cursor, v.Within root →
      name?' (v.crlf (.ofString text)) = (name? v).map ResolvedType.crlf) (mono name : String) :
    factoryType (Source.ofString text).crlf name?' (crlfText mono) (crlfText name)
        (c.crlf (.ofString text)) =
      (factoryType (.ofString text) name? mono name c).crlf := by
  have own : c.node.Fair text := by
    refine fair_of_within program fair h ?_
    rw [Node.is, beq_iff_eq] at call
    rw [Node.is, call]
    rfl
  have untyped := argumentType_crlf h further mono name
  rw [factoryType_eq, factoryType_eq, Cursor.node_crlf, Node.child?_crlf]
  cases found : c.node.child? .typeArguments with
  | none => exact untyped
  | some args =>
    have mem := Node.mem_children_of_child? found
    have is := own.belongs.is_typeArguments call mem (Node.role_of_child? found)
    have fair := own.child mem
    simp only [Option.map_some, Option.getD_some, Node.namedChildren_crlf]
    cases witness : args.namedChildren with
    | nil => exact untyped
    | cons argument more =>
      cases more with
      | cons => exact untyped
      | nil =>
        have inside : argument ∈ args.children :=
          Node.mem_children_of_mem_namedChildren (witness ▸ List.mem_cons_self)
        have kind : args.isAny [.typeArguments, .wildcard] = true := by
          rw [Node.isAny, List.any_cons, is, Bool.true_or]
        have spelled := (fair.child inside).belongs.text_crlf (s := .ofString text)
          (fair.arguments args args.self_mem_preorder kind argument inside)
        simp only [List.map_cons, List.map_nil, spelled]
        rfl

theorem typeWithin?_crlf (levels : Nat) (h : c.Within root)
    (further : ∀ v : Cursor, v.Within root →
      name?' (v.crlf (.ofString text)) = (name? v).map ResolvedType.crlf) :
    typeWithin? (Source.ofString text).crlf name?' levels (c.crlf (.ofString text)) =
      (typeWithin? (.ofString text) name? levels c).map ResolvedType.crlf := by
  induction levels generalizing c with
  | zero => rfl
  | succ levels ih =>
    have inside := fair_children fair h.mem_preorder
    have declared {found found' : Option Declaration}
        (moved : found' = found.map (Declaration.crlf (.ofString text)))
        (within : ∀ d, found = some d → d.Within root) :
        found'.bind (·.type? (Source.ofString text).crlf
            (typeWithin? (Source.ofString text).crlf name?' levels)) =
          (found.bind (·.type? (.ofString text)
            (typeWithin? (.ofString text) name? levels))).map ResolvedType.crlf := by
      subst moved
      cases found with
      | none => rfl
      | some d => exact declarationType?_crlf fair (within d rfl) fun v hv => ih hv
    unfold typeWithin?
    dsimp only
    rw [Cursor.node_crlf, Node.label_crlf]
    split
    · rfl
    · rename_i k label
      split
      -- identifier
      · have is : c.node.is .identifier = true := by rw [Node.is, label]; rfl
        have own := fair_of_within program fair h (by rw [Node.is, label]; rfl)
        rw [own.belongs.text_crlf (by rw [Node.is, label]; rfl)]
        refine declared ?_ fun d found => within_declarationAround? h found
        exact declarationAround?_crlf program fair h
          ((own.scans _ (Node.self_mem_preorder _)).not_opensComment is)
      -- fieldAccess
      · rw [Node.child?_crlf, Node.child?_crlf]
        cases c.node.child? .object with
        | none => rfl
        | some object =>
          cases found : c.node.child? .field with
          | none => rfl
          | some field =>
            have own := inside field (Node.mem_children_of_child? found)
            have plain := own.not_isComment (Node.role_of_child? found)
            simp only [Option.map_some, Node.is_crlf,
              own.belongs.text_crlf (Node.not_lineComment plain)]
            split
            · exact declared (fieldAround?_crlf fair h) fun d found => within_fieldAround? h found
            · rfl
      -- parenthesizedExpression
      · rw [Node.namedChildren_crlf, List.head?_map]
        cases first : c.node.namedChildren.head? with
        | none => rfl
        | some e =>
          have mem := Node.mem_children_of_mem_namedChildren (List.mem_of_mem_head? first)
          exact ih (.down h mem)
      -- castExpression
      · rw [Node.child?_crlf]
        cases found : c.node.child? .type with
        | none => rfl
        | some t => exact typeOfNode?_crlf (inside t (Node.mem_children_of_child? found))
      -- methodInvocation
      · rw [Node.child?_crlf]
        cases found : c.node.child? .object with
        | none => rfl
        | some object =>
          have mem := Node.mem_children_of_child? found
          have own := inside object mem
          have plain := own.not_isComment (Node.role_of_child? found)
          have call := fair_of_within program fair h (by rw [Node.is, label]; rfl)
          have name : (((c.node.crlf (.ofString text)).child? .name).map
                (Node.text (Source.ofString text).crlf)).getD "" =
              crlfText (((c.node.child? .name).map (Node.text (.ofString text))).getD "") := by
            rw [call.belongs.text_child]
            cases (c.node.child? .name).map (Node.text (.ofString text)) <;> rfl
          simp only [Option.map_some, own.belongs.text_crlf (Node.not_lineComment plain), name,
            contains_typePreservingOperators_crlf]
          rw [beq_crlfText (by decide), beq_crlfText (by decide)]
          split
          · rw [factoryType_crlf program fair h (by rw [Node.is, label]; rfl) further]
            rfl
          · split
            · exact ih (.down h mem)
            · rfl
      · rfl

theorem typeAfter?_crlf (hops : Nat) (h : c.Within root) :
    typeAfter? (Source.ofString text).crlf hops (c.crlf (.ofString text)) =
      (typeAfter? (.ofString text) hops c).map ResolvedType.crlf := by
  induction hops generalizing c with
  | zero => exact typeWithin?_crlf program fair levels h fun _ _ => rfl
  | succ hops ih => exact typeWithin?_crlf program fair levels h fun v hv => ih hv

/-- An expression has the same type with carriage returns. -/
theorem type?_crlf {lo hi : Nat} (placed : Java.Placed (Java.Solid text.toList) lo root.children hi)
    (h : c.Within root) :
    type? (Source.ofString text).crlf (c.crlf (.ofString text)) =
      (type? (.ofString text) c).map ResolvedType.crlf := by
  have isNot {n : Node} (is : n.is .identifier = true) (program : n.is .program = true) : False := by
    rw [Node.is, beq_iff_eq] at is program
    rw [is] at program
    cases program
  have bounds : ∀ m ∈ root.preorder, m.is .identifier = true →
      m.start < (Source.ofString text).size := by
    intro m hm is
    rw [Node.preorder_eq] at hm
    rcases List.mem_cons.1 hm with rfl | hm
    · exact (isNot is program).elim
    · obtain ⟨top, htop, inside⟩ := Node.mem_preorderAll.1 hm
      have spans := ((fair top htop).inside inside).belongs.spans
      have := spans.last.le
      have wide := spans.wide
      rw [← Text.encode_eq, ← Source.toBytes_ofString, Source.length_toBytes] at this
      omega
  have larger : (Source.ofString text).size ≤ (Source.ofString text).crlf.size := by
    rw [Source.size_crlf, Source.moved, Text.crlfOffset]
    exact Nat.le_add_right ..
  rw [type?, typeAfter?_crlf program fair _ h, typeAfter?_eq_type? placed
    (fun m hm => (fair m hm).belongs) (fun is => (isNot is program).elim) h bounds larger]

end

end MonoTap.Receiver
