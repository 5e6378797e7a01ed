import MonoTap.Proofs.MovedSites
import MonoTap.Proofs.RelocatedTypes

/-!
# Call sites in relocated trees

A unit with a relocated tree has the same package and imports, the same eligible calls and the same call
sites, with the same types of their receivers and of their elements.
-/

set_option autoImplicit false

namespace MonoTap.Java

open Text (Source)
open Receiver (belongs_children mem_preorderAll_of_child mem_preorder_of_below)

variable {text : String} {source target : Source} {e : Relocation} {n root : Node} {ns : List Node}

/-! ### Declarations of a unit -/

/-- The import at its new place. -/
def ImportDeclaration.relocate (e : Relocation) (d : ImportDeclaration) : ImportDeclaration :=
  { d with start := e.start d.start, stop := e.stop d.stop }

/-- The package at its new place. -/
def PackageDeclaration.relocate (e : Relocation) (p : PackageDeclaration) : PackageDeclaration :=
  { p with stop := e.stop p.stop }

/-- The unit with another text and the relocated tree. -/
def CompilationUnit.relocate (e : Relocation) (target : Source) (u : CompilationUnit) :
    CompilationUnit where
  source := target
  root := u.root.relocate e
  package := packageOf? target (u.root.relocate e)
  imports := importsOf target (u.root.relocate e)

theorem Node.any_relocateAll {p : Node → Bool} (same : ∀ n : Node, p (n.relocate e) = p n)
    (kept : ∀ n, p n = true → e.drops n = false) : (relocateAll e ns).any p = ns.any p := by
  induction ns with
  | nil => rfl
  | cons n ns ih =>
    rw [relocateAll, List.any_cons]
    cases dropped : e.drops n with
    | true =>
      have other : p n = false := by
        rw [← Bool.not_eq_true]
        intro holds
        rw [kept n holds] at dropped
        cases dropped
      rw [if_pos rfl, ih, other, Bool.false_or]
    | false => rw [if_neg Bool.false_ne_true, List.any_cons, same, ih]

theorem Node.filterMap_relocateAll {α : Type} {f g : Node → Option α}
    (none : ∀ n ∈ ns, e.drops n = true → g n = none) (same : ∀ n ∈ ns, f (n.relocate e) = g n) :
    (relocateAll e ns).filterMap f = ns.filterMap g := by
  induction ns with
  | nil => rfl
  | cons n ns ih =>
    have rest := ih (fun m hm => none m (List.mem_cons_of_mem _ hm))
      fun m hm => same m (List.mem_cons_of_mem _ hm)
    rw [relocateAll]
    cases dropped : e.drops n with
    | true => rw [if_pos rfl, rest, List.filterMap_cons_none (none n List.mem_cons_self dropped)]
    | false =>
      rw [if_neg Bool.false_ne_true, List.filterMap_cons, List.filterMap_cons, rest,
        same n List.mem_cons_self]

theorem Node.not_drops_of_token {word : String} (label : n.label = .token word) : e.drops n = false := by
  cases dropped : e.drops n with
  | false => rfl
  | true =>
    have comment := e.comment n dropped
    rw [Node.isComment, label] at comment
    cases comment

/-- The name that a declaration holds is at its new place in the relocated one. -/
theorem dottedName?_relocate_eq (n : Node) :
    dottedName? (n.relocate e) = (dottedName? n).map (Node.relocate e) := by
  have plain {m : Node} (is : m.isAny [.scopedIdentifier, .identifier] = true) : e.drops m = false := by
    obtain ⟨k, known, is⟩ := List.any_eq_true.1 is
    refine Node.not_drops_of_is is ?_
    simp only [List.mem_cons, List.not_mem_nil, or_false] at known
    rcases known with rfl | rfl <;> rfl
  rw [dottedName?, Node.namedChildren_relocate, Node.find?_relocateAll (q := fun c =>
    c.isAny [.scopedIdentifier, .identifier]) (fun m _ is => plain is) fun m _ _ =>
    Node.isAny_relocate m _, dottedName?]

/-- An import is the same where its name reads the same. -/
theorem ofNode?_relocate_of_text
    (same : ∀ name, dottedName? n = some name → (name.relocate e).text target = name.text source) :
    ImportDeclaration.ofNode? target (n.relocate e) =
      (ImportDeclaration.ofNode? source n).map (ImportDeclaration.relocate e) := by
  have static : ((n.relocate e).children.any fun c => c.label == .token "static") =
      n.children.any fun c => c.label == .token "static" := by
    rw [Node.children_relocate]
    exact Node.any_relocateAll (fun c => by rw [Node.label_relocate]) fun c is =>
      Node.not_drops_of_token (eq_of_beq is)
  have wildcard : ((n.relocate e).children.any fun c => c.is .asterisk) =
      n.children.any fun c => c.is .asterisk := by
    rw [Node.children_relocate]
    exact Node.any_relocateAll (fun c => Node.is_relocate c _) fun c is => Node.not_drops_of_is is rfl
  rw [ImportDeclaration.ofNode?, static, wildcard, Node.is_relocate, Node.start_relocate,
    Node.stop_relocate, dottedName?_relocate_eq, ImportDeclaration.ofNode?]
  split
  · cases found : dottedName? n with
    | none => rfl
    | some name =>
      simp only [Option.map_some, same name found]
      rfl
  · rfl

section

variable (belongs : ∀ m ∈ root.children, m.Belongs text.toList)
  (faithful : e.Faithful source target root)
include belongs faithful

theorem text_dottedName?_relocate (hn : n ∈ root.preorder) {name : Node} (found : dottedName? n = some name) :
    (name.relocate e).text target = name.text source := by
  have is := List.find?_some found
  have below := mem_preorderAll_of_child hn
    (Node.mem_children_of_mem_namedChildren (List.mem_of_find?_eq_some found))
  rw [Node.isAny, List.any_cons, List.any_cons, List.any_nil, Bool.or_false, Bool.or_eq_true] at is
  rcases is with is | is
  · refine faithful.name name below ?_
    simp [Node.isName, Node.isAny, is]
  · exact faithful.leaf name below
      ((Receiver.belongs_below belongs below).identifier_leaf is) (Node.not_drops_of_is is rfl)

theorem dottedName?_relocate (hn : n ∈ root.preorder) :
    (dottedName? (n.relocate e)).map (Node.text target) = (dottedName? n).map (Node.text source) := by
  rw [dottedName?_relocate_eq, Option.map_map]
  exact Option.map_congr fun name found => text_dottedName?_relocate belongs faithful hn found

theorem ofNode?_relocate (hn : n ∈ root.preorder) :
    ImportDeclaration.ofNode? target (n.relocate e) =
      (ImportDeclaration.ofNode? source n).map (ImportDeclaration.relocate e) :=
  ofNode?_relocate_of_text fun _ found => text_dottedName?_relocate belongs faithful hn found

theorem importsOf_relocate :
    importsOf target (root.relocate e) = (importsOf source root).map (ImportDeclaration.relocate e) := by
  rw [importsOf, Node.namedChildren_relocate, importsOf, List.map_filterMap]
  refine Node.filterMap_relocateAll (fun n _ dropped => ?_) fun n hn => ?_
  · rw [ImportDeclaration.ofNode?, Node.not_is_of_drops dropped rfl]
    rfl
  · have place := n.self_mem_preorder
    exact ofNode?_relocate belongs faithful (root.mem_preorder_of_mem_children
      (Node.mem_children_of_mem_namedChildren hn) place)

theorem packageOf?_relocate :
    packageOf? target (root.relocate e) = (packageOf? source root).map (PackageDeclaration.relocate e) := by
  rw [packageOf?, Node.ofKind?_relocate root rfl, packageOf?]
  cases found : root.ofKind? .packageDeclaration with
  | none => rfl
  | some n =>
    have mem := Node.mem_children_of_mem_namedChildren (List.mem_of_find?_eq_some found)
    have name := dottedName?_relocate belongs faithful
      (root.mem_preorder_of_mem_children mem n.self_mem_preorder)
    simp only [Option.map_some, name, Node.stop_relocate]
    rfl

end

end MonoTap.Java

namespace MonoTap

open Java (CompilationUnit Cursor Node Relocation Solid)
open Java.Node (relocateAll)
open Receiver (mem_preorderAll_of_child below_of_within belongs_below belongs_children mem_preorder_of_below)
open Text (Source)

variable {text file : String} {source target : Source} {e : Relocation} {n root : Node} {call : Cursor}

/-! ### Parts of a call -/

theorem uncommented_relocate (n : Node) :
    Callback.uncommented (n.relocate e) = (Callback.uncommented n).map (Node.relocate e) := by
  rw [Callback.uncommented, Node.namedChildren_relocate, Node.filter_relocateAll fun m => by
    rw [Node.isComment_relocate], Node.relocateAll_of_kept, Callback.uncommented]
  intro m hm
  have plain := (List.mem_filter.1 hm).2
  cases dropped : e.drops m with
  | false => rfl
  | true =>
    rw [e.comment m dropped] at plain
    cases plain

section

variable (belongs : ∀ m ∈ root.children, m.Belongs text.toList)
include belongs

theorem argumentsOf_relocate (hn : n ∈ root.preorder) :
    argumentsOf (n.relocate e) = (argumentsOf n).map (Node.relocate e) := by
  rw [argumentsOf, Node.child?_relocate (belongs_children belongs hn), argumentsOf]
  cases n.child? .arguments with
  | none => rfl
  | some arguments => exact uncommented_relocate arguments

theorem callbackOf_relocate (hn : n ∈ root.preorder) :
    callbackOf (n.relocate e) = (callbackOf n).relocate e := by
  rw [callbackOf, argumentsOf_relocate belongs hn, List.head?_map, callbackOf]
  cases (argumentsOf n).head? <;> rfl

theorem callStart_relocate (hn : n ∈ root.preorder) :
    callStart (n.relocate e) = e.start (callStart n) := by
  rw [callStart, Node.child?_relocate (belongs_children belongs hn), callStart]
  cases n.child? .name with
  | none => exact Node.start_relocate n
  | some name => exact Node.start_relocate name

variable (faithful : e.Faithful source target root)
include faithful

theorem name_relocate (hn : n ∈ root.preorder) :
    ((n.relocate e).child? .name).map (Node.text target) = (n.child? .name).map (Node.text source) := by
  rw [Node.child?_relocate (belongs_children belongs hn)]
  cases found : n.child? .name with
  | none => rfl
  | some m =>
    refine congrArg some (faithful.name m (mem_preorderAll_of_child hn (Node.mem_children_of_child? found)) ?_)
    rw [Node.isName, Node.role_of_child? found]
    rfl

/-- The parameters of a callback. -/
theorem lambdaParameters_relocate (hn : n ∈ Node.preorderAll root.children)
    (lambda : n.is .lambdaExpression = true) :
    Callback.lambdaParameters target (n.relocate e) = Callback.lambdaParameters source n := by
  have place := mem_preorder_of_below hn
  rw [Callback.lambdaParameters, Node.child?_relocate (belongs_children belongs place),
    Callback.lambdaParameters]
  cases found : n.child? .parameters with
  | none => rfl
  | some ps =>
    have below := mem_preorderAll_of_child place (Node.mem_children_of_child? found)
    have inside := mem_preorder_of_below below
    have spelled {m : Node} (hm : m ∈ Node.preorderAll root.children) (is : m.is .identifier = true) :
        (m.relocate e).text target = m.text source :=
      faithful.leaf m hm ((belongs_below belongs hm).identifier_leaf is) (Node.not_drops_of_is is rfl)
    simp only [Option.map_some, Node.is_relocate]
    split
    · rename_i is
      rw [spelled below is]
    · split
      · rw [Node.namedChildren_relocate, Node.filter_relocateAll fun m => Node.is_relocate m _,
          Node.relocateAll_of_kept fun m hm => Node.not_drops_of_is (List.mem_filter.1 hm).2 rfl,
          List.map_map]
        refine List.map_congr_left fun m hm => ?_
        obtain ⟨mem, is⟩ := List.mem_filter.1 hm
        rw [Function.comp_apply,
          spelled (mem_preorderAll_of_child inside (Node.mem_children_of_mem_namedChildren mem)) is]
      · rw [Node.namedChildren_relocate]
        refine Node.filterMap_relocateAll (fun m _ dropped => ?_) fun m hm => ?_
        · rw [Node.not_is_of_drops dropped rfl, Node.not_is_of_drops dropped rfl]
          rfl
        · have place := mem_preorder_of_below
            (mem_preorderAll_of_child inside (Node.mem_children_of_mem_namedChildren hm))
          rw [Node.is_relocate, Node.is_relocate, name_relocate belongs faithful place,
            Node.child?_relocate (belongs_children belongs place)]
          split
          · cases typed : m.child? .type with
            | none => rfl
            | some type =>
              have same := faithful.parameter n hn lambda ps found m hm type typed
              simp only [Option.map_some, same]
          · rfl

/-- A callback is taken apart in the same way. -/
theorem callbackParts_relocate (hn : n ∈ Node.preorderAll root.children) :
    callbackParts target (n.relocate e) =
      (callbackParts source n).map fun parts => (parts.1, parts.2.relocate e) := by
  have kind : kindOf (n.relocate e) = kindOf n := by rw [kindOf, Node.label_relocate, kindOf]
  rw [callbackParts, callbackParts, Node.is_relocate, kind]
  split
  · rename_i lambda
    rw [lambdaParameters_relocate belongs faithful hn lambda,
      Node.child?_relocate (belongs_children belongs (mem_preorder_of_below hn))]
    dsimp only
    split
    · cases n.child? .body with
      | none => rfl
      | some body =>
        simp only [Option.map_some, Node.is_relocate]
        split <;> rfl
    · rfl
  · rfl

end

/-! ### Eligible calls -/

/-- Where a call site is, the type of its receiver, and the type of the elements. -/
def CallSite.typing (site : CallSite) :
    Nat × Option Receiver.ResolvedType × Except UnknownElement String :=
  (site.start, site.receiverType, site.elementType)

theorem CallSite.elementType_congr {a b : CallSite} (type : a.receiverType = b.receiverType)
    (parameters : a.parameters = b.parameters) : a.elementType = b.elementType := by
  rw [elementType, type, parameters, elementType]

/-- A unit without faults in the same places of another text. -/
structure Relocated (text : String) (target : Source) (e : Relocation) : Prop where
  clean : (CompilationUnit.ofString text).hasSyntaxErrors = false
  faithful : e.Faithful (.ofString text) target (Java.parse text.toList)

namespace Relocated

variable (h : Relocated text target e)
include h

theorem belongs : ∀ m ∈ (Java.parse text.toList).children, m.Belongs text.toList :=
  Java.belongs_parse h.clean

theorem knowsMono_relocate :
    knowsMono ((CompilationUnit.ofString text).relocate e target) = knowsMono (.ofString text) := by
  have imports : ((CompilationUnit.ofString text).relocate e target).imports =
      (CompilationUnit.ofString text).imports.map (Java.ImportDeclaration.relocate e) :=
    Java.importsOf_relocate h.belongs h.faithful
  have package : ((CompilationUnit.ofString text).relocate e target).package =
      (CompilationUnit.ofString text).package.map (Java.PackageDeclaration.relocate e) :=
    Java.packageOf?_relocate h.belongs h.faithful
  have name : (Imports.Table.ofUnit ((CompilationUnit.ofString text).relocate e target)).packageName =
      (Imports.Table.ofUnit (.ofString text)).packageName := by
    rw [Imports.Table.packageName, Imports.Table.ofUnit, package, Option.map_map]
    rfl
  have known (package : String) : (Imports.Table.ofUnit
        ((CompilationUnit.ofString text).relocate e target)).imports.any
          (Imports.importCovers package Receiver.monoName) =
      (Imports.Table.ofUnit (.ofString text)).imports.any
        (Imports.importCovers package Receiver.monoName) := by
    rw [Imports.Table.ofUnit, imports, List.any_map]
    rfl
  rw [knowsMono, Imports.Table.covers, name, known, knowsMono, Imports.Table.covers]

/-- The type of a receiver. -/
theorem type?_relocate (within : call.Within (Java.parse text.toList)) :
    Receiver.type? target (call.relocate e) = Receiver.type? (.ofString text) call :=
  Receiver.type?_relocate (Java.is_program_parse h.clean) h.belongs
    (fun _ hm => Java.scans_of_mem_parse h.clean hm) h.faithful
    (Node.pairwise_start (Java.placed_parse h.clean)) (Java.placed_parse h.clean) within

theorem isEligible_relocate (within : call.Within (Java.parse text.toList)) :
    isEligible ((CompilationUnit.ofString text).relocate e target) (call.relocate e) =
      isEligible (.ofString text) call := by
  have place := within.mem_preorder
  have name : partText ((CompilationUnit.ofString text).relocate e target).source
        (call.node.relocate e) .name =
      partText (CompilationUnit.ofString text).source call.node .name :=
    congrArg (Option.getD · "") (name_relocate h.belongs h.faithful place)
  rw [isEligible, isEligible, h.knowsMono_relocate, Cursor.node_relocate, Node.is_relocate, name,
    Node.child?_relocate (belongs_children h.belongs place), argumentsOf_relocate h.belongs place,
    List.length_map]
  cases found : call.node.child? .object with
  | none => rfl
  | some receiver =>
    have type : Receiver.type? ((CompilationUnit.ofString text).relocate e target).source
          ((call.relocate e).down (receiver.relocate e)) =
        Receiver.type? (CompilationUnit.ofString text).source (call.down receiver) :=
      h.type?_relocate (within.down (Node.mem_children_of_child? found))
    simp only [Option.map_some, type]

/-- The calls to be converted are the same. -/
theorem eligibleCalls_relocate :
    eligibleCalls ((CompilationUnit.ofString text).relocate e target) =
      (eligibleCalls (.ofString text)).map (Cursor.relocate e) := by
  have root := Java.is_program_parse h.clean
  have leaf : ∀ m ∈ (Java.parse text.toList).preorder, e.drops m = true → m.children = [] := by
    intro m hm dropped
    rw [Node.preorder_eq] at hm
    rcases List.mem_cons.1 hm with rfl | hm
    · rw [Node.not_drops_of_is root rfl] at dropped
      cases dropped
    · exact (belongs_below h.belongs hm).comment_leaf (e.comment m dropped)
  have cursors := Node.cursors_relocate [] (Java.parse text.toList) leaf (Node.not_drops_of_is root rfl)
  rw [List.map_nil] at cursors
  rw [eligibleCalls, show ((CompilationUnit.ofString text).relocate e target).root.cursors [] = _
    from cursors, List.filter_map, List.filter_filter]
  refine congrArg _ (List.filter_congr fun c hc => ?_)
  rw [Function.comp_apply, h.isEligible_relocate (Cursor.Within.of_mem_cursors _ .here hc)]
  cases eligible : isEligible (.ofString text) c with
  | false => rfl
  | true =>
    rw [isEligible, Bool.and_eq_true, Bool.and_eq_true] at eligible
    rw [Node.not_drops_of_is eligible.1.1 rfl]
    rfl

/-! ### Call sites -/

theorem receiverType_relocate (within : call.Within (Java.parse text.toList)) :
    ((call.node.relocate e).child? .object).bind (fun receiver =>
        Receiver.type? target ((call.relocate e).down receiver)) =
      (call.node.child? .object).bind fun receiver =>
        Receiver.type? (.ofString text) (call.down receiver) := by
  rw [Node.child?_relocate (belongs_children h.belongs within.mem_preorder)]
  cases found : call.node.child? .object with
  | none => rw [Option.map_none, Option.bind_none, Option.bind_none]
  | some receiver =>
    have own := h.type?_relocate (within.down (Node.mem_children_of_child? found))
    rw [Option.map_some, Option.bind_some, Option.bind_some, Java.Cursor.down_relocate, own]

/-- What is known of the site that a call makes. -/
theorem typing_siteOf (eligible : call ∈ eligibleCalls (.ofString text))
    (parameters : List (String × Option String)) (block : Node) :
    (siteOf ((CompilationUnit.ofString text).relocate e target) file (call.relocate e) parameters
        (block.relocate e)).typing =
      (siteOf (.ofString text) file call parameters block).typing.map e.start id := by
  have within := Cursor.Within.of_mem_cursors _ .here (List.mem_filter.1 eligible).1
  have start := callStart_relocate (e := e) h.belongs within.mem_preorder
  have type : (siteOf ((CompilationUnit.ofString text).relocate e target) file (call.relocate e)
        parameters (block.relocate e)).receiverType =
      (siteOf (.ofString text) file call parameters block).receiverType :=
    h.receiverType_relocate within
  rw [CallSite.typing, type, CallSite.elementType_congr type rfl, CallSite.typing, Prod.map]
  exact congrArg (·, _) start

/-- The call sites are the same, with the same types. -/
theorem callSites_relocate :
    (callSites ((CompilationUnit.ofString text).relocate e target) file).1.map CallSite.typing =
      (callSites (.ofString text) file).1.map fun site => site.typing.map e.start id := by
  rw [callSites, h.eligibleCalls_relocate, callSites]
  simp only [List.map_map, List.filterMap_map, List.map_filterMap]
  refine List.filterMap_congr fun call eligible => ?_
  have within := Cursor.Within.of_mem_cursors _ .here (List.mem_filter.1 eligible).1
  obtain ⟨arguments, hargs, _, inside⟩ := mem_of_callbackOf eligible
  have below := mem_preorderAll_of_child (within.down hargs).mem_preorder inside
  have parts := callbackParts_relocate h.belongs h.faithful below
  rw [← callbackOf_relocate h.belongs within.mem_preorder] at parts
  simp only [Function.comp_apply, siteOrOutcome, ofCall_eq]
  rw [show callbackParts ((CompilationUnit.ofString text).relocate e target).source
    (callbackOf (call.relocate e).node) = _ from parts,
    show (CompilationUnit.ofString text).source = .ofString text from rfl]
  cases callbackParts (.ofString text) (callbackOf call.node) with
  | error reason => rfl
  | ok found =>
    simp only [Except.map, Sum.getLeft?, Option.map_some]
    exact congrArg some (h.typing_siteOf eligible found.1 found.2)

end Relocated

end MonoTap
