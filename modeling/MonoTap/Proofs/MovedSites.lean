import MonoTap.Proofs.Emission
import MonoTap.Proofs.MovedBodies
import MonoTap.Proofs.MovedImports
import MonoTap.Proofs.MovedTypes
import MonoTap.Proofs.Sites

/-!
# Call sites and carriage returns

With carriage returns put in, a compilation unit has the same call sites at the same places. It is taken
for granted that the parser reads the same tree: its nodes are moved by the carriage returns, and a line
comment takes in the one that ends its line.
-/

set_option autoImplicit false

namespace MonoTap.Java

open Text (Source crlfText)

variable {text : String}

/-! ### Equal trees -/

namespace Node

mutual

/-- Whether two trees are the same. -/
def same : Node → Node → Bool
  | mk label role start stop children, mk label' role' start' stop' children' =>
    label == label' && role == role' && start == start' && stop == stop' &&
      sameAll children children'

/-- Whether two lists of trees are the same. -/
def sameAll : List Node → List Node → Bool
  | [], [] => true
  | n :: ns, m :: ms => same n m && sameAll ns ms
  | _, _ => false

end

mutual

theorem same_iff : (n m : Node) → (n.same m = true ↔ n = m)
  | mk label role start stop children, mk label' role' start' stop' children' => by
    simp only [same, Bool.and_eq_true, beq_iff_eq, sameAll_iff, mk.injEq, and_assoc]

theorem sameAll_iff : (ns ms : List Node) → (sameAll ns ms = true ↔ ns = ms)
  | [], [] => by simp only [sameAll]
  | [], m :: ms => by simp [sameAll]
  | n :: ns, [] => by simp [sameAll]
  | n :: ns, m :: ms => by
    simp only [sameAll, Bool.and_eq_true, same_iff, sameAll_iff, List.cons.injEq]

end

instance : DecidableEq Node := fun n m => decidable_of_iff _ (same_iff n m)

end Node

/-! ### Units -/

/-- The unit with a carriage return put before each line feed. -/
def CompilationUnit.crlf (u : CompilationUnit) : CompilationUnit where
  source := u.source.crlf
  root := u.root.crlf u.source
  package := u.package.map (PackageDeclaration.crlf u.source)
  imports := u.imports.map (ImportDeclaration.crlf u.source)

/-- The text with carriage returns is read as the same tree, moved by them. -/
def ParsesAlike (text : String) : Prop :=
  parse (crlfText text).toList = (parse text.toList).crlf (.ofString text)

/-- No line comment is among the arguments of a type. -/
def PlainArguments (text : String) : Prop :=
  ∀ n ∈ Node.preorderAll (parse text.toList).children,
    n.isAny [.typeArguments, .wildcard] = true → ∀ c ∈ n.children, c.is .lineComment = false

instance (text : String) : Decidable (ParsesAlike text) :=
  inferInstanceAs (Decidable (_ = _))

instance (text : String) : Decidable (PlainArguments text) :=
  inferInstanceAs (Decidable (∀ n ∈ Node.preorderAll (parse text.toList).children,
    n.isAny [.typeArguments, .wildcard] = true → ∀ c ∈ n.children, c.is .lineComment = false))

theorem ParsesAlike.hasSyntaxErrors (alike : ParsesAlike text) :
    (CompilationUnit.ofString (crlfText text)).hasSyntaxErrors =
      (CompilationUnit.ofString text).hasSyntaxErrors := by
  show (parse (crlfText text).toList).hasError = (parse text.toList).hasError
  rw [alike, Node.hasError_crlf]

section

variable (clean : (CompilationUnit.ofString text).hasSyntaxErrors = false)
include clean

theorem is_program_parse : (parse text.toList).is .program = true := by
  obtain ⟨l, nodes, _, _, same⟩ := exists_reading clean
  rw [same]
  rfl

theorem belongs_parse : ∀ m ∈ (parse text.toList).children, m.Belongs text.toList :=
  fun _ hm => Node.belongs_of_mem_parse clean hm

theorem fair_parse (plain : PlainArguments text) :
    ∀ m ∈ (parse text.toList).children, m.Fair text := by
  intro m hm
  have inside {n : Node} (hn : n ∈ m.preorder) : n ∈ Node.preorderAll (parse text.toList).children :=
    Node.mem_preorderAll.2 ⟨m, hm, hn⟩
  exact ⟨belongs_parse clean m hm, fun n hn => scans_of_mem_parse clean (inside hn),
    fun n hn => plain n (inside hn)⟩

/-- The unit of the text with carriage returns. -/
theorem ParsesAlike.ofString_crlfText (alike : ParsesAlike text) :
    CompilationUnit.ofString (crlfText text) = (CompilationUnit.ofString text).crlf := by
  have belongs := belongs_parse clean
  have parsed : parse (crlfText text).toList = (parse text.toList).crlf (.ofString text) := alike
  unfold CompilationUnit.ofString CompilationUnit.crlf
  simp only [Source.ofString_crlfText, parsed, packageOf?_crlf belongs, importsOf_crlf belongs]

end

end MonoTap.Java

namespace MonoTap

open Callback (Resolution crlfParameter)
open Java (CompilationUnit Cursor Node ParsesAlike PlainArguments)
open Receiver (ResolvedType)
open Text (Ends Source crlfText)

variable {text file : String} {s : Source} {n : Node}

/-! ### Parts of a call -/

theorem argumentsOf_crlf (call : Node) :
    argumentsOf (call.crlf s) = (argumentsOf call).map (Node.crlf s) := by
  rw [argumentsOf, Node.child?_crlf, argumentsOf]
  cases call.child? .arguments with
  | none => rfl
  | some arguments => exact Callback.uncommented_crlf arguments

theorem callbackOf_crlf (call : Node) : callbackOf (call.crlf s) = (callbackOf call).crlf s := by
  rw [callbackOf, argumentsOf_crlf, List.head?_map, callbackOf]
  cases (argumentsOf call).head? <;> rfl

theorem partText_crlf (h : n.Belongs text.toList) (part : Java.Role) :
    partText s.crlf (n.crlf s) part = crlfText (partText s n part) := by
  rw [partText, h.text_child, partText]
  cases (n.child? part).map (Node.text s) <;> rfl

theorem callStart_crlf (call : Node) : callStart (call.crlf s) = s.moved (callStart call) := by
  rw [callStart, Node.child?_crlf, callStart]
  cases call.child? .name with
  | none => exact Node.start_crlf call
  | some name => exact Node.start_crlf name

theorem callLine_crlf (call : Node) : callLine s.crlf (call.crlf s) = callLine s call := by
  show s.crlf.line (callStart (call.crlf s)) = s.line (callStart call)
  rw [callStart_crlf, s.line_crlf]

theorem kindOf_crlf (n : Node) : kindOf (n.crlf s) = kindOf n := by
  rw [kindOf, Node.label_crlf, kindOf]

/-- A callback is taken apart in the same way. -/
theorem callbackParts_crlf (h : n.Belongs text.toList) :
    callbackParts s.crlf (n.crlf s) =
      (callbackParts s n).map fun parts => (parts.1.map crlfParameter, parts.2.crlf s) := by
  simp only [callbackParts, Node.is_crlf, Callback.lambdaParameters_crlf h, List.length_map,
    Node.child?_crlf, kindOf_crlf]
  split
  · split
    · cases n.child? .body with
      | none => rfl
      | some body =>
        simp only [Option.map_some, Node.is_crlf]
        split <;> rfl
    · rfl
  · rfl

/-! ### Eligible calls -/

theorem knowsMono_crlf (u : CompilationUnit) : knowsMono u.crlf = knowsMono u :=
  Imports.covers_crlf (.ofUnit u) (by decide)

section

variable (clean : (CompilationUnit.ofString text).hasSyntaxErrors = false)
  (plain : PlainArguments text)
include clean plain

/-- The type of a receiver. -/
theorem receiverType_crlf {c : Cursor} (within : c.Within (Java.parse text.toList)) :
    Receiver.type? (Source.ofString text).crlf (c.crlf (.ofString text)) =
      (Receiver.type? (.ofString text) c).map ResolvedType.crlf :=
  Receiver.type?_crlf (Java.is_program_parse clean) (Java.fair_parse clean plain)
    (Java.placed_parse clean) within

theorem fair_of_call {c : Cursor} (within : c.Within (Java.parse text.toList))
    (call : c.node.is .methodInvocation = true) : c.node.Fair text := by
  refine Receiver.fair_of_within (Java.is_program_parse clean) (Java.fair_parse clean plain) within ?_
  rw [Node.is, beq_iff_eq] at call
  rw [Node.is, call]
  rfl

theorem isEligible_crlf {call : Cursor} (within : call.Within (Java.parse text.toList)) :
    isEligible (CompilationUnit.ofString text).crlf (call.crlf (.ofString text)) =
      isEligible (CompilationUnit.ofString text) call := by
  cases is : call.node.is .methodInvocation with
  | false => rw [isEligible, isEligible, Cursor.node_crlf, Node.is_crlf, is, Bool.false_and,
      Bool.false_and, Bool.false_and, Bool.false_and]
  | true =>
    have own := (fair_of_call clean plain within is).belongs
    have name : partText (CompilationUnit.ofString text).crlf.source
          (call.node.crlf (.ofString text)) .name =
        crlfText (partText (CompilationUnit.ofString text).source call.node .name) :=
      partText_crlf own .name
    rw [isEligible, isEligible, knowsMono_crlf]
    simp only [Cursor.node_crlf, Node.is_crlf, Node.child?_crlf, argumentsOf_crlf, List.length_map,
      name, Text.beq_crlfText (by decide : '\n' ∉ methodName.toList)]
    cases found : call.node.child? .object with
    | none => rfl
    | some receiver =>
      have type : Receiver.type? (CompilationUnit.ofString text).crlf.source
            ((call.crlf (.ofString text)).down (receiver.crlf (.ofString text))) =
          (Receiver.type? (CompilationUnit.ofString text).source (call.down receiver)).map
            ResolvedType.crlf :=
        receiverType_crlf clean plain (within.down (Node.mem_children_of_child? found))
      simp only [Option.map_some, type]
      cases Receiver.type? (CompilationUnit.ofString text).source (call.down receiver) with
      | none => rfl
      | some t => simp only [Option.map_some, Receiver.isMono_crlf]

theorem eligibleCalls_crlf :
    eligibleCalls (CompilationUnit.ofString text).crlf =
      (eligibleCalls (CompilationUnit.ofString text)).map (Cursor.crlf (.ofString text)) := by
  have cursors := Node.cursors_crlf (s := .ofString text) [] (Java.parse text.toList)
  show (((Java.parse text.toList).crlf (.ofString text)).cursors []).filter _ = _
  rw [List.map_nil] at cursors
  rw [cursors, List.filter_map]
  refine congrArg _ (List.filter_congr fun call h => ?_)
  exact isEligible_crlf clean plain (Cursor.Within.of_mem_cursors _ .here h)

end

/-! ### Call sites -/

/-- The parameters with a carriage return put before each line feed. -/
def Callback.Parameters.crlf (p : Callback.Parameters) : Callback.Parameters :=
  ⟨p.value.crlf, p.error.crlf⟩

/-- A call site of a text, and the same one in the text with carriage returns. -/
structure CallSite.Moved (s : Source) (before after : CallSite) : Prop where
  file : after.file = before.file
  line : after.line = before.line
  receiver : after.receiver = crlfText before.receiver
  parameters : after.parameters = before.parameters.crlf
  receiverType : after.receiverType = before.receiverType.map ResolvedType.crlf
  statements : List.Forall₂ (Callback.Statement.Moved s) before.arena.statements
    after.arena.statements
  body : after.body = before.body
  start : after.start = s.moved before.start
  stop : after.stop = s.moved before.stop
  indentText : after.indentText = before.indentText
  inLine : '\n' ∉ before.indentText.toList
  reservedNames : after.reservedNames.Perm (before.reservedNames.map crlfText)
  newline : before.newline = "\n" ∧ after.newline = "\r\n"

theorem parametersOf_crlf (parameters : List (String × Option String)) :
    parametersOf (parameters.map crlfParameter) = (parametersOf parameters).crlf := by
  have each (i : Nat) : parameterAt (parameters.map crlfParameter) i =
      (parameterAt parameters i).crlf := by
    rw [parameterAt, List.getElem?_map, parameterAt]
    cases parameters[i]? <;> rfl
  rw [parametersOf, each, each, parametersOf, Callback.Parameters.crlf]

section

variable (clean : (CompilationUnit.ofString text).hasSyntaxErrors = false)
  (plain : PlainArguments text) (old : Text.newlineOf (Source.ofString text).toBytes = "\n")
  (new : Text.newlineOf (Source.ofString text).crlf.toBytes = "\r\n")
include clean plain old new

theorem moved_siteOf {call : Cursor} (eligible : call ∈ eligibleCalls (CompilationUnit.ofString text))
    {parameters : List (String × Option String)} {block : Node}
    (parts : callbackParts (Source.ofString text) (callbackOf call.node) = .ok (parameters, block)) :
    CallSite.Moved (.ofString text) (siteOf (CompilationUnit.ofString text) file call parameters block)
      (siteOf (CompilationUnit.ofString text).crlf file (call.crlf (.ofString text))
        (parameters.map crlfParameter) (block.crlf (.ofString text))) := by
  have within := Cursor.Within.of_mem_cursors _ .here (List.mem_filter.1 eligible).1
  have invocation : call.node.is .methodInvocation = true :=
    (isCall_of_mem_eligibleCalls clean eligible).1.invocation
  have own := fair_of_call clean plain within invocation
  have site : IsSite (CompilationUnit.ofString text) file call parameters block _ :=
    ⟨eligible, parts, rfl⟩
  have belongs := site.belongs clean
  -- the bindings of the block
  have bindings : scopeOf (CompilationUnit.ofString text).crlf (parameters.map crlfParameter)
        (block.crlf (.ofString text)) =
      (scopeOf (CompilationUnit.ofString text) parameters block).crlf (.ofString text) :=
    Resolution.ofBody_crlf belongs
  have inLine : (scopeOf (CompilationUnit.ofString text) parameters block).InLine
      (.ofString text) := by
    refine Callback.inLine_ofBody fun m hm => own.scans m ?_
    obtain ⟨c, hc, inside⟩ := Node.mem_preorderAll.1 site.inside
    exact Node.mem_preorder_of_mem_children hc (Node.mem_preorder_trans inside hm)
  have entries := Callback.moved_entriesOf (s := .ofString text) inLine belongs
  rw [← bindings] at entries
  constructor
  case file => rfl
  case line => exact callLine_crlf call.node
  case receiver => exact partText_crlf own.belongs .object
  case parameters => exact parametersOf_crlf parameters
  case receiverType =>
    show ((call.node.crlf (.ofString text)).child? .object).bind _ = _
    rw [Node.child?_crlf]
    cases found : call.node.child? .object with
    | none =>
      show none = Option.map _ (Option.bind (call.node.child? .object) _)
      rw [found]
      rfl
    | some receiver =>
      show _ = Option.map _ (Option.bind (call.node.child? .object) _)
      rw [found]
      exact receiverType_crlf clean plain (within.down (Node.mem_children_of_child? found))
  case statements =>
    have statements := Callback.statementsFrom_related entries 0
    rw [← bindings] at statements
    exact statements
  case body => exact Callback.positionsFrom_related entries 0
  case start => exact callStart_crlf call.node
  case stop =>
    exact own.belongs.stop_crlf (Node.not_lineComment (Node.isComment_of_is invocation rfl))
  case indentText =>
    show String.ofList ((Source.ofString text).crlf.lineIndent (callStart (call.node.crlf _))) = _
    rw [callStart_crlf, Source.lineIndent_crlf]
    rfl
  case inLine =>
    intro mem
    have indent := Source.isIndent_of_mem_lineIndent (String.toList_ofList ▸ mem)
    cases indent
  case reservedNames =>
    show (Callback.sortedNames ((scopeOf (CompilationUnit.ofString text).crlf _ _).freeNames ++
      (scopeOf (CompilationUnit.ofString text).crlf _ _).declaredNames)).Perm _
    rw [bindings]
    show (Callback.sortedNames (List.map crlfText _ ++ List.map crlfText _)).Perm _
    rw [← List.map_append]
    exact Callback.sortedNames_crlf _
  case newline => exact ⟨old, new⟩

end

end MonoTap
