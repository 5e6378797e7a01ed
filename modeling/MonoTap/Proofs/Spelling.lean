import MonoTap.Proofs.Hops
import MonoTap.Proofs.Turns

/-!
# Spelled types

The name of the type of an expression is spelled out in the text: it is the text of a node. So where
the package and the imports do not make the simple name known and the text does not hold the qualified
one, no receiver passes, no call is eligible, and the text stays as it is.
-/

set_option autoImplicit false

namespace MonoTap.Imports

/-- A name is not covered if it is not of the unit's own package or of `java.lang`, and no import that
is not static names it or, with a wildcard, its package. -/
theorem Table.covers_eq_false_iff (t : Table) (name : String) :
    t.covers name = false ↔
      String.ofList (qualifierOf name.toList) ≠ t.packageName ∧
      String.ofList (qualifierOf name.toList) ≠ "java.lang" ∧
      ∀ d ∈ t.imports, d.isStatic = false →
        d.name ≠ if d.isWildcard then String.ofList (qualifierOf name.toList) else name := by
  have each (d : Java.ImportDeclaration) :
      importCovers (String.ofList (qualifierOf name.toList)) name d = false ↔
        (d.isStatic = false →
          d.name ≠ if d.isWildcard then String.ofList (qualifierOf name.toList) else name) := by
    rw [importCovers]
    cases d.isStatic <;> simp
  simp only [covers, Bool.or_eq_false_iff, beq_eq_false_iff_ne, List.any_eq_false, ← each,
    Bool.not_eq_true, and_assoc]

end MonoTap.Imports

namespace MonoTap.Receiver

open Java (Cursor Node)
open Text (Source)

variable {source : Source} {root n c : Node} {t : ResolvedType} {place : Cursor}

/-! ### Names of types -/

theorem mem_preorderAll_of_child (h : n ∈ root.preorder) (hc : c ∈ n.children) :
    c ∈ Node.preorderAll root.children := by
  rw [Node.preorder_eq, List.mem_cons] at h
  rcases h with rfl | h
  · exact Node.mem_preorderAll.2 ⟨c, hc, c.self_mem_preorder⟩
  · obtain ⟨m, hm, inside⟩ := Node.mem_preorderAll.1 h
    refine Node.mem_preorderAll.2 ⟨m, hm, Node.mem_preorder_trans inside ?_⟩
    exact n.mem_preorder_of_mem_children hc c.self_mem_preorder

/-- Whether the name of a type is the text of a node inside another one. -/
def ResolvedType.Spelled (source : Source) (root : Node) (t : ResolvedType) : Prop :=
  ∃ n ∈ Node.preorderAll root.children, t.name = n.text source

/-- A type that a node spells out has a name from there. -/
theorem spelled_of_typeOfNode? (inside : n ∈ Node.preorderAll root.children)
    (h : typeOfNode? source n = some t) : t.Spelled source root := by
  have down {m : Node} (hm : m ∈ n.namedChildren) : m ∈ Node.preorderAll root.children := by
    refine mem_preorderAll_of_child ?_ (Node.mem_children_of_mem_namedChildren hm)
    rw [Node.preorder_eq]
    exact List.mem_cons_of_mem root inside
  fun_induction typeOfNode? source n with
  | case1 n annotated m last ih =>
    have hm := (List.mem_filter.1 (List.mem_of_getLast? last)).1
    have own := down hm
    refine ih own h fun {k} hk => ?_
    refine mem_preorderAll_of_child ?_ (Node.mem_children_of_mem_namedChildren hk)
    rw [Node.preorder_eq]
    exact List.mem_cons_of_mem root own
  | case2 => cases h
  | case3 n _ name =>
    cases h
    exact ⟨n, inside, rfl⟩
  | case4 n _ _ generic =>
    obtain ⟨head, hhead, rfl⟩ := Option.map_eq_some_iff.1 h
    exact ⟨head, down (List.mem_filter.1 (List.mem_of_getLast? hhead)).1, rfl⟩
  | case5 => cases h

theorem name_factoryType (nameType? : Cursor → Option ResolvedType) (mono name : String)
    (call : Cursor) : (factoryType source nameType? mono name call).name = mono := by
  unfold factoryType
  dsimp only
  split
  · rfl
  · split
    · split
      · rfl
      · split
        · split
          · rfl
          · split <;> rfl
        · rfl
    · rfl

/-- The type of a declared name is spelled out where the name is declared, or it is that of the
value. -/
theorem spelled_of_declared {d : Declaration} {valueType? : Cursor → Option ResolvedType}
    (within : d.Within root)
    (further : ∀ v : Cursor, v.Within root → ∀ t, valueType? v = some t → t.Spelled source root)
    (h : d.type? source valueType? = some t) : t.Spelled source root := by
  unfold Declaration.type? at h
  split at h
  · cases h
  · rename_i type declared
    split at h
    · obtain ⟨v, value, typed⟩ := Option.bind_eq_some_iff.1 h
      exact further v (within.value v value) t typed
    · obtain ⟨m, hm, found | found⟩ := within.type type declared
      · exact spelled_of_typeOfNode? (mem_preorderAll_of_child hm (Node.mem_children_of_child? found)) h
      · have named := List.mem_of_find?_eq_some found
        exact spelled_of_typeOfNode?
          (mem_preorderAll_of_child hm (Node.mem_children_of_mem_namedChildren named)) h

theorem spelled_of_typeWithin? {nameType? : Cursor → Option ResolvedType} {levels : Nat}
    (within : place.Within root) (h : typeWithin? source nameType? levels place = some t) :
    t.Spelled source root := by
  induction levels generalizing place t with
  | zero => cases h
  | succ levels ih =>
    have declared {found : Option Declaration} (inside : ∀ d, found = some d → d.Within root)
        (h : found.bind (·.type? source (typeWithin? source nameType? levels)) = some t) :
        t.Spelled source root := by
      obtain ⟨d, found, typed⟩ := Option.bind_eq_some_iff.1 h
      exact spelled_of_declared (inside d found) (fun v hv t ht => ih hv ht) typed
    unfold typeWithin? at h
    dsimp only at h
    split at h
    · cases h
    · split at h
      · exact declared (fun d found => within_declarationAround? within found) h
      · split at h
        · split at h
          · exact declared (fun d found => within_fieldAround? within found) h
          · cases h
        · cases h
      · obtain ⟨e, first, typed⟩ := Option.bind_eq_some_iff.1 h
        have inside := Node.mem_children_of_mem_namedChildren (List.mem_of_mem_head? first)
        exact ih (.down within inside) typed
      · obtain ⟨type, found, typed⟩ := Option.bind_eq_some_iff.1 h
        refine spelled_of_typeOfNode? ?_ typed
        exact mem_preorderAll_of_child within.mem_preorder (Node.mem_children_of_child? found)
      · split at h
        · cases h
        · rename_i object found
          have inside := Node.mem_children_of_child? found
          split at h
          · cases h
            exact ⟨object, mem_preorderAll_of_child within.mem_preorder inside,
              name_factoryType _ _ _ _⟩
          · split at h
            · exact ih (.down within inside) h
            · cases h
      · cases h

/-- The name of the type of an expression is the text of a node around it. -/
theorem spelled_of_type? (within : place.Within root) (h : type? source place = some t) :
    t.Spelled source root := by
  rw [type?, typeAfter?_eq] at h
  exact spelled_of_typeWithin? within h

/-- In a text without syntax errors, the text holds the name of a type that it spells out. -/
theorem ResolvedType.Spelled.inside_text {text : String} (clean : (Java.parse text.toList).hasError = false)
    (h : t.Spelled (.ofString text) (Java.parse text.toList)) :
    t.name.toList <:+: text.toList := by
  obtain ⟨n, inside, name⟩ := h
  obtain ⟨m, hm, below⟩ := Node.mem_preorderAll.1 inside
  have own := (Node.belongs_of_mem_parse clean hm).inside below
  obtain ⟨front, middle, back, split, _, _, slice⟩ := slice_eq_encodeChars own.spans.toSpans
  rw [name, Node.text, Source.textOf, slice, Text.decodeLossy_encodeChars, String.toList_ofList,
    split]
  exact ⟨front, back, List.append_assoc front middle back⟩

end MonoTap.Receiver

namespace MonoTap

open Java (CompilationUnit Cursor)
open Receiver (monoName)

variable {text : String}

/-! ### Texts without the type -/

section

variable (clean : (CompilationUnit.ofString text).hasSyntaxErrors = false)
  (unknown : knowsMono (CompilationUnit.ofString text) = false)
  (absent : ¬ monoName.toList <:+: text.toList)
include clean unknown absent

/-- No call passes where neither the simple name is known nor the qualified one is in the text. -/
theorem isEligible_eq_false {call : Cursor} (within : call.Within (Java.parse text.toList)) :
    isEligible (CompilationUnit.ofString text) call = false := by
  rw [isEligible, unknown, Bool.and_eq_false_iff]
  refine .inr ?_
  cases found : call.node.child? .object with
  | none => rfl
  | some receiver =>
    dsimp only
    rw [Bool.and_eq_false_iff]
    refine .inr ?_
    cases typed : Receiver.type? (CompilationUnit.ofString text).source (call.down receiver) with
    | none => rfl
    | some t =>
      have inside := within.down (Java.Node.mem_children_of_child? found)
      have spelled := (Receiver.spelled_of_type? inside typed).inside_text clean
      have other : t.name ≠ monoName := fun same => absent (same ▸ spelled)
      dsimp only
      rw [Receiver.isMono, Bool.and_false, Bool.or_false, beq_eq_false_iff_ne]
      exact other

theorem eligibleCalls_eq_nil : eligibleCalls (CompilationUnit.ofString text) = [] := by
  rw [eligibleCalls, List.filter_eq_nil_iff]
  intro call mem
  rw [isEligible_eq_false clean unknown absent (Cursor.Within.of_mem_cursors _ .here mem)]
  exact Bool.false_ne_true

end

/-- A unit without eligible calls stays as it is. -/
theorem convertUnit_of_eligibleCalls_eq_nil {u : CompilationUnit} (none : eligibleCalls u = [])
    (settings : Settings) (file text : String) :
    convertUnit settings u file text = .ok ⟨file, text, text, [], []⟩ := by
  have sites : callSites u file = ([], []) := by rw [callSites, none]; rfl
  have folded : (innermostFirst (callSites u file).1).foldlM
      (Progress.advance settings u.source.toBytes) (begun u file) = .ok (begun u file) := by
    rw [sites, innermostFirst, List.mergeSort_nil]
    rfl
  have outcomes : byLine [] = [] := List.mergeSort_nil
  rw [convertUnit_eq folded, concluded, begun, sites]
  show Except.ok (⟨file, text, text, byLine [], []⟩ : Conversion) = _
  rw [outcomes]

/-- A class with a type of the same simple name from elsewhere, and calls that would be eligible with
the other type. -/
def otherMonoText : String :=
  "import com.acme.Mono;\nclass C \x7b\n  void f(Mono<String> m) \x7b\n    var n = Mono.just(1);\n" ++
  "    (n).log().doAfterSuccessOrError((v, e) -> \x7b\n" ++
  "      m.doAfterSuccessOrError((a, b) -> \x7b\x7d);\n    \x7d);\n  \x7d\n\x7d\n"

end MonoTap
