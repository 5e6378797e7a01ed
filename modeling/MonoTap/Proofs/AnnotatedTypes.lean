import MonoTap.Proofs.InsertedComments

/-!
# Types after annotations

A rule that ends with a type gives nodes of which the last is the type: no comment and no annotation
stands after it.
-/

set_option autoImplicit false

namespace MonoTap.Java

namespace Rule

variable {S : Type} {grammar : S → Rule S} {rule : Rule S} {op nodes : List Node} {ts : List Token}
  {p : Kind → Bool}

/-- Whether all nodes that a rule gives are of kinds that pass a test, where the left part of the chain
around it passes only if that is known. -/
def givesOnly (p : Kind → Bool) : (known : Bool) → Rule S → Bool
  | _, .leaf _ k | _, .name k | _, .node k _ => p k
  | known, .alt a b => givesOnly p known a && givesOnly p known b
  | known, .chain base suffix => givesOnly p known base && givesOnly p true suffix
  | known, .left => known
  | _, _ => false

theorem Derives.givesOnly (h : Derives grammar rule op ts nodes) (proper : ∀ t ∈ ts, t.Proper)
    (regular : rule.isRegular = true) {known : Bool} (gives : rule.givesOnly p known = true)
    (operand : known = true → ∀ n ∈ core op, ∃ k, n.label = .kind k ∧ (p k = true ∨ k = .missing)) :
    ∀ n ∈ core nodes, ∃ k, n.label = .kind k ∧ (p k = true ∨ k = .missing) := by
  have leaf {t : Token} {kind : Kind} (proper : t.Proper) (plain : (!kind.isExtra) = true)
      (gives : p kind = true) {n : Node} (hn : n ∈ core (t.toNodes (.kind kind))) :
      ∃ k, n.label = .kind k ∧ (p k = true ∨ k = .missing) := by
    obtain ⟨l, single, known⟩ := @core_toNodes t (.kind kind) proper fun kind' same => by
      cases same
      simpa using plain
    rw [single] at hn
    cases List.mem_singleton.1 hn
    rcases known with rfl | rfl
    · exact ⟨kind, rfl, .inl gives⟩
    · exact ⟨.missing, rfl, .inr rfl⟩
  induction h generalizing known with
  | leaf reads => exact fun n hn => leaf (proper _ List.mem_cons_self) regular gives hn
  | name isName => exact fun n hn => leaf (proper _ List.mem_cons_self) regular gives hn
  | left => exact operand gives
  | altLeft first ih =>
    rw [isRegular, Bool.and_eq_true] at regular
    rw [Rule.givesOnly, Bool.and_eq_true] at gives
    exact ih proper regular.1 gives.1 operand
  | altRight second ih =>
    rw [isRegular, Bool.and_eq_true] at regular
    rw [Rule.givesOnly, Bool.and_eq_true] at gives
    exact ih proper regular.2 gives.2 operand
  | @node r kind op nodes ts inner ih =>
    rw [isRegular, Bool.and_eq_true, Bool.not_eq_true'] at regular
    intro n hn
    rcases core_wrap regular.1 nodes with ⟨none, same⟩ | ⟨_, _, start, stop, _, _, single⟩
    · rw [same, none] at hn
      cases hn
    · rw [single] at hn
      cases List.mem_singleton.1 hn
      exact ⟨kind, rfl, .inl gives⟩
  | chainBase inner ih =>
    simp only [isRegular, Bool.and_eq_true] at regular
    rw [Rule.givesOnly, Bool.and_eq_true] at gives
    exact ih proper regular.1.2 gives.1 operand
  | @chainMore base suffix op nodes longer result ts us vs inner step more ihInner ihStep ihMore =>
    simp only [isRegular, Bool.and_eq_true] at regular
    rw [Rule.givesOnly, Bool.and_eq_true] at gives
    have first := ihInner (fun t ht => proper t (List.mem_append_left _ ht)) regular.1.2 gives.1 operand
    have second := ihStep
      (fun t ht => proper t (List.mem_append_right _ (List.mem_append_left _ ht))) regular.2 gives.2
      fun _ => first
    have further : (Rule.chain .left suffix).givesOnly p true = true := by
      rw [Rule.givesOnly, gives.2]
      rfl
    exact ihMore (fun t ht => proper t (List.mem_append_right _ (List.mem_append_right _ ht)))
      (isRegular_chain_left regular.1.1.2 regular.2) further fun _ => second
  | _ => cases gives

/-- A rule that does not use the left part of the chain around it gives the same beside any. -/
theorem Derives.beside (closed : ∀ s, (grammar s).leftUse = .never)
    (h : Derives grammar rule op ts nodes) (never : rule.leftUse = .never) (other : List Node) :
    Derives grammar rule other ts nodes := by
  induction h generalizing other with
  | empty => exact .empty
  | left => cases never
  | token reads => exact .token reads
  | glued reads more => exact .glued reads more
  | leaf reads => exact .leaf reads
  | name isName => exact .name isName
  | literal is => exact .literal is
  | @ref op nodes s ts inner ih => exact .ref (ih (closed s) other)
  | seq first second ihFirst ihSecond =>
    obtain ⟨neverFirst, neverSecond⟩ := leftUse_seq never
    exact .seq (ihFirst neverFirst other) (ihSecond neverSecond other)
  | altLeft first ih => exact .altLeft (ih (leftUse_alt never).1 other)
  | altRight second ih => exact .altRight (ih (leftUse_alt never).2 other)
  | manyNil => exact .manyNil
  | manyCons head tail ihHead ihTail =>
    exact .manyCons (ihHead (leftUse_many never) other) (ihTail never other)
  | «unless» => exact .unless
  | node inner ih => exact .node (ih never other)
  | field inner ih => exact .field (ih never other)
  | chainBase inner ih => exact .chainBase (ih (leftUse_chain never) other)
  | chainMore inner step more ihInner => exact .chainMore (ihInner (leftUse_chain never) other) step more

/-- Whether a rule ends with a type. -/
def endsWithType : Rule Symbol → Bool
  | .seq _ (.ref .plainType) => true
  | _ => false

end Rule

/-- Whether a kind is neither that of an annotation nor one that may stand between any two tokens. -/
def Kind.isType (k : Kind) : Bool :=
  !k.isExtra && k != .annotationCall && k != .annotationMarker

/-- The last node in an annotated type is the type. -/
theorem Node.Belongs.getLast?_annotated {text : List Char} {n c : Node} (h : n.Belongs text)
    (is : n.is .annotatedType = true) (last : (Receiver.unannotated n).getLast? = some c) :
    n.children.getLast? = some c ∧ c.isExtra = false := by
  have inside : c ∈ n.children :=
    mem_children_of_mem_namedChildren (List.mem_filter.1 (List.mem_of_getLast? last)).1
  obtain ⟨r, known, regular, op, ts, nodes, supplied, proper, derives, same⟩ := h.exists_rule is inside
  have ends : r.endsWithType = true := known.all rfl fun s => by cases s <;> decide +kernel
  cases derives with
  | @seq a b _ first second us vs left right =>
    have type : b = .ref .plainType := by
      unfold Rule.endsWithType at ends
      split at ends
      · rename_i b same
        cases same
        rfl
      · cases ends
    subst type
    have proper' : ∀ t ∈ vs, t.Proper := fun t ht => proper t (List.mem_append_right _ ht)
    cases right with
    | ref inner =>
      have closed := isRegularGrammar_ruleOf.closed
      have type := inner.beside closed (closed _) []
      have one := (type.counts isRegularGrammar_ruleOf proper' (isRegularGrammar_ruleOf.regular _)
        (.inl (closed _))).one (isRegularGrammar_ruleOf.solo _)
      have solid := type.closed isTidy_ruleOf (isTidy_ruleOf _) proper' Node.closed_nil
      have typed : (Grammar.ruleOf .plainType).givesOnly Kind.isType false = true := by decide +kernel
      have kinds := type.givesOnly proper' (isRegularGrammar_ruleOf.regular _) typed nofun
      have some : second ≠ [] := by
        rintro rfl
        cases one
      obtain ⟨others, l, ends⟩ : ∃ others l, second = others ++ [l] :=
        ⟨_, _, (List.dropLast_append_getLast some).symm⟩
      -- the last node is no comment, and so it is the type
      have lastCounts := solid l (by rw [ends, List.getLast?_concat])
      have here : l ∈ core second := Java.mem_core.2 ⟨by rw [ends]; exact List.mem_concat_self, lastCounts⟩
      obtain ⟨k, label, kind⟩ := kinds l here
      have children : ∃ before, n.children = before ++ [l] := by
        rw [same, ends, ← List.append_assoc, List.dropWhile_append]
        split
        · rw [List.dropWhile_cons_of_neg (by rw [lastCounts]; exact Bool.false_ne_true)]
          exact ⟨[], rfl⟩
        · exact ⟨_, rfl⟩
      obtain ⟨before, children⟩ := children
      have named : l.isNamed = true := by rw [isNamed, label]
      have bare : (!l.isAny [.annotationCall, .annotationMarker]) = true := by
        rw [isAny, List.any_cons, List.any_cons, List.any_nil, Node.is, Node.is, label]
        rcases kind with type | rfl
        · cases k <;> first | rfl | cases type
        · rfl
      rw [Receiver.unannotated, namedChildren, children, List.filter_append, List.filter_append,
        List.filter_cons_of_pos named, List.filter_nil, List.filter_cons, if_pos bare, List.filter_nil,
        List.getLast?_concat, Option.some.injEq] at last
      subst last
      exact ⟨by rw [children, List.getLast?_concat], lastCounts⟩
  | _ => cases ends

end MonoTap.Java
