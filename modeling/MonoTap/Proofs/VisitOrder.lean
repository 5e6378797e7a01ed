import MonoTap.Proofs.Denotation

/-!
# Walks go from left to right

A walk over a node visits nodes in the order in which they stand in the text, and so the names that it
mentions come in this order. Where a walk visits parts of several kinds, the rules for the node give
those parts in the order of the walk. This holds of every node without faults, whatever the text around
it is like.
-/

set_option autoImplicit false

namespace MonoTap.Java

/-! ### Trees of texts with faults -/

/-- Nodes that stand in a text one after the other and are made by the rules of the grammar. -/
structure Grown (text : List Char) (ns : List Node) : Prop where
  placed : ∃ hi, Placed (Solid text) 0 ns hi
  made : Rule.AllMade Grammar.ruleOf JavaRule ns

variable {text : List Char} {l : TokenList} {ns : List Node} {n : Node}

theorem grown_nil : Grown text [] := by
  constructor
  · exact ⟨0, .nil (Nat.le_refl _)⟩
  · intro n hn
    cases hn

/-- Nodes derived from the first of some tokens that stand in the text. -/
theorem grown_of_derives {ts rest : List Token} (stands : l.Stands text)
    (split : l.tokens = ts ++ rest)
    (derives : Rule.Derives Grammar.ruleOf Grammar.program [] ts ns) : Grown text ns := by
  obtain ⟨⟨mid, placed, _⟩, _⟩ := stands
  rw [split] at placed
  obtain ⟨cut, before, _⟩ := placed.of_append
  have keeps := derives.keeps (joins_solid text) isRegularGrammar_ruleOf.closed
    gluesGenuine_ruleOf rfl
  constructor
  · exact ⟨cut, keeps.never rfl 0 cut before⟩
  · exact derives.allMade isRegularGrammar_ruleOf (fun s k r hr => .inr ⟨s, hr⟩)
      (fun k r hr => .inl hr) before.proper rfl (.inl rfl) fun n hn => (List.not_mem_nil hn).elim

/-- Comments and skipped text may follow. -/
theorem grown_of_complete (stands : l.Stands text)
    (derives : Rule.Derives Grammar.ruleOf Grammar.program [] l.tokens ns) :
    Grown text (ns ++ l.trailing) := by
  have grown := grown_of_derives stands (List.append_nil _).symm derives
  obtain ⟨⟨mid, placed, trailing⟩, loose⟩ := stands
  have keeps := derives.keeps (joins_solid text) isRegularGrammar_ruleOf.closed
    gluesGenuine_ruleOf rfl
  constructor
  · exact ⟨_, (keeps.never rfl 0 mid placed).append trailing⟩
  · exact grown.made.append (Rule.allMade_of_isLoose loose)

theorem grown_broken (stands : l.Stands text) :
    Grown text (treeOf.broken l (readProgram l.tokens)).children := by
  show Grown text (((readProgram l.tokens).result.map Prod.fst).getD [])
  cases found : (readProgram l.tokens).result with
  | none => exact grown_nil
  | some pair =>
    obtain ⟨nodes, next⟩ := pair
    rw [readProgram] at found
    obtain ⟨ts, split, derives⟩ := Rule.derives_of_read found
    exact grown_of_derives stands split derives

theorem grown_treeOf {repairs : Nat} (stands : l.Stands text) :
    Grown text (treeOf repairs l).children := by
  induction repairs generalizing l with
  | zero =>
    rcases treeOf_cases 0 l with ⟨nodes, complete, same⟩ | ⟨_, _, _, none, _⟩ | same
    · rw [same]
      exact grown_of_complete stands (derives_of_complete complete)
    · cases none
    · rw [same]
      exact grown_broken stands
  | succ repairs ih =>
    rcases treeOf_cases (repairs + 1) l with
      ⟨nodes, complete, same⟩ | ⟨fewer, repaired, position, one, repair, same⟩ | same
    · rw [same]
      exact grown_of_complete stands (derives_of_complete complete)
    · cases one
      rw [same]
      exact ih (stands_repair stands repair)
    · rw [same]
      exact grown_broken stands

/-- The tree of any text is grown, repaired or not. -/
theorem grown_parse (text : List Char) : Grown text (parse text).children :=
  grown_treeOf (stands_ofChars text)

/-- A node without faults belongs to its text, whatever the text around it is like. -/
theorem Node.belongs_of_hasError (inside : n ∈ preorderAll (parse text).children)
    (clean : n.hasError = false) : n.Belongs text := by
  obtain ⟨⟨hi, placed⟩, made⟩ := grown_parse text
  obtain ⟨top, ofTop, below⟩ := mem_preorderAll.1 inside
  let stands (m : Node) : Prop :=
    Placed (Solid text) m.start m.children m.stop ∧
      (m.hasError = false → Solid text m.start m.stop) ∧
      Rule.Made Grammar.ruleOf JavaRule m ∧ Rule.AllMade Grammar.ruleOf JavaRule m.children
  have child {ns : List Node} {lo hi : Nat} (placed : Placed (Solid text) lo ns hi)
      (made : Rule.AllMade Grammar.ruleOf JavaRule ns) {c : Node} (hc : c ∈ ns) : stands c := by
    obtain ⟨_, inner, covers, _⟩ := placed.of_mem hc
    exact ⟨inner, covers, made.made hc, made.children hc⟩
  have atTop : stands top := child placed made ofTop
  have down : ∀ m, stands m → ∀ c ∈ m.children, stands c := by
    intro m here c hc
    exact child here.1 here.2.2.2 hc
  obtain ⟨placed, covers, made, allMade⟩ := preorder_induction down atTop below
  exact ⟨clean, covers clean, placed, made, allMade⟩

/-! ### The order of parts -/

namespace Rule

variable {S : Type} {grammar : S → Rule S} {rule : Rule S} {op nodes : List Node} {ts : List Token}
  {p q : Role}

/-- Whether a rule may give a node that plays a part, as far as its fields tell. -/
def mayGive (part : Role) : Rule S → Bool
  | .seq a b | .alt a b => mayGive part a || mayGive part b
  | .many r => mayGive part r
  | .field role _ => role == part
  | .chain _ _ | .left | .ref _ => true
  | _ => false

/-- Whether a rule gives the nodes that play one part before those that play the other. -/
def putsBefore (p q : Role) : Rule S → Bool
  | .seq a b => putsBefore p q a && putsBefore p q b && !(mayGive q a && mayGive p b)
  | .alt a b => putsBefore p q a && putsBefore p q b
  | .many r => !mayGive p r || !mayGive q r
  | .chain _ _ | .left | .ref _ => false
  | _ => true

/-- Whether a rule gives the nodes that play the parts in the order of the parts. -/
def putsInOrder : List Role → Rule S → Bool
  | [], _ => true
  | p :: ps, r => ps.all (fun q => p != q && r.putsBefore p q) && putsInOrder ps r

theorem core_toNodes_role {t : Token} {label : Label} (proper : t.Proper) {n : Node}
    (h : n ∈ core (t.toNodes label)) : n.role = none := by
  obtain ⟨mem, counts⟩ := mem_core.1 h
  rcases List.mem_append.1 mem with extra | single
  · rw [(proper.loose n extra).extra] at counts
    cases counts
  · cases List.mem_singleton.1 single
    rfl

theorem core_wrap_role {k : Kind} (plain : k.isExtra = false) {n : Node}
    (h : n ∈ core (Node.wrap k nodes)) : n.role = none := by
  rcases core_wrap plain nodes with ⟨none, same⟩ | ⟨_, _, start, stop, _, _, single⟩
  · rw [same, none] at h
    cases h
  · rw [single] at h
    cases List.mem_singleton.1 h
    rfl

/-- A node that counts plays a part that the rule may give. -/
theorem Derives.mayGive (h : Derives grammar rule op ts nodes) (proper : ∀ t ∈ ts, t.Proper)
    (regular : rule.isRegular = true) {n : Node} (hn : n ∈ core nodes)
    (role : n.role = some p) : rule.mayGive p = true := by
  have none_of_token {t : Token} {label : Label} (proper : t.Proper)
      (hn : n ∈ core (t.toNodes label)) : False := by
    rw [core_toNodes_role proper hn] at role
    cases role
  induction h with
  | empty | manyNil | «unless» => cases hn
  | left | ref | chainBase | chainMore => rfl
  | token reads => exact (none_of_token (proper _ List.mem_cons_self) hn).elim
  | leaf reads => exact (none_of_token (proper _ List.mem_cons_self) hn).elim
  | name isName => exact (none_of_token (proper _ List.mem_cons_self) hn).elim
  | literal is => exact (none_of_token (proper _ List.mem_cons_self) hn).elim
  | glued reads more =>
    rw [core_append, core_eq_nil fun n hn => ((proper _ List.mem_cons_self).loose n hn).extra] at hn
    cases List.mem_singleton.1 hn
    cases role
  | seq left right ihLeft ihRight =>
    rw [isRegular, Bool.and_eq_true] at regular
    rw [core_append] at hn
    rw [Rule.mayGive, Bool.or_eq_true]
    rcases List.mem_append.1 hn with first | second
    · exact Or.inl (ihLeft (fun t ht => proper t (List.mem_append_left _ ht)) regular.1 first)
    · exact Or.inr (ihRight (fun t ht => proper t (List.mem_append_right _ ht)) regular.2 second)
  | altLeft left ih =>
    rw [isRegular, Bool.and_eq_true] at regular
    rw [Rule.mayGive, ih proper regular.1 hn, Bool.true_or]
  | altRight right ih =>
    rw [isRegular, Bool.and_eq_true] at regular
    rw [Rule.mayGive, ih proper regular.2 hn, Bool.or_true]
  | manyCons head tail ihHead ihTail =>
    rw [core_append] at hn
    rcases List.mem_append.1 hn with first | others
    · exact ihHead (fun t ht => proper t (List.mem_append_left _ ht)) regular first
    · exact ihTail (fun t ht => proper t (List.mem_append_right _ ht)) regular others
  | node inner ih =>
    rw [isRegular, Bool.and_eq_true, Bool.not_eq_true'] at regular
    rw [core_wrap_role regular.1 hn] at role
    cases role
  | field inner ih =>
    rw [core_assign] at hn
    obtain ⟨m, _, rfl⟩ := List.mem_map.1 hn
    rw [role_withRole, Option.some.injEq] at role
    exact beq_iff_eq.2 role

/-- A derivation gives the nodes that play two parts in the order that the rule has them in. -/
theorem Derives.putsBefore (h : Derives grammar rule op ts nodes) (proper : ∀ t ∈ ts, t.Proper)
    (regular : rule.isRegular = true) (apart : p ≠ q) (before : rule.putsBefore p q = true) :
    (core nodes).Pairwise fun a b => ¬ (a.role = some q ∧ b.role = some p) := by
  -- no two nodes without parts are in the wrong order, nor are any two with the same part
  have bare {ns : List Node} (none : ∀ n ∈ ns, n.role = none) :
      ns.Pairwise fun a b => ¬ (a.role = some q ∧ b.role = some p) := by
    apply List.pairwise_of_forall_mem_list
    rintro a ha b _ ⟨role, _⟩
    rw [none a ha] at role
    cases role
  induction h with
  | empty | manyNil | «unless» => exact .nil
  | left | ref | chainBase | chainMore => cases before
  | token reads => exact bare fun n => core_toNodes_role (proper _ List.mem_cons_self)
  | leaf reads => exact bare fun n => core_toNodes_role (proper _ List.mem_cons_self)
  | name isName => exact bare fun n => core_toNodes_role (proper _ List.mem_cons_self)
  | literal is => exact bare fun n => core_toNodes_role (proper _ List.mem_cons_self)
  | glued reads more =>
    rw [core_append, core_eq_nil fun n hn => ((proper _ List.mem_cons_self).loose n hn).extra]
    exact List.pairwise_singleton ..
  | @seq a b op first second ts us left right ihLeft ihRight =>
    rw [isRegular, Bool.and_eq_true] at regular
    simp only [Rule.putsBefore, Bool.and_eq_true, Bool.not_eq_true', Bool.and_eq_false_iff] at before
    obtain ⟨⟨inLeft, inRight⟩, between⟩ := before
    have properLeft : ∀ t ∈ ts, t.Proper := fun t ht => proper t (List.mem_append_left _ ht)
    have properRight : ∀ t ∈ us, t.Proper := fun t ht => proper t (List.mem_append_right _ ht)
    rw [core_append]
    apply List.pairwise_append.2
    refine ⟨ihLeft properLeft regular.1 inLeft, ihRight properRight regular.2 inRight, ?_⟩
    rintro n hn m hm ⟨late, early⟩
    have gives := left.mayGive properLeft regular.1 hn late
    have gives' := right.mayGive properRight regular.2 hm early
    rcases between with none | none
    · rw [none] at gives
      cases gives
    · rw [none] at gives'
      cases gives'
  | altLeft left ih =>
    rw [isRegular, Bool.and_eq_true] at regular
    rw [Rule.putsBefore, Bool.and_eq_true] at before
    exact ih proper regular.1 before.1
  | altRight right ih =>
    rw [isRegular, Bool.and_eq_true] at regular
    rw [Rule.putsBefore, Bool.and_eq_true] at before
    exact ih proper regular.2 before.2
  | manyCons head tail ihHead ihTail =>
    have whole := Derives.manyCons head tail
    apply List.pairwise_of_forall_mem_list
    rintro a ha b hb ⟨late, early⟩
    have gives := whole.mayGive proper regular ha late
    have gives' := whole.mayGive proper regular hb early
    rw [Rule.mayGive] at gives gives'
    rw [Rule.putsBefore, gives, gives'] at before
    cases before
  | node inner ih =>
    rw [isRegular, Bool.and_eq_true, Bool.not_eq_true'] at regular
    exact bare fun n => core_wrap_role regular.1
  | @field r part op nodes ts inner ih =>
    apply List.pairwise_of_forall_mem_list
    rintro a ha b hb ⟨late, early⟩
    have roleA := role_of_field (.field inner) a ha
    have roleB := role_of_field (.field inner) b hb
    rw [roleA, Option.some.injEq] at late
    rw [roleB, Option.some.injEq] at early
    exact apart (early.symm.trans late)

end Rule

namespace Node

variable {k : Kind} {parts : List Role}

/-- A node that plays a part stands before one that plays a later part. -/
theorem Belongs.stop_le_of_putsBefore {p q : Role} {a b : Node} {r : Rule Symbol}
    (h : n.Belongs text) (fills : Rule.Fills Grammar.ruleOf r n.children) (apart : p ≠ q)
    (before : r.putsBefore p q = true) (ha : a ∈ n.childrenOf p) (hb : b ∈ n.childrenOf q) :
    a.stop ≤ b.start := by
  have roleA : a.role = some p := eq_of_beq (List.mem_filter.1 ha).2
  have roleB : b.role = some q := eq_of_beq (List.mem_filter.1 hb).2
  have inA := h.mem_core_of_role (mem_children_of_mem_childrenOf ha) roleA
  have inB := h.mem_core_of_role (mem_children_of_mem_childrenOf hb) roleB
  obtain ⟨regular, op, ts, nodes, _, proper, derives, same⟩ := fills
  have ordered := derives.putsBefore proper regular apart before
  have placed : Placed (Solid text) n.start (Java.core n.children) n.stop :=
    h.placed.sublist List.filter_sublist
  rw [← core_dropWhile, ← same] at ordered
  have both := (Callback.placed_pairwise placed).and ordered
  -- of two nodes that count, one comes before the other
  have either : ∀ x ∈ Java.core n.children, ∀ y ∈ Java.core n.children, x = y ∨
      (x.stop ≤ y.start ∧ ¬ (x.role = some q ∧ y.role = some p)) ∨
      y.stop ≤ x.start ∧ ¬ (y.role = some q ∧ x.role = some p) :=
    List.Pairwise.forall_of_forall_of_flip (fun x _ => Or.inl rfl)
      (both.imp fun r => Or.inr (Or.inl r)) (both.imp fun r => Or.inr (Or.inr r))
  rcases either a inA b inB with rfl | first | second
  · rw [roleA, Option.some.injEq] at roleB
    exact (apart roleB).elim
  · exact first.1
  · exact (second.2 ⟨roleB, roleA⟩).elim

/-- The nodes inside that play some parts stand in the order of the parts, if the rules put them so. -/
theorem Belongs.parts_pairwise (h : n.Belongs text) (is : n.is k = true)
    (top : (Grammar.program.insides k).all (Rule.putsInOrder parts) = true)
    (symbols : ∀ s, ((Grammar.ruleOf s).insides k).all (Rule.putsInOrder parts) = true) :
    (parts.flatMap n.childrenOf).Pairwise fun a b => a.stop ≤ b.start := by
  cases children : n.children with
  | nil =>
    have none : parts.flatMap n.childrenOf = [] := by
      apply List.flatMap_eq_nil_iff.2
      intro p _
      rw [childrenOf, children]
      rfl
    rw [none]
    exact .nil
  | cons c cs =>
    obtain ⟨r, known, fills⟩ := h.exists_rule is (children ▸ List.mem_cons_self)
    have inOrder : r.putsInOrder parts = true := known.all top symbols
    clear top symbols
    induction parts with
    | nil => exact .nil
    | cons p ps ih =>
      simp only [Rule.putsInOrder, Bool.and_eq_true, List.all_eq_true, bne_iff_ne] at inOrder
      rw [List.flatMap_cons]
      apply List.pairwise_append.2
      refine ⟨(Callback.placed_pairwise h.placed).sublist List.filter_sublist, ih inOrder.2, ?_⟩
      intro a ha b hb
      obtain ⟨q, hq, hb⟩ := List.mem_flatMap.1 hb
      obtain ⟨apart, before⟩ := inOrder.1 q hq
      exact h.stop_le_of_putsBefore fills apart before ha hb

end Node

end MonoTap.Java

namespace MonoTap.Callback

open Java (Kind Node Role)
open Text (Source)

/-! ### Visits in order -/

variable {source : Source} {text : List Char} {n c : Node} {l m : List Step}

/-- The nodes that some steps visit. -/
def visited (l : List Step) : List Node :=
  l.filterMap fun
    | .event _ => none
    | .visit n => some n

@[simp] theorem visited_append : visited (l ++ m) = visited l ++ visited m :=
  List.filterMap_append

@[simp] theorem visited_visits (ns : List Node) : visited (visits ns) = ns := by
  rw [visited, visits, List.filterMap_map]
  exact List.filterMap_some

@[simp] theorem visited_inScope : visited (inScope l) = visited l := by
  simp [visited, inScope]

theorem visited_flatMap {α : Type} (l : List α) (f : α → List Step) :
    visited (l.flatMap f) = l.flatMap fun a => visited (f a) :=
  List.filterMap_flatMap ..

@[simp] theorem visited_declareName (name type : Option Node) :
    visited (declareName source name type) = [] := by
  cases name <;> rfl

@[simp] theorem visited_declareParameter (p : Node) : visited (declareParameter source p) = [] := by
  rw [declareParameter]
  split
  · exact visited_declareName ..
  · split
    · exact visited_declareName ..
    · rfl

@[simp] theorem visited_declareParameters (ps : List Node) :
    visited (ps.flatMap (declareParameter source)) = [] := by
  simp [visited_flatMap]

@[simp] theorem visited_declareLambdaParameters (n : Node) :
    visited (declareLambdaParameters source n) = [] := by
  rw [declareLambdaParameters]
  split
  · rfl
  · split
    · exact visited_declareName ..
    · split
      · simp [visited_flatMap]
      · exact visited_declareParameters _

@[simp] theorem visited_declareFields (n : Node) : visited (declareFields source n) = [] := by
  simp [declareFields, visited_flatMap]

@[simp] theorem visited_visitParts (n : Node) (parts : List Role) :
    visited (visitParts n parts) = parts.flatMap n.childrenOf := by
  simp [visitParts, visited_flatMap]

/-- The values of the variables that a declaration declares stand in the order of the variables. -/
theorem values_pairwise (h : n.Belongs text) :
    ((n.childrenOf .declarator).flatMap fun d => d.childrenOf .value).Pairwise
      fun a b => a.stop ≤ b.start := by
  have child {d : Node} (hd : d ∈ n.childrenOf .declarator) : d.Belongs text :=
    h.child (Node.mem_children_of_mem_childrenOf hd)
  apply List.pairwise_flatMap.2
  constructor
  · intro d hd
    exact (placed_pairwise (child hd).placed).sublist List.filter_sublist
  · apply ((placed_pairwise h.placed).sublist List.filter_sublist).imp_of_mem
    intro d e hd he order a ha b hb
    have inFirst := (child hd).placed.of_mem (Node.mem_children_of_mem_childrenOf ha)
    have inSecond := (child he).placed.of_mem (Node.mem_children_of_mem_childrenOf hb)
    omega

@[simp] theorem visited_values (n : Node) (type : Option Node) :
    visited ((n.childrenOf .declarator).flatMap fun d =>
      declareName source (d.child? .name) type ++ visits (d.childrenOf .value)) =
      (n.childrenOf .declarator).flatMap fun d => d.childrenOf .value := by
  simp [visited_flatMap]

@[simp] theorem visited_components (ns : List Node) :
    visited (ns.flatMap fun c =>
      if c.is .identifier then declareName source (some c) none else visits [c]) =
      ns.filter fun c => !c.is .identifier := by
  induction ns with
  | nil => rfl
  | cons c ns ih =>
    rw [List.flatMap_cons, visited_append, ih]
    by_cases name : c.is .identifier = true <;> simp [name]

/-- A walk over a node goes on to nodes in the order in which they stand in the text. -/
theorem visited_pairwise (h : n.Belongs text) :
    (visited (steps source n)).Pairwise fun a b => a.stop ≤ b.start := by
  have children {ns : List Node} (sub : ns.Sublist n.namedChildren) :
      ns.Pairwise fun a b => a.stop ≤ b.start :=
    (placed_pairwise h.placed).sublist (sub.trans List.filter_sublist)
  have all := children (List.Sublist.refl _)
  have part (p : Role) : (n.childrenOf p).Pairwise fun a b => a.stop ≤ b.start :=
    (placed_pairwise h.placed).sublist List.filter_sublist
  unfold steps
  split
  · exact .nil
  · rename_i k label
    have is : n.is k = true := beq_iff_eq.2 label
    split
    · exact .nil
    · rw [visited_visitParts]
      exact h.parts_pairwise is rfl fun s => by cases s <;> decide +kernel
    · simpa using part .object
    · simpa using children (List.take_sublist ..)
    · simpa using children List.filter_sublist
    iterate 4 · exact .nil
    · simpa using part .arguments
    · simpa using part .value
    · rw [visited_visitParts]
      exact h.parts_pairwise is rfl fun s => by cases s <;> decide +kernel
    · rw [visited_values]
      exact values_pairwise h
    · simpa [visited_flatMap] using values_pairwise h
    · simpa using all
    · simpa using part .body
    · simpa using part .body
    · simpa using part .body
    · simp only [visited_inScope, visited_append, visited_visitParts, visited_declareName,
        List.append_nil, ← List.flatMap_append]
      exact h.parts_pairwise is rfl fun s => by cases s <;> decide +kernel
    iterate 7 · simpa using all
    · simp
    · split
      · simpa using all
      · simpa using part .value
    · simp only [visited_append, visited_visitParts, visited_declareName, List.append_nil]
      exact h.parts_pairwise is rfl fun s => by cases s <;> decide +kernel
    · rw [visited_components]
      exact children List.filter_sublist
    iterate 5 · simp
    · simpa using all

/-! ### Mentions in order -/

section

variable {name : String} {offset : Nat}

@[simp] theorem mention_notMem_visits (ns : List Node) :
    .event (.mention name offset) ∉ visits ns := by
  simp [visits]

@[simp] theorem mention_notMem_visitParts (n : Node) (parts : List Role) :
    .event (.mention name offset) ∉ visitParts n parts := by
  simp [visitParts]

@[simp] theorem mention_notMem_declareName (m type : Option Node) :
    .event (.mention name offset) ∉ declareName source m type := by
  cases m <;> simp [declareName]

@[simp] theorem mention_notMem_declareParameter (p : Node) :
    .event (.mention name offset) ∉ declareParameter source p := by
  rw [declareParameter]
  split
  · simp
  · split <;> simp

@[simp] theorem mention_notMem_declareLambdaParameters (n : Node) :
    .event (.mention name offset) ∉ declareLambdaParameters source n := by
  rw [declareLambdaParameters]
  split
  · simp
  · split
    · simp
    · split <;> simp

/-- Only a walk over an identifier mentions a name itself. -/
theorem mention_notMem_steps (h : n.is .identifier = false) :
    .event (.mention name offset) ∉ steps source n := by
  unfold steps
  split
  · simp
  · rename_i k label
    split
    · rw [Node.is, label] at h
      cases h
    case h_28 => split <;> simp
    case h_30 =>
      rw [List.mem_flatMap]
      rintro ⟨c, _, hc⟩
      split at hc <;> simp at hc
    all_goals simp [inScope, declareFields]

theorem steps_of_identifier (h : n.is .identifier = true) :
    steps source n = [.event (.mention (n.text source) n.start)] := by
  have label : n.label = .kind .identifier := eq_of_beq h
  rw [steps, label]

end

/-- The offsets at which names are mentioned. -/
def mentionedAt (events : List ScopeEvent) : List Nat :=
  events.filterMap fun
    | .mention _ offset => some offset
    | _ => none

theorem mem_mentionedAt {events : List ScopeEvent} {offset : Nat} :
    offset ∈ mentionedAt events ↔ ∃ name, .mention name offset ∈ events := by
  rw [mentionedAt, List.mem_filterMap]
  constructor
  · rintro ⟨e, he, same⟩
    cases e with
    | mention name at_ =>
      cases same
      exact ⟨name, he⟩
    | enter | leave | declare => cases same
  · rintro ⟨name, he⟩
    exact ⟨_, he, rfl⟩

/-- Steps that mention nothing themselves mention what is mentioned in the nodes that they visit. -/
theorem mentionedAt_eventsOf (silent : ∀ name offset, .event (.mention name offset) ∉ l) :
    mentionedAt (eventsOf source l) =
      (visited l).flatMap fun c => mentionedAt (scopeEvents source c) := by
  induction l with
  | nil => rfl
  | cons s l ih =>
    have ih := ih fun name offset h => silent name offset (List.mem_cons_of_mem _ h)
    rw [eventsOf_cons, mentionedAt, List.filterMap_append, ← mentionedAt, ← mentionedAt, ih]
    cases s with
    | event e =>
      cases e with
      | mention name offset => exact (silent name offset List.mem_cons_self).elim
      | enter | leave | declare => rfl
    | visit c => rfl

theorem mem_visited : c ∈ visited l ↔ .visit c ∈ l := by
  rw [visited, List.mem_filterMap]
  constructor
  · rintro ⟨s, hs, same⟩
    cases s with
    | event e => cases same
    | visit d =>
      cases same
      exact hs
  · intro h
    exact ⟨_, h, rfl⟩

/-- A walk mentions names in the order in which they stand in the text. -/
theorem mentionedAt_pairwise (h : n.Belongs text) :
    (mentionedAt (scopeEvents source n)).Pairwise (· < ·) := by
  generalize hsize : sizeOf n = size
  induction size using Nat.strongRecOn generalizing n with
  | ind size ih =>
    rw [scopeEvents_eq]
    by_cases name : n.is .identifier = true
    · rw [steps_of_identifier name]
      exact List.pairwise_singleton ..
    · rw [Bool.not_eq_true] at name
      rw [mentionedAt_eventsOf fun _ _ => mention_notMem_steps name]
      have inside {c : Node} (hc : c ∈ visited (steps source n)) : c.Belongs text :=
        h.inside ((inside_steps source n).mem_of_visit c (mem_visited.1 hc))
      apply List.pairwise_flatMap.2
      constructor
      · intro c hc
        exact ih _ (hsize ▸ (inwards_steps source n).lt c (mem_visited.1 hc)) (inside hc) rfl
      · apply (visited_pairwise h).imp_of_mem
        intro c d hc hd order i hi j hj
        obtain ⟨_, hi⟩ := mem_mentionedAt.1 hi
        obtain ⟨_, hj⟩ := mem_mentionedAt.1 hj
        have first := bounds_of_mem_scopeEvents (inside hc) hi rfl
        have second := bounds_of_mem_scopeEvents (inside hd) hj rfl
        omega

end MonoTap.Callback
