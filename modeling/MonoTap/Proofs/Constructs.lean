import MonoTap.Proofs.Shapes

/-!
# Calls, tests and comparisons

What the nodes inside some kinds of nodes are, in a text without faults: the name of a call holds
nothing, and beside tokens and comments there is nothing in an `if` but its condition and its
branches, and nothing in a comparison but its operator and the two operands.
-/

set_option autoImplicit false

namespace MonoTap.Java

/-- Whether a node is a token, or stands for a missing one. -/
def Node.IsBare (n : Node) : Prop :=
  n.isNamed = false ∨ n.is .missing = true

/-- The first node with some part is one that counts. -/
theorem find?_core {ns : List Node} (loose : ∀ n ∈ ns, n.isExtra = true → n.IsLoose)
    (part : Role) :
    (core ns).find? (·.role == some part) = ns.find? (·.role == some part) := by
  induction ns with
  | nil => rfl
  | cons n ns ih =>
    have ih := ih fun m hm => loose m (List.mem_cons_of_mem _ hm)
    cases h : n.isExtra with
    | true =>
      rw [core_cons_extra h, ih, List.find?_cons, (loose n List.mem_cons_self h).role]
      rfl
    | false =>
      rw [core_cons h, List.find?_cons, List.find?_cons, ih]

namespace Rule

variable {S : Type} {grammar : S → Rule S} {r : Rule S} {op nodes children : List Node}
  {ts : List Token} {part : Role}

/-- Derivations by rules one after the other. -/
theorem exists_of_seq {a b : Rule S} (h : Derives grammar (.seq a b) op ts nodes)
    (proper : ∀ t ∈ ts, t.Proper) :
    ∃ first second, nodes = first ++ second ∧
      (∃ us, Derives grammar a op us first ∧ ∀ t ∈ us, t.Proper) ∧
      ∃ us, Derives grammar b op us second ∧ ∀ t ∈ us, t.Proper := by
  cases h with
  | seq left right =>
    exact ⟨_, _, rfl, ⟨_, left, fun t ht => proper t (List.mem_append_left _ ht)⟩,
      ⟨_, right, fun t ht => proper t (List.mem_append_right _ ht)⟩⟩

/-- Derivations by a rule that may be left out. -/
theorem opt_cases (h : Derives grammar (.alt r .empty) op ts nodes) :
    Derives grammar r op ts nodes ∨ nodes = [] := by
  cases h with
  | altLeft left => exact Or.inl left
  | altRight right =>
    cases right
    exact Or.inr rfl

theorem role_withRole (n : Node) : (n.withRole part).role = some part := by
  cases n
  rfl

/-- The nodes that a rule for a part gives play that part. -/
theorem role_of_field (h : Derives grammar (.field part r) op ts nodes) :
    ∀ n ∈ core nodes, n.role = some part := by
  intro n hn
  cases h with
  | field inner =>
    rw [core_assign] at hn
    obtain ⟨m, _, rfl⟩ := List.mem_map.1 hn
    exact role_withRole m

/-- A rule for a part gives one node, if the rule inside does. -/
theorem core_field (g : IsRegularGrammar grammar) (h : Derives grammar (.field part r) op ts nodes)
    (proper : ∀ t ∈ ts, t.Proper) (regular : r.isRegular = true) (supplied : r.Supplied op)
    (solo : r.isSolo = true) : ∃ n, core nodes = [n] ∧ n.role = some part := by
  have counts : (Rule.field part r).Counts (core nodes).length := h.counts g proper regular supplied
  have one := counts.one solo
  obtain ⟨n, single⟩ := List.length_eq_one_iff.1 one
  exact ⟨n, single, role_of_field h n (single ▸ List.mem_singleton_self n)⟩

/-- A token gives one node, which has no kind unless the token is missing. -/
theorem core_token {texts : List String} (h : Derives grammar (.token texts) op ts nodes)
    (proper : ∀ t ∈ ts, t.Proper) :
    ∃ n, core nodes = [n] ∧ n.role = none ∧ (n.isNamed = false ∨ n.is .missing = true) := by
  cases h with
  | @token _ text t reads =>
    obtain ⟨l, single, hl⟩ := core_toNodes (proper t List.mem_cons_self)
      fun k (h : Label.token text = .kind k) => by cases h
    refine ⟨_, single, rfl, ?_⟩
    rcases hl with rfl | rfl
    · exact Or.inl rfl
    · exact Or.inr rfl
  | glued reads more =>
    have extras := core_eq_nil fun n hn => ((proper _ List.mem_cons_self).loose n hn).extra
    exact ⟨_, by rw [core_append, extras]; rfl, rfl, Or.inl rfl⟩

/-! ### Calls -/

/-- Whether a rule is one for calls: the name of the method is a name, a list of arguments comes last,
no other part is the name or the arguments, and the type arguments are such. -/
def isCall : Rule S → Bool
  | .seq (.field .name (.name _)) (.field .arguments (.node .argumentList _)) => true
  | .seq (.field .object _) (.seq (.token _) (.seq (.alt (.seq (.leaf _ _) (.token _)) .empty)
      (.seq (.alt (.field .typeArguments (.node .typeArguments _)) .empty)
        (.seq (.field .name (.name _)) (.field .arguments (.node .argumentList _)))))) => true
  | _ => false

/-- Whether none of some nodes is the name or the arguments of a call, and only type arguments are its
type arguments. -/
def Aside (ns : List Node) : Prop :=
  ∀ n ∈ core ns, n.role ≠ some .name ∧ n.role ≠ some .arguments ∧
    (n.role = some .typeArguments → n.is .typeArguments = true)

theorem aside_nil : Aside [] := fun _ hn => (List.not_mem_nil hn).elim

theorem Aside.append {ns ms : List Node} (first : Aside ns) (second : Aside ms) :
    Aside (ns ++ ms) := by
  intro n hn
  rw [core_append] at hn
  exact (List.mem_append.1 hn).elim (first n) (second n)

theorem aside_of_object (h : Derives grammar (.field .object r) op ts nodes) : Aside nodes := by
  intro n hn
  rw [role_of_field h n hn]
  exact ⟨by decide, by decide, fun same => by cases same⟩

theorem aside_of_single {n : Node} (single : core nodes = [n]) (role : n.role = none) :
    Aside nodes := by
  intro m hm
  rw [single] at hm
  cases List.mem_singleton.1 hm
  rw [role]
  exact ⟨by decide, by decide, fun same => by cases same⟩

theorem aside_of_token {texts : List String} (h : Derives grammar (.token texts) op ts nodes)
    (proper : ∀ t ∈ ts, t.Proper) : Aside nodes := by
  obtain ⟨n, single, role, _⟩ := core_token h proper
  exact aside_of_single single role

theorem aside_of_leaf {text : String} {k : Kind} (plain : k.isExtra = false)
    (h : Derives grammar (.leaf text k) op ts nodes) (proper : ∀ t ∈ ts, t.Proper) :
    Aside nodes := by
  cases h with
  | leaf reads =>
    obtain ⟨l, single, _⟩ := core_toNodes (proper _ List.mem_cons_self)
      fun l (h : Label.kind k = .kind l) => by
        cases h
        exact plain
    exact aside_of_single single rfl

theorem leaves_of_name {k : Kind} (plain : k.isExtra = false)
    (h : Derives grammar (.field part (.name k)) op ts nodes) (proper : ∀ t ∈ ts, t.Proper) :
    ∀ n ∈ core nodes, n.children = [] := by
  cases h with
  | field inner =>
    cases inner with
    | name isName =>
      obtain ⟨l, single, _⟩ := core_toNodes (proper _ List.mem_cons_self)
        fun l (h : Label.kind k = .kind l) => by
          cases h
          exact plain
      intro n hn
      rw [core_assign, single] at hn
      cases List.mem_singleton.1 hn
      rfl

/-- A node that plays a part is of the kind that the rule gives. -/
theorem is_of_node {k : Kind} (plain : k.isExtra = false)
    (h : Derives grammar (.field part (.node k r)) op ts nodes) :
    ∀ n ∈ core nodes, n.is k = true := by
  intro n hn
  cases h with
  | field inner =>
    cases inner with
    | node inner =>
      rw [core_assign] at hn
      obtain ⟨m, hm, rfl⟩ := List.mem_map.1 hn
      rcases core_wrap plain _ with ⟨none, same⟩ | ⟨_, _, start, stop, _, _, single⟩
      · rw [same, none] at hm
        cases hm
      · rw [single] at hm
        cases List.mem_singleton.1 hm
        exact beq_self_eq_true (Label.kind k)

theorem aside_of_typeArguments
    (h : Derives grammar (.field .typeArguments (.node .typeArguments r)) op ts nodes) :
    Aside nodes := by
  intro n hn
  refine ⟨?_, ?_, fun _ => is_of_node rfl h n hn⟩ <;> rw [role_of_field h n hn] <;> decide

/-- Inside a call, the arguments come after the name, and the name holds nothing. -/
theorem Fills.parts_of_call (h : Fills grammar r children) (isCall : r.isCall = true) :
    ∃ before name arguments, core children = before ++ (name ++ arguments) ∧
      (∀ n ∈ before, n.role ≠ some .name ∧ n.role ≠ some .arguments ∧
        (n.role = some .typeArguments → n.is .typeArguments = true)) ∧
      (∀ n ∈ name, n.role = some .name ∧ n.children = []) ∧
      ∀ n ∈ arguments, n.role = some .arguments ∧ n.is .argumentList = true := by
  obtain ⟨regular, op, ts, nodes, _, proper, derives, rfl⟩ := h
  rw [core_dropWhile]
  have ending {before name arguments : List Node} {r : Rule S} {k : Kind} {us vs : List Token}
      {op' op'' : List Node} (aside : Aside before) (plain : k.isExtra = false)
      (hname : Derives grammar (.field .name (.name k)) op' us name)
      (nameProper : ∀ t ∈ us, t.Proper)
      (harguments : Derives grammar (.field .arguments (.node .argumentList r)) op'' vs
        arguments) :
      core (before ++ (name ++ arguments)) = core before ++ (core name ++ core arguments) ∧
        (∀ n ∈ core before, n.role ≠ some .name ∧ n.role ≠ some .arguments ∧
          (n.role = some .typeArguments → n.is .typeArguments = true)) ∧
        (∀ n ∈ core name, n.role = some .name ∧ n.children = []) ∧
        ∀ n ∈ core arguments, n.role = some .arguments ∧ n.is .argumentList = true :=
    ⟨by rw [core_append, core_append], aside, fun n hn =>
      ⟨role_of_field hname n hn, leaves_of_name plain hname nameProper n hn⟩,
      fun n hn => ⟨role_of_field harguments n hn, is_of_node rfl harguments n hn⟩⟩
  unfold Rule.isCall at isCall
  split at isCall
  · simp only [isRegular, Bool.and_eq_true, Bool.not_eq_true'] at regular
    obtain ⟨name, arguments, rfl, ⟨_, hname, hproper⟩, _, harguments, _⟩ :=
      exists_of_seq derives proper
    exact ⟨[], core name, core arguments, ending aside_nil regular.1 hname hproper harguments⟩
  · simp only [isRegular, Bool.and_eq_true, Bool.not_eq_true'] at regular
    obtain ⟨_, ⟨_, ⟨⟨plainLeaf, _⟩, _⟩, _, plainName, _⟩⟩ := regular
    obtain ⟨object, rest, rfl, ⟨_, hobject, _⟩, _, derives, proper⟩ := exists_of_seq derives proper
    obtain ⟨dot, rest, rfl, ⟨_, hdot, dotProper⟩, _, derives, proper⟩ :=
      exists_of_seq derives proper
    obtain ⟨qualifier, rest, rfl, ⟨_, hqualifier, qualifierProper⟩, _, derives, proper⟩ :=
      exists_of_seq derives proper
    obtain ⟨types, rest, rfl, ⟨_, htypes, _⟩, _, derives, proper⟩ := exists_of_seq derives proper
    obtain ⟨name, arguments, rfl, ⟨_, hname, nameProper⟩, _, harguments, _⟩ :=
      exists_of_seq derives proper
    have beforeName : Aside qualifier := by
      rcases opt_cases hqualifier with both | rfl
      · obtain ⟨word, mark, rfl, ⟨_, hword, wordProper⟩, _, hmark, markProper⟩ :=
          exists_of_seq both qualifierProper
        exact (aside_of_leaf plainLeaf hword wordProper).append (aside_of_token hmark markProper)
      · exact aside_nil
    have typesBefore : Aside types := by
      rcases opt_cases htypes with given | rfl
      · exact aside_of_typeArguments given
      · exact aside_nil
    have aside := (aside_of_object hobject).append
      ((aside_of_token hdot dotProper).append (beforeName.append typesBefore))
    have parts := ending aside plainName hname nameProper harguments
    simp only [List.append_assoc] at parts
    exact ⟨_, core name, core arguments, parts⟩
  · cases isCall

/-! ### Tests and comparisons -/

/-- Whether a rule is one for `if`: a condition, a branch, and possibly another one. -/
def isTest : Rule S → Bool
  | .seq (.token _) (.seq (.field .condition condition) (.seq (.field .consequence first)
      (.alt (.seq (.token _) (.field .alternative second)) .empty))) =>
    condition.isSolo && first.isSolo && second.isSolo
  | _ => false

/-- Whether a rule is one for operands with an operator between them. -/
def isBinary : Rule S → Bool
  | .seq (.field .left .left) (.seq (.field .operator operator) (.field .right right)) =>
    operator.isSolo && right.isSolo
  | _ => false

variable (g : IsRegularGrammar grammar)
include g

/-- The nodes of an `if` that count: tokens, and beside them the condition and the branches. -/
theorem Derives.core_of_test (h : Derives grammar r op ts nodes) (isTest : r.isTest = true)
    (proper : ∀ t ∈ ts, t.Proper) (regular : r.isRegular = true) (supplied : r.Supplied op) :
    ∃ word condition first others, core nodes = word :: condition :: first :: others ∧
      (word.IsBare ∧ word.role = none) ∧ condition.role = some .condition ∧
      first.role = some .consequence ∧
      (others = [] ∨ ∃ word second, others = [word, second] ∧ (word.IsBare ∧ word.role = none) ∧
        second.role = some .alternative) := by
  unfold Rule.isTest at isTest
  split at isTest
  · simp only [Bool.and_eq_true] at isTest
    simp only [isRegular, Bool.and_eq_true] at regular
    obtain ⟨⟨soloCondition, soloFirst⟩, soloSecond⟩ := isTest
    obtain ⟨_, regularCondition, regularFirst, ⟨_, regularSecond⟩, _⟩ := regular
    obtain ⟨_, _, rfl, ⟨_, hword, wordProper⟩, _, rest, properRest⟩ := exists_of_seq h proper
    obtain ⟨_, _, rfl, ⟨_, hcondition, conditionProper⟩, _, rest, properRest⟩ :=
      exists_of_seq rest properRest
    obtain ⟨_, others, rfl, ⟨_, hfirst, firstProper⟩, _, rest, properRest⟩ :=
      exists_of_seq rest properRest
    obtain ⟨word, coreWord, wordRole, bare⟩ := core_token hword wordProper
    obtain ⟨condition, coreCondition, conditionRole⟩ := core_field g hcondition conditionProper
      regularCondition supplied.seq.2.seq.1.field soloCondition
    obtain ⟨first, coreFirst, firstRole⟩ := core_field g hfirst firstProper
      regularFirst supplied.seq.2.seq.2.seq.1.field soloFirst
    refine ⟨word, condition, first, core others, ?_, ⟨bare, wordRole⟩, conditionRole, firstRole, ?_⟩
    · rw [core_append, core_append, core_append, coreWord, coreCondition, coreFirst]
      rfl
    · rcases opt_cases rest with both | rfl
      · obtain ⟨_, _, rfl, ⟨_, hword, wordProper⟩, _, hsecond, secondProper⟩ :=
          exists_of_seq both properRest
        obtain ⟨word, coreWord, wordRole, bare⟩ := core_token hword wordProper
        obtain ⟨second, coreSecond, secondRole⟩ := core_field g hsecond secondProper
          regularSecond supplied.seq.2.seq.2.seq.2.alt.1.seq.2.field soloSecond
        refine Or.inr ⟨word, second, ?_, ⟨bare, wordRole⟩, secondRole⟩
        rw [core_append, coreWord, coreSecond]
        rfl
      · exact Or.inl rfl
  · cases isTest

/-- The nodes of a comparison that count. -/
theorem Derives.core_of_binary (h : Derives grammar r op ts nodes) (isBinary : r.isBinary = true)
    (proper : ∀ t ∈ ts, t.Proper) (regular : r.isRegular = true) (supplied : r.Supplied op) :
    ∃ left operator right, core nodes = [left, operator, right] ∧ left.role = some .left ∧
      operator.role = some .operator ∧ right.role = some .right := by
  unfold Rule.isBinary at isBinary
  split at isBinary
  · simp only [Bool.and_eq_true] at isBinary
    simp only [isRegular, Bool.and_eq_true] at regular
    obtain ⟨_, regularOperator, regularRight⟩ := regular
    obtain ⟨_, _, rfl, ⟨_, hleft, leftProper⟩, _, rest, properRest⟩ := exists_of_seq h proper
    obtain ⟨_, _, rfl, ⟨_, hoperator, operatorProper⟩, _, hright, rightProper⟩ :=
      exists_of_seq rest properRest
    obtain ⟨left, coreLeft, leftRole⟩ := core_field g hleft leftProper rfl
      supplied.seq.1.field rfl
    obtain ⟨operator, coreOperator, operatorRole⟩ := core_field g hoperator operatorProper
      regularOperator supplied.seq.2.seq.1.field isBinary.1
    obtain ⟨right, coreRight, rightRole⟩ := core_field g hright rightProper
      regularRight supplied.seq.2.seq.2.field isBinary.2
    refine ⟨left, operator, right, ?_, leftRole, operatorRole, rightRole⟩
    rw [core_append, core_append, coreLeft, coreOperator, coreRight]
    rfl
  · cases isBinary

end Rule

/-! ### Nodes of texts -/

/-- A node of a text without faults: it has none, stands in the text, and is made by the rules of
the grammar, and so are all nodes inside it. -/
structure Node.Belongs (text : List Char) (n : Node) : Prop where
  clean : n.hasError = false
  spans : Solid text n.start n.stop
  placed : Placed (Solid text) n.start n.children n.stop
  made : Rule.Made Grammar.ruleOf JavaRule n
  allMade : Rule.AllMade Grammar.ruleOf JavaRule n.children

namespace Node

variable {text : List Char} {n c : Node}

theorem belongs_of_mem {ns : List Node} {lo hi : Nat} (clean : ∀ m ∈ ns, m.hasError = false)
    (placed : Placed (Solid text) lo ns hi)
    (allMade : Rule.AllMade Grammar.ruleOf JavaRule ns) (h : c ∈ ns) : c.Belongs text := by
  obtain ⟨_, inside, spans, _⟩ := placed.of_mem h
  exact ⟨clean c h, spans (clean c h), inside, allMade.made h, allMade.children h⟩

theorem Belongs.child (h : n.Belongs text) (hc : c ∈ n.children) : c.Belongs text :=
  belongs_of_mem (fun _ hm => hasError_of_mem_children h.clean hm) h.placed h.allMade hc

theorem belongs_of_mem_parse (clean : (parse text).hasError = false)
    (h : c ∈ (parse text).children) : c.Belongs text :=
  belongs_of_mem (fun _ hm => hasError_of_mem_children clean hm) (placed_parse clean)
    (allMade_parse clean) h

/-- A node that is not bare has a kind that is no fault. -/
theorem Belongs.not_isBare (h : n.Belongs text) (named : n.isNamed = true) : ¬ n.IsBare := by
  rintro (bare | missing)
  · rw [named] at bare
    cases bare
  · have faultless := not_isAny_of_hasError h.clean
    rw [isAny, List.any_cons, List.any_cons, missing, Bool.true_or, Bool.or_true] at faultless
    cases faultless

theorem Belongs.mem_core (h : n.Belongs text) (hc : c ∈ n.children)
    (noComment : c.isComment = false) : c ∈ core n.children := by
  refine Java.mem_core.2 ⟨hc, ?_⟩
  have faultless := not_isAny_of_hasError (h.child hc).clean
  rw [isAny, List.any_cons, Bool.or_eq_false_iff] at faultless
  rw [isExtra, noComment, faultless.1]
  rfl

theorem Belongs.loose (h : n.Belongs text) : ∀ c ∈ n.children, c.isExtra = true → c.IsLoose :=
  fun _ hc => (h.allMade.made hc).loose

theorem role_of_child? {part : Role} (h : n.child? part = some c) : c.role = some part := by
  have found := List.find?_some h
  exact eq_of_beq found

theorem Belongs.not_isComment_of_child? {part : Role} (h : n.Belongs text)
    (found : n.child? part = some c) : c.isComment = false := by
  cases comment : c.isComment with
  | false => rfl
  | true =>
    have extra : c.isExtra = true := by rw [isExtra, comment, Bool.true_or]
    have none := (h.loose c (mem_children_of_child? found) extra).role
    rw [role_of_child? found] at none
    cases none

/-- The rule that gives what is inside a node. -/
theorem Belongs.exists_rule {k : Kind} (h : n.Belongs text) (is : n.is k = true)
    (hc : c ∈ n.children) : ∃ r, JavaRule k r ∧ Rule.Fills Grammar.ruleOf r n.children := by
  obtain ⟨kind, r, label, known, fills⟩ := h.made.inside (List.ne_nil_of_mem hc)
  rw [Node.is, label, beq_iff_eq, Label.kind.injEq] at is
  exact ⟨r, is ▸ known, fills⟩

/-- The parts of a call: what is before the name, the name, and the arguments. -/
theorem Belongs.parts_of_call (h : n.Belongs text) (is : n.is .methodInvocation = true)
    (hc : c ∈ n.children) :
    ∃ before name arguments, core n.children = before ++ (name ++ arguments) ∧
      (∀ m ∈ before, m.role ≠ some .name ∧ m.role ≠ some .arguments ∧
        (m.role = some .typeArguments → m.is .typeArguments = true)) ∧
      (∀ m ∈ name, m.role = some .name ∧ m.children = []) ∧
      ∀ m ∈ arguments, m.role = some .arguments ∧ m.is .argumentList = true := by
  obtain ⟨r, known, fills⟩ := h.exists_rule is hc
  have isCall : r.isCall = true :=
    known.all rfl fun s => by cases s <;> rfl
  exact fills.parts_of_call isCall

theorem Belongs.mem_core_of_role {part : Role} (h : n.Belongs text) (hc : c ∈ n.children)
    (role : c.role = some part) : c ∈ core n.children := by
  refine Java.mem_core.2 ⟨hc, ?_⟩
  cases extra : c.isExtra with
  | false => rfl
  | true =>
    have none := (h.loose c hc extra).role
    rw [role] at none
    cases none

/-- The name in a call holds nothing. -/
theorem Belongs.name_leaf (h : n.Belongs text) (is : n.is .methodInvocation = true)
    (hc : c ∈ n.children) (name : c.role = some .name) : c.children = [] := by
  obtain ⟨before, names, arguments, parts, hbefore, hnames, harguments⟩ := h.parts_of_call is hc
  have mem := h.mem_core_of_role hc name
  rw [parts] at mem
  rcases List.mem_append.1 mem with mem | mem
  · exact ((hbefore c mem).1 name).elim
  · rcases List.mem_append.1 mem with mem | mem
    · exact (hnames c mem).2
    · have role := (harguments c mem).1
      rw [name] at role
      cases role

/-- The arguments of a call are a list of arguments. -/
theorem Belongs.is_argumentList (h : n.Belongs text) (is : n.is .methodInvocation = true)
    (hc : c ∈ n.children) (role : c.role = some .arguments) : c.is .argumentList = true := by
  obtain ⟨before, names, arguments, parts, hbefore, hnames, harguments⟩ := h.parts_of_call is hc
  have mem := h.mem_core_of_role hc role
  rw [parts] at mem
  rcases List.mem_append.1 mem with mem | mem
  · exact ((hbefore c mem).2.1 role).elim
  · rcases List.mem_append.1 mem with mem | mem
    · have name := (hnames c mem).1
      rw [role] at name
      cases name
    · exact (harguments c mem).2

/-- The type arguments of a call are such. -/
theorem Belongs.is_typeArguments (h : n.Belongs text) (is : n.is .methodInvocation = true)
    (hc : c ∈ n.children) (role : c.role = some .typeArguments) : c.is .typeArguments = true := by
  obtain ⟨before, names, arguments, parts, hbefore, hnames, harguments⟩ := h.parts_of_call is hc
  have mem := h.mem_core_of_role hc role
  rw [parts] at mem
  rcases List.mem_append.1 mem with mem | mem
  · exact (hbefore c mem).2.2 role
  · rcases List.mem_append.1 mem with mem | mem
    · have name := (hnames c mem).1
      rw [role] at name
      cases name
    · have arguments := (harguments c mem).1
      rw [role] at arguments
      cases arguments

/-- In a call, the arguments come after the name. -/
theorem Belongs.name_before_arguments {d : Node} (h : n.Belongs text)
    (is : n.is .methodInvocation = true) (hc : c ∈ n.children) (name : c.role = some .name)
    (hd : d ∈ n.children) (role : d.role = some .arguments) : c.stop ≤ d.start := by
  obtain ⟨before, names, arguments, parts, hbefore, hnames, harguments⟩ := h.parts_of_call is hc
  have cMem := h.mem_core_of_role hc name
  have dMem := h.mem_core_of_role hd role
  have placed : Placed (Solid text) n.start (core n.children) n.stop :=
    h.placed.sublist List.filter_sublist
  rw [parts, ← List.append_assoc] at cMem dMem placed
  obtain ⟨mid, first, second⟩ := placed.of_append
  have early : c ∈ before ++ names := by
    rcases List.mem_append.1 cMem with mem | mem
    · exact mem
    · have other := (harguments c mem).1
      rw [name] at other
      cases other
  have late : d ∈ arguments := by
    rcases List.mem_append.1 dMem with mem | mem
    · rcases List.mem_append.1 mem with mem | mem
      · exact ((hbefore d mem).2.1 role).elim
      · have other := (hnames d mem).1
        rw [role] at other
        cases other
    · exact mem
  have := (first.of_mem early).2.2.2
  have := (second.of_mem late).1
  omega

/-- The nodes of an `if` that count. -/
theorem Belongs.core_of_test (h : n.Belongs text) (is : n.is .ifStatement = true)
    (hc : c ∈ n.children) :
    ∃ word condition first others, core n.children = word :: condition :: first :: others ∧
      (word.IsBare ∧ word.role = none) ∧ condition.role = some .condition ∧
      first.role = some .consequence ∧
      (others = [] ∨ ∃ word second, others = [word, second] ∧ (word.IsBare ∧ word.role = none) ∧
        second.role = some .alternative) := by
  obtain ⟨r, known, regular, op, ts, nodes, supplied, proper, derives, inside⟩ :=
    h.exists_rule is hc
  have isTest : r.isTest = true := known.all rfl fun s => by cases s <;> rfl
  rw [inside, core_dropWhile]
  exact derives.core_of_test isRegularGrammar_ruleOf isTest proper regular supplied

/-- Beside tokens and comments there is in an `if` its condition and its branches. -/
theorem Belongs.part_of_test (h : n.Belongs text) (is : n.is .ifStatement = true)
    (hc : c ∈ n.children) (named : c.isNamed = true) (noComment : c.isComment = false) :
    ∃ part ∈ [Role.condition, .consequence, .alternative], n.child? part = some c := by
  obtain ⟨word, condition, first, others, core, ⟨bare, wordRole⟩, conditionRole, firstRole, rest⟩ :=
    h.core_of_test is hc
  have mem := h.mem_core hc noComment
  have notBare := (h.child hc).not_isBare named
  simp only [child?, ← find?_core h.loose, core, List.find?_cons, wordRole, conditionRole,
    firstRole]
  rw [core] at mem
  rcases List.mem_cons.1 mem with rfl | mem
  · exact (notBare bare).elim
  rcases List.mem_cons.1 mem with rfl | mem
  · exact ⟨.condition, by decide, rfl⟩
  rcases List.mem_cons.1 mem with rfl | mem
  · exact ⟨.consequence, by decide, rfl⟩
  rcases rest with rfl | ⟨word, second, rfl, ⟨bare, wordRole⟩, secondRole⟩
  · exact (List.not_mem_nil mem).elim
  rcases List.mem_cons.1 mem with rfl | mem
  · exact (notBare bare).elim
  · cases List.mem_singleton.1 mem
    refine ⟨.alternative, by decide, ?_⟩
    rw [List.find?_cons, List.find?_cons, wordRole, secondRole]
    rfl

/-- An `if` begins with a word before its condition and its branches. -/
theorem Belongs.start_lt_of_test (h : n.Belongs text) (is : n.is .ifStatement = true)
    (hc : c ∈ n.children) (named : c.isNamed = true) (noComment : c.isComment = false) :
    n.start < c.start := by
  obtain ⟨word, condition, first, others, core, ⟨bare, _⟩, _⟩ := h.core_of_test is hc
  have placed : Placed (Solid text) n.start (Java.core n.children) n.stop :=
    h.placed.sublist List.filter_sublist
  have mem := h.mem_core hc noComment
  have inside : word ∈ n.children := by
    have wordMem : word ∈ Java.core n.children := core ▸ List.mem_cons_self
    exact (List.mem_filter.1 wordMem).1
  rw [core] at mem placed
  rcases List.mem_cons.1 mem with rfl | later
  · exact ((h.child hc).not_isBare named bare).elim
  · rw [← List.singleton_append] at placed
    obtain ⟨mid, front, back⟩ := placed.of_append
    have wide := (h.child inside).spans.wide
    have low := front.of_mem List.mem_cons_self
    have high := (back.of_mem later).1
    omega

/-- The second branch of an `if` comes after the first. -/
theorem Belongs.branches_apart {one two : Node} (h : n.Belongs text)
    (is : n.is .ifStatement = true) (hone : n.child? .consequence = some one)
    (htwo : n.child? .alternative = some two) : one.stop ≤ two.start := by
  obtain ⟨word, condition, first, others, core, ⟨_, wordRole⟩, conditionRole, firstRole, rest⟩ :=
    h.core_of_test is (mem_children_of_child? hone)
  simp only [child?, ← find?_core h.loose, core, List.find?_cons, wordRole, conditionRole,
    firstRole] at hone htwo
  cases hone
  have placed : Placed (Solid text) n.start ([word, condition, one] ++ others) n.stop := by
    have sub : Placed (Solid text) n.start (Java.core n.children) n.stop :=
      h.placed.sublist List.filter_sublist
    rwa [core] at sub
  obtain ⟨mid, before, later⟩ := placed.of_append
  have stop := (before.of_mem (List.mem_cons_of_mem _ (List.mem_cons_of_mem _
    List.mem_cons_self))).2.2.2
  have start := (later.of_mem (List.mem_of_find?_eq_some htwo)).1
  omega

/-- The nodes of a comparison that count. -/
theorem Belongs.core_of_binary (h : n.Belongs text) (is : n.is .binaryExpression = true)
    (hc : c ∈ n.children) :
    ∃ left operator right, core n.children = [left, operator, right] ∧
      n.child? .left = some left ∧ n.child? .operator = some operator ∧
      n.child? .right = some right := by
  obtain ⟨r, known, regular, op, ts, nodes, supplied, proper, derives, inside⟩ :=
    h.exists_rule is hc
  have isBinary : r.isBinary = true := known.all rfl fun s => by cases s <;> decide +kernel
  obtain ⟨left, operator, right, parts, leftRole, operatorRole, rightRole⟩ :=
    derives.core_of_binary isRegularGrammar_ruleOf isBinary proper regular supplied
  have core : core n.children = [left, operator, right] := by
    rw [inside, core_dropWhile, parts]
  have found (part : Role) :
      n.child? part = [left, operator, right].find? (·.role == some part) := by
    rw [Node.child?, ← find?_core h.loose, core]
  refine ⟨left, operator, right, core, ?_, ?_, ?_⟩
  · rw [found, List.find?_cons, leftRole]
    rfl
  · rw [found, List.find?_cons, List.find?_cons, leftRole, operatorRole]
    rfl
  · rw [found, List.find?_cons, List.find?_cons, List.find?_cons, leftRole, operatorRole, rightRole]
    rfl

/-- Beside comments there are in a comparison its operator and the two operands. -/
theorem Belongs.part_of_binary (h : n.Belongs text) (is : n.is .binaryExpression = true)
    (hc : c ∈ n.children) (noComment : c.isComment = false) :
    ∃ part ∈ [Role.left, .operator, .right], n.child? part = some c := by
  obtain ⟨left, operator, right, core, hleft, hoperator, hright⟩ := h.core_of_binary is hc
  have mem := h.mem_core hc noComment
  rw [core] at mem
  rcases List.mem_cons.1 mem with rfl | mem
  · exact ⟨.left, by decide, hleft⟩
  rcases List.mem_cons.1 mem with rfl | mem
  · exact ⟨.operator, by decide, hoperator⟩
  · cases List.mem_singleton.1 mem
    exact ⟨.right, by decide, hright⟩

/-- The named nodes other than comments are the named ones among those that count. -/
theorem Belongs.filter_core (h : n.Belongs text) :
    (core n.children).filter isNamed = n.namedChildren.filter (!·.isComment) := by
  rw [core, namedChildren, List.filter_filter, List.filter_filter]
  apply List.filter_congr
  intro c hc
  cases comment : c.isComment with
  | true => rw [isExtra, comment, Bool.true_or, Bool.not_true, Bool.and_false, Bool.false_and]
  | false =>
    have counts := (List.mem_filter.1 (h.mem_core hc comment)).2
    rw [counts, Bool.and_true, Bool.not_false, Bool.true_and]

theorem isComment_of_is {k : Kind} (is : n.is k = true) (other : k.isComment = false) :
    n.isComment = false := by
  rw [Node.is, beq_iff_eq] at is
  rw [isComment, is]
  exact other

theorem Belongs.comment_leaf (h : n.Belongs text) (comment : n.isComment = true) :
    n.children = [] := by
  refine (h.made.loose ?_).children
  rw [isExtra, comment, Bool.true_or]

/-- A node of a kind that no rule fills holds nothing. -/
theorem Belongs.leaf {k : Kind} (h : n.Belongs text) (is : n.is k = true)
    (top : (Grammar.program.insides k).isEmpty = true)
    (symbols : ∀ s, ((Grammar.ruleOf s).insides k).isEmpty = true) : n.children = [] := by
  refine List.eq_nil_iff_forall_not_mem.2 fun c hc => ?_
  obtain ⟨r, here | ⟨s, here⟩, _⟩ := h.exists_rule is hc
  · rw [List.isEmpty_iff.1 top] at here
    cases here
  · rw [List.isEmpty_iff.1 (symbols s)] at here
    cases here

theorem Belongs.identifier_leaf (h : n.Belongs text) (is : n.is .identifier = true) :
    n.children = [] :=
  h.leaf is rfl fun s => by cases s <;> rfl

theorem Belongs.null_leaf (h : n.Belongs text) (is : n.is .nullLiteral = true) :
    n.children = [] :=
  h.leaf is rfl fun s => by cases s <;> rfl

/-- A node has a text. -/
theorem Belongs.text_ne_empty {text : String} (h : n.Belongs text.toList) :
    n.text (.ofString text) ≠ "" := by
  have wide := h.spans.wide
  obtain ⟨front, middle, back, split, first, last⟩ := h.spans.first.split h.spans.last (by omega)
  rw [Nat.zero_add] at first
  rw [Node.text, Text.Source.textOf, Text.Source.slice_eq, Text.Source.toBytes_ofString, Text.encode_eq,
    split, Text.encodeChars_between first last, Text.decodeLossy_encodeChars]
  intro empty
  rw [String.ofList_eq_empty_iff] at empty
  rw [empty] at last
  have none : (Text.encodeChars []).length = 0 := rfl
  omega

end Node

end MonoTap.Java
