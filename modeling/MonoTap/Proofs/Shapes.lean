import MonoTap.Proofs.Reading

/-!
# What nodes are made of

The nodes inside a node of some kind come from a rule for that kind. How many nodes a rule gives,
comments and skipped text apart, can be read off the rule; so can the parts that they play.
-/

set_option autoImplicit false

namespace MonoTap.Java

open Text (encodeChars)

/-! ### Nodes that count -/

/-- The nodes other than those that may stand between any two tokens. -/
def core (ns : List Node) : List Node :=
  ns.filter (!·.isExtra)

/-- Whether nodes of this kind may stand between any two tokens. -/
def Kind.isExtra (k : Kind) : Bool :=
  k.isComment || k == .error

theorem core_cons_extra {n : Node} (h : n.isExtra = true) (ns : List Node) :
    core (n :: ns) = core ns := by
  rw [core, List.filter_cons, h]
  rfl

theorem core_cons {n : Node} (h : n.isExtra = false) (ns : List Node) :
    core (n :: ns) = n :: core ns := by
  rw [core, List.filter_cons, h]
  rfl

theorem core_append (ns ms : List Node) : core (ns ++ ms) = core ns ++ core ms :=
  List.filter_append ..

theorem mem_core {n : Node} {ns : List Node} : n ∈ core ns ↔ n ∈ ns ∧ n.isExtra = false := by
  rw [core, List.mem_filter, Bool.not_eq_true']

theorem core_eq_nil {ns : List Node} (h : ∀ n ∈ ns, n.isExtra = true) : core ns = [] := by
  refine List.filter_eq_nil_iff.2 fun n hn => ?_
  rw [h n hn]
  exact Bool.false_ne_true

theorem core_dropWhile (ns : List Node) : core (ns.dropWhile Node.isExtra) = core ns := by
  have split := List.takeWhile_append_dropWhile (p := Node.isExtra) (l := ns)
  have outside : core (ns.takeWhile Node.isExtra) = [] :=
    core_eq_nil (List.all_eq_true.1 List.all_takeWhile)
  conv => rhs; rw [← split]
  rw [core_append, outside, List.nil_append]

theorem Node.isExtra_kind (k : Kind) (role : Option Role) (start stop : Nat) (ns : List Node) :
    (mk (.kind k) role start stop ns).isExtra = k.isExtra := by
  have same : ((Label.kind k == .kind .error) : Bool) = (k == .error) := by
    rw [Bool.eq_iff_iff, beq_iff_eq, beq_iff_eq, Label.kind.injEq]
  rw [isExtra, isComment, is, label, same]
  rfl

theorem Node.isExtra_withRole (n : Node) (part : Role) :
    (n.withRole part).isExtra = n.isExtra := by
  cases n
  rfl

theorem core_assign (part : Role) (ns : List Node) :
    core (Node.assign part ns) = (core ns).map (·.withRole part) := by
  induction ns with
  | nil => rfl
  | cons n ns ih =>
    rw [Node.assign, List.map_cons]
    rw [Node.assign] at ih
    cases h : n.isExtra with
    | true =>
      rw [if_pos rfl, core_cons_extra h, core_cons_extra h]
      exact ih
    | false =>
      rw [if_neg Bool.false_ne_true, core_cons h, List.map_cons,
        core_cons ((n.isExtra_withRole part).trans h), ih]

/-- Around nodes that count there is one node, and else there is none. -/
theorem core_wrap {k : Kind} (plain : k.isExtra = false) (ns : List Node) :
    (core ns = [] ∧ Node.wrap k ns = ns) ∨
      core ns ≠ [] ∧ ∃ outside start stop, Node.wrap k ns =
        outside ++ [.mk (.kind k) none start stop (ns.dropWhile Node.isExtra)] ∧
        (∀ n ∈ outside, n ∈ ns ∧ n.isExtra = true) ∧
        core (Node.wrap k ns) =
          [.mk (.kind k) none start stop (ns.dropWhile Node.isExtra)] := by
  rcases Node.wrap_cases k ns with
    ⟨extras, same⟩ | ⟨outside, first, others, last, split, extras, counts, _, same⟩
  · exact Or.inl ⟨core_eq_nil extras, same⟩
  · have inside : ns.dropWhile Node.isExtra = first :: others := by
      rw [split, List.dropWhile_append_of_pos extras, List.dropWhile_cons, counts]
      rfl
    refine Or.inr ⟨?_, outside, first.start, last.stop, ?_, ?_, ?_⟩
    · rw [split, core_append, core_eq_nil extras, List.nil_append, core_cons counts]
      exact List.cons_ne_nil _ _
    · rw [same, inside]
    · intro n hn
      exact ⟨split ▸ List.mem_append_left _ hn, extras n hn⟩
    · rw [same, inside, core_append, core_eq_nil extras, List.nil_append,
        core_cons ((Node.isExtra_kind ..).trans plain)]
      rfl

theorem core_toNodes {t : Token} {label : Label} (proper : t.Proper)
    (plain : ∀ k, label = .kind k → k.isExtra = false) :
    ∃ l, core (t.toNodes label) = [.mk l none t.start t.stop []] ∧
      (l = label ∨ l = .kind .missing) := by
  have outside : core t.extras = [] := core_eq_nil fun n hn => (proper.loose n hn).extra
  have counts (l : Label) (h : (Node.mk l none t.start t.stop []).isExtra = false) :
      core (t.extras ++ [.mk l none t.start t.stop []]) = [.mk l none t.start t.stop []] := by
    rw [core_append, outside, List.nil_append, core_cons h]
    rfl
  rw [Token.toNodes]
  split
  · exact ⟨_, counts _ rfl, Or.inr rfl⟩
  · refine ⟨label, counts label ?_, Or.inl rfl⟩
    cases label with
    | kind k => exact (Node.isExtra_kind ..).trans (plain k rfl)
    | token text => rfl

/-! ### How many nodes a rule gives -/

/-! ### Nodes and the nodes inside them -/

/-- A property holds of some nodes and of all nodes inside them. -/
def Throughout (P : Node → Prop) (ns : List Node) : Prop :=
  ∀ n ∈ ns, ∀ m ∈ n.preorder, P m

section

variable {P : Node → Prop} {ns ms : List Node} {n : Node}

theorem throughout_nil : Throughout P [] := by
  intro n hn
  cases hn

theorem Throughout.append (first : Throughout P ns) (second : Throughout P ms) :
    Throughout P (ns ++ ms) := by
  intro n hn
  rcases List.mem_append.1 hn with hn | hn
  · exact first n hn
  · exact second n hn

theorem Throughout.subset (h : Throughout P ns) (sub : ms ⊆ ns) : Throughout P ms :=
  fun n hn => h n (sub hn)

theorem throughout_of (each : ∀ n ∈ ns, P n) (inside : ∀ n ∈ ns, Throughout P n.children) :
    Throughout P ns := by
  intro n hn m hm
  rw [Node.preorder_eq] at hm
  rcases List.mem_cons.1 hm with rfl | hm
  · exact each m hn
  · obtain ⟨c, hc, hm⟩ := Node.mem_preorderAll.1 hm
    exact inside n hn c hc m hm

theorem throughout_singleton (own : P n) (inside : Throughout P n.children) : Throughout P [n] := by
  apply throughout_of
  · simpa using own
  · simpa using inside

theorem Throughout.own (h : Throughout P ns) (hn : n ∈ ns) : P n := by
  apply h n hn
  rw [Node.preorder_eq]
  exact List.mem_cons_self

theorem Throughout.children (h : Throughout P ns) (hn : n ∈ ns) : Throughout P n.children := by
  intro c hc m hm
  apply h n hn
  rw [Node.preorder_eq]
  exact List.mem_cons_of_mem _ (Node.mem_preorderAll.2 ⟨c, hc, hm⟩)

theorem Throughout.assign {part : Role} (h : Throughout P ns)
    (roles : ∀ n, n.isExtra = false → P n → P (n.withRole part)) :
    Throughout P (Node.assign part ns) := by
  apply throughout_of
  · intro m hm
    obtain ⟨n, hn, rfl⟩ := List.mem_map.1 hm
    split
    · exact h.own hn
    · rename_i counts
      exact roles n (by simpa using counts) (h.own hn)
  · intro m hm
    obtain ⟨n, hn, rfl⟩ := List.mem_map.1 hm
    have inside := h.children hn
    split
    · exact inside
    · cases n
      exact inside

end

namespace Rule

variable {S : Type}

/-- The least number of nodes that a rule gives, where the left part of the chain around it and each
symbol count as one. -/
def least : Rule S → Nat
  | .token _ | .leaf _ _ | .name _ | .literal | .left | .ref _ => 1
  | .seq a b => least a + least b
  | .alt a b => min (least a) (least b)
  | .node _ r => min 1 (least r)
  | .field _ r => least r
  | .chain base suffix => min (least base) (least suffix)
  | .empty | .many _ | .unless _ => 0

/-- The greatest number of nodes that a rule gives, if there is one. -/
def most : Rule S → Option Nat
  | .token _ | .leaf _ _ | .name _ | .literal | .left | .ref _ | .node _ _ => some 1
  | .seq a b => (most a).bind fun m => (most b).map (m + ·)
  | .alt a b => (most a).bind fun m => (most b).map (max m)
  | .field _ r => most r
  | .chain base suffix => (most base).bind fun m => (most suffix).map (max m)
  | .many _ => none
  | .empty | .unless _ => some 0

/-- Whether a rule gives one node. -/
def isSolo (r : Rule S) : Bool :=
  r.least == 1 && r.most == some 1

/-- Whether no rule inside uses the left part of a chain in an odd way, every chain goes on from one
node to one node, and no node but loose ones is of a kind that may stand anywhere. -/
def isRegular : Rule S → Bool
  | .leaf _ k | .name k => !k.isExtra
  | .seq a b | .alt a b => isRegular a && isRegular b
  | .many r | .field _ r => isRegular r
  | .node k r => !k.isExtra && isRegular r
  | .chain base suffix => base.isSolo && suffix.isSolo && isRegular base && isRegular suffix
  | _ => true

/-- What the rules for nodes of some kind, inside a rule, are about. -/
def insides (k : Kind) : Rule S → List (Rule S)
  | .seq a b | .alt a b | .chain a b => insides k a ++ insides k b
  | .many r | .field _ r => insides k r
  | .node kind r => if kind = k then r :: insides k r else insides k r
  | _ => []

/-- Whether the left part of the chain around a rule is not used, or is one node. -/
def Supplied (rule : Rule S) (op : List Node) : Prop :=
  rule.leftUse = .never ∨ (core op).length = 1

theorem leftUse_seq {a b : Rule S} (h : (seq a b).leftUse = .never) :
    a.leftUse = .never ∧ b.leftUse = .never := by
  rw [leftUse] at h
  split at h
  · exact ⟨h, ‹_›⟩
  · cases h

theorem leftUse_alt {a b : Rule S} (h : (alt a b).leftUse = .never) :
    a.leftUse = .never ∧ b.leftUse = .never := by
  rw [leftUse] at h
  split at h
  · rename_i same
    exact ⟨h, same ▸ h⟩
  · cases h

theorem leftUse_many {r : Rule S} (h : (many r).leftUse = .never) : r.leftUse = .never := by
  rw [leftUse] at h
  split at h
  · assumption
  · cases h

theorem leftUse_chain {base suffix : Rule S} (h : (chain base suffix).leftUse = .never) :
    base.leftUse = .never := by
  rw [leftUse] at h
  split at h
  · exact h
  · cases h

variable {a b r : Rule S} {op : List Node}

theorem Supplied.seq (h : (Rule.seq a b).Supplied op) : a.Supplied op ∧ b.Supplied op :=
  h.elim (fun never => ⟨.inl (leftUse_seq never).1, .inl (leftUse_seq never).2⟩)
    fun one => ⟨.inr one, .inr one⟩

theorem Supplied.alt (h : (Rule.alt a b).Supplied op) : a.Supplied op ∧ b.Supplied op :=
  h.elim (fun never => ⟨.inl (leftUse_alt never).1, .inl (leftUse_alt never).2⟩)
    fun one => ⟨.inr one, .inr one⟩

theorem Supplied.many (h : (Rule.many r).Supplied op) : r.Supplied op :=
  h.imp_left leftUse_many

theorem Supplied.node {k : Kind} (h : (Rule.node k r).Supplied op) : r.Supplied op := h

theorem Supplied.field {part : Role} (h : (Rule.field part r).Supplied op) : r.Supplied op := h

theorem Supplied.chain (h : (Rule.chain a b).Supplied op) : a.Supplied op :=
  h.imp_left leftUse_chain

/-- A grammar whose symbols stand for one node each, and whose rules are regular. -/
structure IsRegularGrammar (grammar : S → Rule S) : Prop where
  closed : ∀ s, (grammar s).leftUse = .never
  solo : ∀ s, (grammar s).isSolo = true
  regular : ∀ s, (grammar s).isRegular = true

variable {grammar : S → Rule S} {rule : Rule S} {ts : List Token} {nodes : List Node}

/-- Whether a number of nodes is as a rule has it. -/
structure Counts (rule : Rule S) (n : Nat) : Prop where
  least : rule.least ≤ n
  most : ∀ m, rule.most = some m → n ≤ m

theorem Counts.one {n : Nat} (h : rule.Counts n) (solo : rule.isSolo = true) : n = 1 := by
  rw [isSolo, Bool.and_eq_true, beq_iff_eq, beq_iff_eq] at solo
  have lower := h.least
  have upper := h.most 1 solo.2
  omega

theorem counts_one (least : rule.least = 1) (most : rule.most = some 1) : rule.Counts 1 := by
  refine ⟨Nat.le_of_eq least, fun m hm => ?_⟩
  rw [most] at hm
  cases hm
  exact Nat.le_refl _

theorem isSolo_chain {base suffix : Rule S} (soloBase : base.isSolo = true)
    (soloSuffix : suffix.isSolo = true) : (chain base suffix).isSolo = true := by
  rw [isSolo, Bool.and_eq_true, beq_iff_eq, beq_iff_eq] at soloBase soloSuffix
  rw [isSolo, least, most, soloBase.1, soloBase.2, soloSuffix.1, soloSuffix.2]
  rfl

theorem counts_chain {base suffix : Rule S} (soloBase : base.isSolo = true)
    (soloSuffix : suffix.isSolo = true) : (chain base suffix).Counts 1 := by
  have solo := isSolo_chain soloBase soloSuffix
  rw [isSolo, Bool.and_eq_true, beq_iff_eq, beq_iff_eq] at solo
  exact counts_one solo.1 solo.2

theorem isRegular_chain_left {suffix : Rule S} (solo : suffix.isSolo = true)
    (regular : suffix.isRegular = true) : (chain left suffix).isRegular = true := by
  rw [isRegular, solo, regular]
  rfl

theorem plain_of_literalLabel {t : Token} {label : Label} (proper : t.Proper)
    (is : literalLabel? t = some label) : ∀ k, label = .kind k → k.isExtra = false := by
  rintro k rfl
  rw [literalLabel?] at is
  split at is
  · rename_i l hl
    cases is
    obtain ⟨comment, error⟩ := proper.literal _ hl
    rw [Kind.isExtra, comment, Bool.false_or, beq_eq_false_iff_ne]
    exact error
  · cases is

theorem exists_of_bind_map {first second : Option Nat} {f : Nat → Nat → Nat} {m : Nat}
    (h : (first.bind fun x => second.map (f x)) = some m) :
    ∃ x y, first = some x ∧ second = some y ∧ f x y = m := by
  obtain ⟨x, hx, rest⟩ := Option.bind_eq_some_iff.1 h
  obtain ⟨y, hy, same⟩ := Option.map_eq_some_iff.1 rest
  exact ⟨x, y, hx, hy, same⟩

/-- A derivation gives as many nodes as its rule has it. -/
theorem Derives.counts (g : IsRegularGrammar grammar) (h : Derives grammar rule op ts nodes)
    (proper : ∀ t ∈ ts, t.Proper) (regular : rule.isRegular = true) (supplied : rule.Supplied op) :
    rule.Counts (core nodes).length := by
  -- a token gives one node, whatever it becomes
  have token {t : Token} {label : Label} (proper : t.Proper)
      (plain : ∀ k, label = .kind k → k.isExtra = false) :
      (core (t.toNodes label)).length = 1 := by
    obtain ⟨l, single, _⟩ := core_toNodes proper plain
    rw [single]
    rfl
  induction h with
  | empty => exact ⟨Nat.zero_le _, fun m hm => Nat.zero_le _⟩
  | left =>
    rcases supplied with never | one
    · cases never
    · exact one ▸ counts_one rfl rfl
  | @token op text t reads =>
    have one := token (proper t List.mem_cons_self) fun k (h : Label.token text = .kind k) => by cases h
    exact one ▸ counts_one rfl rfl
  | @glued op text next texts t ts stop reads more =>
    have extras : core t.extras = [] :=
      core_eq_nil fun n hn => ((proper t List.mem_cons_self).loose n hn).extra
    rw [core_append, extras]
    exact counts_one rfl rfl
  | @leaf op text k t reads =>
    have plain : k.isExtra = false := by rwa [isRegular, Bool.not_eq_true'] at regular
    have one := token (proper t List.mem_cons_self) fun l (h : Label.kind k = .kind l) => by
      cases h
      exact plain
    exact one ▸ counts_one rfl rfl
  | @name op k t isName =>
    have plain : k.isExtra = false := by rwa [isRegular, Bool.not_eq_true'] at regular
    have one := token (proper t List.mem_cons_self) fun l (h : Label.kind k = .kind l) => by
      cases h
      exact plain
    exact one ▸ counts_one rfl rfl
  | @literal op label t is =>
    have one := token (proper t List.mem_cons_self) (plain_of_literalLabel
      (proper t List.mem_cons_self) is)
    exact one ▸ counts_one rfl rfl
  | @ref op nodes s ts inner ih =>
    have one := (ih proper (g.regular s) (.inl (g.closed s))).one (g.solo s)
    exact one ▸ counts_one rfl rfl
  | @seq a b op first second ts us left right ihLeft ihRight =>
    rw [isRegular, Bool.and_eq_true] at regular
    have countsLeft := ihLeft (fun t ht => proper t (List.mem_append_left _ ht)) regular.1
      supplied.seq.1
    have countsRight := ihRight (fun t ht => proper t (List.mem_append_right _ ht)) regular.2
      supplied.seq.2
    rw [core_append, List.length_append]
    refine ⟨Nat.add_le_add countsLeft.least countsRight.least, fun m hm => ?_⟩
    obtain ⟨x, y, hx, hy, rfl⟩ := exists_of_bind_map hm
    exact Nat.add_le_add (countsLeft.most x hx) (countsRight.most y hy)
  | @altLeft a b op nodes ts left ih =>
    rw [isRegular, Bool.and_eq_true] at regular
    have counts := ih proper regular.1 supplied.alt.1
    refine ⟨Nat.le_trans (Nat.min_le_left _ _) counts.least, fun m hm => ?_⟩
    obtain ⟨x, y, hx, hy, rfl⟩ := exists_of_bind_map hm
    exact Nat.le_trans (counts.most x hx) (Nat.le_max_left _ _)
  | @altRight a b op nodes ts right ih =>
    rw [isRegular, Bool.and_eq_true] at regular
    have counts := ih proper regular.2 supplied.alt.2
    refine ⟨Nat.le_trans (Nat.min_le_right _ _) counts.least, fun m hm => ?_⟩
    obtain ⟨x, y, hx, hy, rfl⟩ := exists_of_bind_map hm
    exact Nat.le_trans (counts.most y hy) (Nat.le_max_right _ _)
  | manyNil => exact ⟨Nat.zero_le _, fun m hm => by cases hm⟩
  | manyCons head tail ihHead ihTail => exact ⟨Nat.zero_le _, fun m hm => by cases hm⟩
  | «unless» => exact ⟨Nat.zero_le _, fun m hm => Nat.zero_le _⟩
  | @node r k op nodes ts inner ih =>
    rw [isRegular, Bool.and_eq_true, Bool.not_eq_true'] at regular
    have counts := ih proper regular.2 supplied.node
    rcases core_wrap regular.1 nodes with ⟨none, same⟩ | ⟨_, _, _, _, _, _, single⟩
    · rw [same, none]
      rw [none] at counts
      refine ⟨?_, fun m hm => Nat.zero_le _⟩
      rw [least]
      exact Nat.le_trans (Nat.min_le_right _ _) counts.least
    · rw [single]
      refine ⟨Nat.min_le_left _ _, fun m hm => ?_⟩
      cases hm
      exact Nat.le_refl _
  | field inner ih =>
    have counts := ih proper regular supplied.field
    rw [core_assign, List.length_map]
    exact ⟨counts.least, counts.most⟩
  | @chainBase base suffix op nodes ts inner ih =>
    obtain ⟨⟨⟨soloBase, soloSuffix⟩, regularBase⟩, _⟩ := by
      rw [isRegular, Bool.and_eq_true, Bool.and_eq_true, Bool.and_eq_true] at regular
      exact regular
    have one := (ih proper regularBase supplied.chain).one soloBase
    exact one ▸ counts_chain soloBase soloSuffix
  | @chainMore base suffix op nodes longer result ts us vs inner step more ihInner ihStep ihMore =>
    obtain ⟨⟨⟨soloBase, soloSuffix⟩, regularBase⟩, regularSuffix⟩ := by
      rw [isRegular, Bool.and_eq_true, Bool.and_eq_true, Bool.and_eq_true] at regular
      exact regular
    have properBase : ∀ t ∈ ts, t.Proper := fun t ht => proper t (List.mem_append_left _ ht)
    have properStep : ∀ t ∈ us, t.Proper := fun t ht =>
      proper t (List.mem_append_right _ (List.mem_append_left _ ht))
    have properMore : ∀ t ∈ vs, t.Proper := fun t ht =>
      proper t (List.mem_append_right _ (List.mem_append_right _ ht))
    have one := (ihInner properBase regularBase supplied.chain).one soloBase
    have longer := (ihStep properStep regularSuffix (.inr one)).one soloSuffix
    have last := ihMore properMore (isRegular_chain_left soloSuffix regularSuffix) (.inr longer)
    have result := last.one (isSolo_chain rfl soloSuffix)
    exact result ▸ counts_chain soloBase soloSuffix

/-! ### What is inside a node -/

/-- What a rule of a grammar may give as the inside of a node. -/
structure Fills (grammar : S → Rule S) (r : Rule S) (children : List Node) : Prop where
  regular : r.isRegular = true
  source : ∃ op ts nodes, r.Supplied op ∧ (∀ t ∈ ts, t.Proper) ∧ Derives grammar r op ts nodes ∧
    children = nodes.dropWhile Node.isExtra

/-- A node as derivations give it, where `known` are the rules for the nodes of each kind. -/
structure Made (grammar : S → Rule S) (known : Kind → Rule S → Prop) (n : Node) : Prop where
  loose : n.isExtra = true → n.IsLoose
  inside : n.children ≠ [] → ∃ k r, n.label = .kind k ∧ known k r ∧ Fills grammar r n.children

variable {known : Kind → Rule S → Prop}

theorem made_of_isLoose {n : Node} (h : n.IsLoose) : Made grammar known n :=
  ⟨fun _ => h, fun some => (some h.children).elim⟩

theorem made_leaf {label : Label} {role : Option Role} {start stop : Nat}
    (plain : (Node.mk label role start stop []).isExtra = false) :
    Made grammar known (.mk label role start stop []) := by
  refine ⟨fun extra => ?_, fun some => (some rfl).elim⟩
  rw [plain] at extra
  cases extra

theorem made_withRole {n : Node} {part : Role} (h : Made grammar known n)
    (counts : n.isExtra = false) : Made grammar known (n.withRole part) := by
  refine ⟨fun extra => ?_, ?_⟩
  · rw [Node.isExtra_withRole, counts] at extra
    cases extra
  · cases n with
    | mk label role start stop children => exact h.inside

/-- Nodes that are made as derivations make them, and so are all nodes inside them. -/
def AllMade (grammar : S → Rule S) (known : Kind → Rule S → Prop) (ns : List Node) : Prop :=
  ∀ n ∈ ns, ∀ m ∈ n.preorder, Made grammar known m

theorem AllMade.append {ns ms : List Node} (first : AllMade grammar known ns)
    (second : AllMade grammar known ms) : AllMade grammar known (ns ++ ms) :=
  Throughout.append first second

/-- A list of nodes is made well if each of them is and what is inside them is. -/
theorem allMade_of {ns : List Node} (each : ∀ n ∈ ns, Made grammar known n)
    (inside : ∀ n ∈ ns, AllMade grammar known n.children) : AllMade grammar known ns :=
  throughout_of each inside

theorem AllMade.made {ns : List Node} (h : AllMade grammar known ns) {n : Node} (hn : n ∈ ns) :
    Made grammar known n :=
  Throughout.own h hn

theorem AllMade.children {ns : List Node} (h : AllMade grammar known ns) {n : Node}
    (hn : n ∈ ns) : AllMade grammar known n.children :=
  Throughout.children h hn

theorem allMade_of_isLoose {ns : List Node} (loose : ∀ n ∈ ns, n.IsLoose) :
    AllMade grammar known ns := by
  refine allMade_of (fun n hn => made_of_isLoose (loose n hn)) fun n hn => ?_
  rw [(loose n hn).children]
  exact fun c hc => (List.not_mem_nil hc).elim

theorem allMade_leaf {label : Label} {role : Option Role} {start stop : Nat}
    (plain : (Node.mk label role start stop []).isExtra = false) :
    AllMade grammar known [.mk label role start stop []] := by
  refine allMade_of (fun n hn => ?_) fun n hn => ?_
  · exact List.mem_singleton.1 hn ▸ made_leaf plain
  · cases List.mem_singleton.1 hn
    exact fun c hc => (List.not_mem_nil hc).elim

theorem allMade_toNodes {t : Token} {label : Label} (proper : t.Proper)
    (plain : ∀ k, label = .kind k → k.isExtra = false) :
    AllMade grammar known (t.toNodes label) := by
  refine (allMade_of_isLoose proper.loose).append (allMade_leaf ?_)
  split
  · rfl
  · cases label with
    | kind k => exact (Node.isExtra_kind ..).trans (plain k rfl)
    | token text => rfl

theorem AllMade.assign {ns : List Node} {part : Role} (h : AllMade grammar known ns) :
    AllMade grammar known (Node.assign part ns) :=
  Throughout.assign h fun _ counts made => made_withRole made counts

/-- What a derivation gives is made by the rules inside its rule and inside the grammar. -/
theorem Derives.allMade (g : IsRegularGrammar grammar)
    (knows : ∀ s k, ∀ r ∈ (grammar s).insides k, known k r) (h : Derives grammar rule op ts nodes)
    (inRule : ∀ k, ∀ r ∈ rule.insides k, known k r) (proper : ∀ t ∈ ts, t.Proper)
    (regular : rule.isRegular = true) (supplied : rule.Supplied op)
    (operand : AllMade grammar known op) : AllMade grammar known nodes := by
  induction h with
  | empty => exact fun n hn => (List.not_mem_nil hn).elim
  | left => exact operand
  | token reads => exact allMade_toNodes (proper _ List.mem_cons_self) fun k h => by cases h
  | glued reads more =>
    exact (allMade_of_isLoose (proper _ List.mem_cons_self).loose).append (allMade_leaf rfl)
  | @leaf op text k t reads =>
    refine allMade_toNodes (proper _ List.mem_cons_self) fun l h => ?_
    cases h
    rwa [isRegular, Bool.not_eq_true'] at regular
  | @name op k t isName =>
    refine allMade_toNodes (proper _ List.mem_cons_self) fun l h => ?_
    cases h
    rwa [isRegular, Bool.not_eq_true'] at regular
  | literal is =>
    have proper := proper _ List.mem_cons_self
    exact allMade_toNodes proper (plain_of_literalLabel proper is)
  | @ref op nodes s ts inner ih =>
    exact ih (knows s) proper (g.regular s) (.inl (g.closed s)) operand
  | @seq a b op first second ts us left right ihLeft ihRight =>
    rw [isRegular, Bool.and_eq_true] at regular
    exact (ihLeft (fun k r hr => inRule k r (List.mem_append_left _ hr))
        (fun t ht => proper t (List.mem_append_left _ ht)) regular.1 supplied.seq.1 operand).append
      (ihRight (fun k r hr => inRule k r (List.mem_append_right _ hr))
        (fun t ht => proper t (List.mem_append_right _ ht)) regular.2 supplied.seq.2 operand)
  | altLeft left ih =>
    rw [isRegular, Bool.and_eq_true] at regular
    exact ih (fun k r hr => inRule k r (List.mem_append_left _ hr)) proper regular.1
      supplied.alt.1 operand
  | altRight right ih =>
    rw [isRegular, Bool.and_eq_true] at regular
    exact ih (fun k r hr => inRule k r (List.mem_append_right _ hr)) proper regular.2
      supplied.alt.2 operand
  | manyNil => exact fun n hn => (List.not_mem_nil hn).elim
  | manyCons head tail ihHead ihTail =>
    exact (ihHead inRule (fun t ht => proper t (List.mem_append_left _ ht)) regular supplied.many
        operand).append
      (ihTail inRule (fun t ht => proper t (List.mem_append_right _ ht)) regular supplied operand)
  | «unless» => exact fun n hn => (List.not_mem_nil hn).elim
  | @node r k op nodes ts inner ih =>
    have regularNode := regular
    rw [isRegular, Bool.and_eq_true, Bool.not_eq_true'] at regular
    have deeper : ∀ k', ∀ r' ∈ r.insides k', known k' r' := by
      intro k' r' hr
      refine inRule k' r' ?_
      rw [insides]
      split
      · exact List.mem_cons_of_mem _ hr
      · exact hr
    have made := ih deeper proper regular.2 supplied.node operand
    rcases core_wrap regular.1 nodes with
      ⟨_, same⟩ | ⟨_, outside, start, stop, same, extras, _⟩
    · rw [same]
      exact made
    · rw [same]
      have inside : AllMade grammar known (nodes.dropWhile Node.isExtra) := fun n hn =>
        made n ((List.dropWhile_sublist _).subset hn)
      refine .append (fun n hn => made n (extras n hn).1) (allMade_of (fun n hn => ?_) ?_)
      · cases List.mem_singleton.1 hn
        refine ⟨fun extra => ?_, fun _ => ⟨k, r, rfl, inRule k r ?_, regular.2, op, ts, nodes,
          supplied.node, proper, inner, rfl⟩⟩
        · rw [Node.isExtra_kind, regular.1] at extra
          cases extra
        · rw [insides, if_pos rfl]
          exact List.mem_cons_self
      · intro n hn
        cases List.mem_singleton.1 hn
        exact inside
  | field inner ih => exact (ih inRule proper regular supplied.field operand).assign
  | chainBase inner ih =>
    obtain ⟨⟨_, regularBase⟩, _⟩ := by
      rw [isRegular, Bool.and_eq_true, Bool.and_eq_true] at regular
      exact regular
    exact ih (fun k r hr => inRule k r (List.mem_append_left _ hr)) proper regularBase
      supplied.chain operand
  | @chainMore base suffix op nodes longer result ts us vs inner step more ihInner ihStep ihMore =>
    obtain ⟨⟨⟨soloBase, soloSuffix⟩, regularBase⟩, regularSuffix⟩ := by
      rw [isRegular, Bool.and_eq_true, Bool.and_eq_true, Bool.and_eq_true] at regular
      exact regular
    have properBase : ∀ t ∈ ts, t.Proper := fun t ht => proper t (List.mem_append_left _ ht)
    have properStep : ∀ t ∈ us, t.Proper := fun t ht =>
      proper t (List.mem_append_right _ (List.mem_append_left _ ht))
    have properMore : ∀ t ∈ vs, t.Proper := fun t ht =>
      proper t (List.mem_append_right _ (List.mem_append_right _ ht))
    have inSuffix : ∀ k, ∀ r ∈ suffix.insides k, known k r := fun k r hr =>
      inRule k r (List.mem_append_right _ hr)
    have one := (inner.counts g properBase regularBase supplied.chain).one soloBase
    have base := ihInner (fun k r hr => inRule k r (List.mem_append_left _ hr)) properBase
      regularBase supplied.chain operand
    have longerOne := (step.counts g properStep regularSuffix (.inr one)).one soloSuffix
    exact ihMore inSuffix properMore (isRegular_chain_left soloSuffix regularSuffix)
      (.inr longerOne) (ihStep inSuffix properStep regularSuffix (.inr one) base)

end Rule

/-! ### Trees of texts -/

/-- The rules for the nodes of some kind in the tree of a text. -/
def JavaRule (k : Kind) (r : Rule Symbol) : Prop :=
  r ∈ Grammar.program.insides k ∨ ∃ s, r ∈ (Grammar.ruleOf s).insides k

theorem isRegularGrammar_ruleOf : Rule.IsRegularGrammar Grammar.ruleOf where
  closed s := by cases s <;> rfl
  solo s := by cases s <;> decide +kernel
  regular s := by cases s <;> decide +kernel

theorem gluesGenuine_ruleOf (s : Symbol) : (Grammar.ruleOf s).gluesGenuine = true := by
  cases s <;> rfl

/-- A property that the rules for a kind have in the rule of each symbol and at the top level. -/
theorem JavaRule.all {k : Kind} {r : Rule Symbol} {p : Rule Symbol → Bool} (h : JavaRule k r)
    (top : (Grammar.program.insides k).all p = true)
    (symbols : ∀ s, ((Grammar.ruleOf s).insides k).all p = true) : p r = true := by
  rcases h with h | ⟨s, h⟩
  · exact List.all_eq_true.1 top r h
  · exact List.all_eq_true.1 (symbols s) r h

theorem TokensPlaced.proper {P : Nat → Nat → Prop} {lo hi : Nat} {ts : List Token}
    (h : TokensPlaced P lo ts hi) : ∀ t ∈ ts, t.Proper := by
  induction h with
  | nil => exact fun t ht => (List.not_mem_nil ht).elim
  | cons proper _ _ _ _ ih =>
    intro t ht
    rcases List.mem_cons.1 ht with rfl | ht
    · exact proper
    · exact ih t ht

variable {text : List Char}

/-- The nodes of a text without faults stand in it one after the other. -/
theorem placed_parse (clean : (parse text).hasError = false) :
    Placed (Solid text) 0 (parse text).children (encodeChars text).length := by
  obtain ⟨l, nodes, ⟨⟨mid, placed, trailing⟩, _⟩, derives, same⟩ := exists_reading clean
  rw [same]
  have keeps := derives.keeps (joins_solid text) isRegularGrammar_ruleOf.closed
    gluesGenuine_ruleOf rfl
  exact (keeps.never rfl 0 mid placed).append trailing

/-- The nodes of a text without faults are made by the rules of the grammar. -/
theorem allMade_parse (clean : (parse text).hasError = false) :
    Rule.AllMade Grammar.ruleOf JavaRule (parse text).children := by
  obtain ⟨l, nodes, ⟨⟨mid, placed, trailing⟩, loose⟩, derives, same⟩ := exists_reading clean
  rw [same]
  refine .append ?_ (Rule.allMade_of_isLoose loose)
  exact derives.allMade isRegularGrammar_ruleOf (fun s k r hr => .inr ⟨s, hr⟩)
    (fun k r hr => .inl hr) placed.proper rfl (.inl rfl) fun n hn => (List.not_mem_nil hn).elim

end MonoTap.Java
