import MonoTap.Proofs.Lexemes

/-!
# Bare tokens and the ends of nodes

In the tree of a text without faults each bare token is written where its node stands, and a node begins
with the first and ends with the last of the nodes inside it. A declaration and a body in braces are never
single tokens, so something is inside them.
-/

set_option autoImplicit false

namespace MonoTap.Java

open Text (encodeChars)

/-! ### What stands in a text -/

variable {text : List Char}

theorem Written.append {word more : List Char} {start mid stop : Nat} (h : Written text word start mid)
    (h' : Written text more mid stop) : Written text (word ++ more) start stop := by
  obtain ⟨front, back, whole, first, last⟩ := h
  obtain ⟨front', back', whole', first', last'⟩ := h'
  have both : (front ++ word) ++ back = front' ++ (more ++ back') := by
    rw [List.append_assoc, ← whole, whole']
  have size : (encodeChars (front ++ word)).length = (encodeChars front').length := by
    rw [Text.encodeChars_append, List.length_append]
    omega
  obtain ⟨-, rfl⟩ := Text.append_inj_of_encodeChars both size
  refine ⟨front, back', ?_, first, ?_⟩
  · rw [whole, List.append_assoc]
  · rw [Text.encodeChars_append, List.length_append]
    omega

/-- Tokens side by side are written one after the other. -/
theorem Adjacent.written {start stop first : Nat} {texts : List String} {ts : List Token}
    {word : List Char} (h : Adjacent start texts ts stop) (fresh : ∀ x ∈ texts, x ∉ insertable)
    (scans : ∀ t ∈ ts, t.Scans text) (proper : ∀ t ∈ ts, t.Proper)
    (before : Written text word first start) :
    Written text (word ++ (String.join texts).toList) first stop := by
  induction h generalizing word with
  | nil stop => simpa using before
  | @cons start stop next texts t ts joined bare reads more ih =>
    obtain ⟨freshNext, freshTexts⟩ := List.forall_mem_cons.1 fresh
    obtain ⟨scansNext, scansMore⟩ := List.forall_mem_cons.1 scans
    obtain ⟨properNext, properMore⟩ := List.forall_mem_cons.1 proper
    have present : t.kind ≠ .missing := fun missing =>
      freshNext (Token.text_of_reads reads ▸ properNext.inserted missing)
    have here := scansNext.written (Token.genuine_of_reads reads present)
    rw [joined, Token.text_of_reads reads] at here
    have whole := ih freshTexts scansMore properMore (before.append here)
    rw [String.join_cons, String.toList_append, ← List.append_assoc]
    exact whole

/-! ### What derivations give -/

/-- The declarations of types and of their members, and the bodies in braces. -/
def compositeKinds : List Kind :=
  [.classDeclaration, .recordDeclaration, .interfaceDeclaration, .enumDeclaration, .methodDeclaration,
    .constructorDeclaration, .classBody, .interfaceBody, .enumBody, .constructorBody, .block]

/-- A bare token is written where it stands, a node begins and ends with the nodes inside it, and
declarations and bodies hold something. -/
structure Node.Anchored (text : List Char) (n : Node) : Prop where
  token : ∀ word, n.label = .token word → Written text word.toList n.start n.stop
  first : ∀ c, n.children.head? = some c → c.start = n.start
  last : ∀ c, n.children.getLast? = some c → c.stop = n.stop
  composite : n.isAny compositeKinds = true → n.children ≠ []

theorem Node.Anchored.withRole {n : Node} {part : Role} (h : n.Anchored text) :
    (n.withRole part).Anchored text := by
  cases n
  exact ⟨h.token, h.first, h.last, h.composite⟩

theorem anchored_leaf {label : Label} {role : Option Role} {start stop : Nat}
    (token : ∀ word, label = .token word → Written text word.toList start stop)
    (simple : ∀ k, label = .kind k → k ∉ compositeKinds) :
    (Node.mk label role start stop []).Anchored text where
  token := token
  first c hc := by cases hc
  last c hc := by cases hc
  composite kind := by
    rw [Node.isAny, List.any_eq_true] at kind
    obtain ⟨k, mem, is⟩ := kind
    exact absurd mem (simple k (beq_iff_eq.1 is))

theorem notMem_compositeKinds_of_isExtra {k : Kind} (extra : k.isExtra = true) :
    k ∉ compositeKinds := by
  intro mem
  have each : ∀ k ∈ compositeKinds, k.isExtra = false := by decide
  rw [each k mem] at extra
  cases extra

theorem notMem_compositeKinds_of_isLiteral {k : Kind} (literal : k.isLiteral = true) :
    k ∉ compositeKinds := by
  intro mem
  have each : ∀ k ∈ compositeKinds, k.isLiteral = false := by decide
  rw [each k mem] at literal
  cases literal

theorem anchored_of_isLoose {n : Node} (h : n.IsLoose) : n.Anchored text := by
  cases n with
  | mk label role start stop children =>
    obtain rfl : children = [] := h.children
    apply anchored_leaf
    · rintro word rfl
      have extra := h.extra
      simp [Node.isExtra, Node.isComment, Node.is, Node.label] at extra
    · rintro k rfl
      have extra := h.extra
      rw [Node.isExtra_kind] at extra
      exact notMem_compositeKinds_of_isExtra extra

theorem throughout_extras {t : Token} (proper : t.Proper) :
    Throughout (Node.Anchored text) t.extras := by
  apply throughout_of
  · intro n hn
    exact anchored_of_isLoose (proper.loose n hn)
  · intro n hn
    rw [(proper.loose n hn).children]
    exact throughout_nil

theorem throughout_toNodes {t : Token} {label : Label} (proper : t.Proper)
    (token : ∀ word, label = .token word → t.kind ≠ .missing →
      Written text word.toList t.start t.stop)
    (simple : ∀ k, label = .kind k → k ∉ compositeKinds) :
    Throughout (Node.Anchored text) (t.toNodes label) := by
  refine (throughout_extras proper).append (throughout_singleton ?_ throughout_nil)
  by_cases missing : t.kind = .missing
  · rw [if_pos (beq_iff_eq.2 missing)]
    apply anchored_leaf
    · intro word same
      cases same
    · intro k same
      cases same
      decide
  · rw [if_neg fun same => missing (beq_iff_eq.1 same)]
    exact anchored_leaf (fun word same => token word same missing) simple

theorem throughout_wrap {k : Kind} {ns : List Node} (h : Throughout (Node.Anchored text) ns) :
    Throughout (Node.Anchored text) (Node.wrap k ns) := by
  rcases Node.wrap_cases k ns with ⟨_, same⟩ | ⟨outside, first, others, last, split, _, _, final, same⟩
  · rw [same]
    exact h
  · rw [same]
    rw [split] at h
    apply (h.subset (List.subset_append_left _ _)).append
    apply throughout_singleton _ (h.subset (List.subset_append_right _ _))
    constructor
    · intro word token
      cases token
    · intro c hc
      cases hc
      rfl
    · intro c hc
      rw [Node.children, final] at hc
      cases hc
      rfl
    · intro _
      exact List.cons_ne_nil first others

namespace Rule

variable {S : Type} {grammar : S → Rule S} {rule : Rule S} {op nodes : List Node} {ts : List Token}

/-- Whether a rule makes no token a declaration or a body, and no token that may be put in a part of
another one. -/
def isPlain : Rule S → Bool
  | .token texts => texts.length ≤ 1 || texts.all (!insertable.contains ·)
  | .leaf _ k | .name k => !compositeKinds.contains k
  | .seq a b | .alt a b | .chain a b => a.isPlain && b.isPlain
  | .many r | .field _ r | .node _ r => r.isPlain
  | _ => true

/-- What a derivation gives from tokens of the text. -/
theorem Derives.anchored (plain : ∀ s, (grammar s).isPlain = true)
    (h : Derives grammar rule op ts nodes) (own : rule.isPlain = true)
    (scans : ∀ t ∈ ts, t.Scans text) (proper : ∀ t ∈ ts, t.Proper)
    (operand : Throughout (Node.Anchored text) op) : Throughout (Node.Anchored text) nodes := by
  induction h with
  | empty | manyNil | «unless» => exact throughout_nil
  | left => exact operand
  | @token _ text t reads =>
    apply throughout_toNodes (proper t List.mem_cons_self)
    · intro word same present
      cases same
      rw [← Token.text_of_reads reads]
      exact (scans t List.mem_cons_self).written (Token.genuine_of_reads reads present)
    · intro k same
      cases same
  | @glued op text next texts t ts stop reads more =>
    -- no part of a glued mark may be put in, so each is written in the text
    have fresh : ∀ x ∈ text :: next :: texts, x ∉ insertable := by
      simpa [isPlain] using own
    obtain ⟨freshFirst, freshMore⟩ := List.forall_mem_cons.1 fresh
    obtain ⟨scansFirst, scansMore⟩ := List.forall_mem_cons.1 scans
    obtain ⟨properFirst, properMore⟩ := List.forall_mem_cons.1 proper
    refine (throughout_extras properFirst).append (throughout_singleton ?_ throughout_nil)
    apply anchored_leaf
    · intro word same
      cases same
      have present : t.kind ≠ .missing := fun missing =>
        freshFirst (Token.text_of_reads reads ▸ properFirst.inserted missing)
      have here := scansFirst.written (Token.genuine_of_reads reads present)
      rw [Token.text_of_reads reads] at here
      rw [String.join_cons, String.toList_append]
      exact more.written freshMore scansMore properMore here
    · intro k same
      cases same
  | @leaf op text k t reads =>
    apply throughout_toNodes (proper t List.mem_cons_self)
    · intro word same
      cases same
    · intro k same
      cases same
      simpa [isPlain] using own
  | @name op k t isName =>
    apply throughout_toNodes (proper t List.mem_cons_self)
    · intro word same
      cases same
    · intro k same
      cases same
      simpa [isPlain] using own
  | @literal op label t is =>
    rw [literalLabel?] at is
    split at is
    · rename_i k literal
      have genuine : t.IsGenuine := by simp [Token.IsGenuine, literal]
      have sound := ((scans t List.mem_cons_self).token genuine).isSound
      rw [literal] at sound
      cases is
      apply throughout_toNodes (proper t List.mem_cons_self)
      · intro word same
        cases same
      · intro l same
        cases same
        exact notMem_compositeKinds_of_isLiteral sound
    · cases is
  | @ref op nodes s ts inner ih => exact ih (plain s) scans proper operand
  | seq left right ihLeft ihRight =>
    rw [isPlain, Bool.and_eq_true] at own
    rw [List.forall_mem_append] at scans proper
    exact (ihLeft own.1 scans.1 proper.1 operand).append (ihRight own.2 scans.2 proper.2 operand)
  | altLeft left ih =>
    rw [isPlain, Bool.and_eq_true] at own
    exact ih own.1 scans proper operand
  | altRight right ih =>
    rw [isPlain, Bool.and_eq_true] at own
    exact ih own.2 scans proper operand
  | manyCons head tail ihHead ihTail =>
    rw [List.forall_mem_append] at scans proper
    exact (ihHead own scans.1 proper.1 operand).append (ihTail own scans.2 proper.2 operand)
  | node inner ih => exact throughout_wrap (ih own scans proper operand)
  | field inner ih => exact (ih own scans proper operand).assign fun _ _ h => h.withRole
  | chainBase inner ih =>
    rw [isPlain, Bool.and_eq_true] at own
    exact ih own.1 scans proper operand
  | chainMore inner step more ihInner ihStep ihMore =>
    rw [isPlain, Bool.and_eq_true] at own
    rw [List.forall_mem_append, List.forall_mem_append] at scans proper
    have base := ihInner own.1 scans.1 proper.1 operand
    have longer := ihStep own.2 scans.2.1 proper.2.1 base
    refine ihMore ?_ scans.2.2 proper.2.2 longer
    rw [isPlain, own.2]
    rfl

end Rule

theorem isPlain_ruleOf (s : Symbol) : (Grammar.ruleOf s).isPlain = true := by
  cases s <;> decide +kernel

theorem anchored_parse (clean : (parse text).hasError = false) :
    Throughout (Node.Anchored text) (parse text).children := by
  obtain ⟨l, nodes, ⟨⟨⟨mid, placed, _⟩, loose⟩, scans⟩, derives, same⟩ :=
    exists_reading_of (P := fun l => l.Stands text ∧ l.Scans text)
      (fun _ _ _ both repair => ⟨stands_repair both.1 repair, scans_repair both.2 repair⟩)
      ⟨stands_ofChars text, scans_ofChars text⟩ clean
  rw [same]
  apply (derives.anchored isPlain_ruleOf (by decide +kernel) scans.tokens placed.proper
    throughout_nil).append
  apply throughout_of
  · intro n hn
    exact anchored_of_isLoose (loose n hn)
  · intro n hn
    rw [(loose n hn).children]
    exact throughout_nil

theorem anchored_of_mem_parse (clean : (parse text).hasError = false) {n : Node}
    (h : n ∈ Node.preorderAll (parse text).children) : n.Anchored text := by
  obtain ⟨c, hc, hn⟩ := Node.mem_preorderAll.1 h
  exact anchored_parse clean c hc n hn

end MonoTap.Java
