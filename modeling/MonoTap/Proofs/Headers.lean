import MonoTap.Proofs.DeclaredUnits
import MonoTap.Proofs.LiteralTypes
import MonoTap.Proofs.RenderedLines
import MonoTap.Proofs.VisitOrder

/-!
# Headers of declarations

The header of a declaration goes up to the brace of its body, or to the semicolon of a method without one.
The signature of a unit is cut off at the first brace or semicolon whatsoever, so it is the header on one
line exactly if the header holds neither: an annotation, a literal or a comment in the header may do so.
-/

set_option autoImplicit false

namespace MonoTap.Java

open Text (Boundary Source encodeChars withoutBlanks)

namespace Rule

variable {S : Type} {grammar : S → Rule S} {rule r : Rule S} {op nodes : List Node} {ts : List Token}

/-! ### How bodies begin -/

/-- Whether a rule gives a node that begins with a bare token. -/
def opens (word : String) : Rule S → Bool
  | .node k (.seq (.token [text]) _) => !k.isExtra && text == word
  | _ => false

/-- The same of the rule itself or of the symbol that it stands for. -/
def opensVia (grammar : S → Rule S) (word : String) : Rule S → Bool
  | .ref s => (grammar s).opens word
  | r => r.opens word

/-- Whether each body that a rule gives begins with a brace. -/
def bodyOpens (grammar : S → Rule S) : Rule S → Bool
  | .seq a b | .alt a b => bodyOpens grammar a && bodyOpens grammar b
  | .many r => bodyOpens grammar r
  | .field role r => role != .body || r.opensVia grammar "\x7b"
  | .ref s => !(grammar s).mayGive .body
  | .chain _ _ | .left => false
  | _ => true

/-- Whether a rule gives a body, or ends with a semicolon. -/
def endsHeader : Rule S → Bool
  | .seq _ b => endsHeader b
  | .alt a b => endsHeader a && endsHeader b
  | .field role r => role == .body && decide (1 ≤ r.least)
  | .token texts => texts == [";"]
  | _ => false

/-- Whether a node begins with a bare token, unless the token is missing. -/
def OpensWith (word : String) (n : Node) : Prop :=
  ∃ c, n.children.head? = some c ∧ (c.label = .token word ∨ c.label = .kind .missing)

theorem Derives.opens {word : String} (h : Derives grammar rule op ts nodes)
    (proper : ∀ t ∈ ts, t.Proper) (opens : rule.opens word = true) :
    ∀ n ∈ core nodes, OpensWith word n := by
  unfold Rule.opens at opens
  split at opens
  · rename_i k text rest
    rw [Bool.and_eq_true, Bool.not_eq_true', beq_iff_eq] at opens
    obtain ⟨plain, rfl⟩ := opens
    cases h with
    | node inner =>
      cases inner with
      | @seq _ _ _ first second us vs left right =>
        cases left with
        | @token _ _ t reads =>
          intro n hn
          have loose : ∀ e ∈ t.extras, e.isExtra = true := fun e he =>
            ((proper t (List.mem_append_left _ List.mem_cons_self)).loose e he).extra
          rcases core_wrap plain (t.toNodes (.token text) ++ second) with
            ⟨none, same⟩ | ⟨_, _, start, stop, _, _, single⟩
          · rw [same, none] at hn
            cases hn
          · rw [single] at hn
            cases List.mem_singleton.1 hn
            -- comments before the token are left outside the node
            rw [OpensWith, Node.children, Token.toNodes, List.append_assoc,
              List.dropWhile_append_of_pos loose]
            by_cases missing : t.kind = .missing
            · rw [if_pos (beq_iff_eq.2 missing)]
              exact ⟨_, rfl, Or.inr rfl⟩
            · rw [if_neg fun same => missing (beq_iff_eq.1 same)]
              exact ⟨_, rfl, Or.inl rfl⟩
  · cases opens

theorem Derives.opensVia {word : String} (h : Derives grammar rule op ts nodes)
    (proper : ∀ t ∈ ts, t.Proper) (opens : rule.opensVia grammar word = true) :
    ∀ n ∈ core nodes, OpensWith word n := by
  cases h with
  | ref inner => exact inner.opens proper opens
  | node inner => exact Derives.opens (.node inner) proper opens
  | _ => cases opens

theorem children_withRole {n : Node} {part : Role} : (n.withRole part).children = n.children := by
  cases n
  rfl

/-- The bodies that a derivation gives. -/
theorem Derives.bodyOpens (regularAll : ∀ s, (grammar s).isRegular = true)
    (h : Derives grammar rule op ts nodes) (proper : ∀ t ∈ ts, t.Proper)
    (regular : rule.isRegular = true) (opens : rule.bodyOpens grammar = true) :
    ∀ n ∈ core nodes, n.role = some .body → OpensWith "\x7b" n := by
  -- of a rule that may give no body nothing more need be known
  have never {r : Rule S} {op nodes : List Node} {ts : List Token} (h : Derives grammar r op ts nodes)
      (proper : ∀ t ∈ ts, t.Proper) (regular : r.isRegular = true)
      (none : r.mayGive .body = false) :
      ∀ n ∈ core nodes, n.role = some .body → OpensWith "\x7b" n := by
    intro n hn role
    rw [h.mayGive proper regular hn role] at none
    cases none
  induction h with
  | empty | manyNil | «unless» =>
    intro n hn
    cases hn
  | left | chainBase | chainMore => cases opens
  | token reads => exact @never _ [] _ _ (.token reads) proper regular rfl
  | glued reads more => exact @never _ [] _ _ (.glued reads more) proper regular rfl
  | leaf reads => exact @never _ [] _ _ (.leaf reads) proper regular rfl
  | name isName => exact @never _ [] _ _ (.name isName) proper regular rfl
  | literal is => exact @never _ [] _ _ (.literal is) proper regular rfl
  | @ref op nodes s ts inner ih =>
    rw [Rule.bodyOpens, Bool.not_eq_true'] at opens
    exact never inner proper (regularAll s) opens
  | seq left right ihLeft ihRight =>
    rw [isRegular, Bool.and_eq_true] at regular
    rw [Rule.bodyOpens, Bool.and_eq_true] at opens
    rw [List.forall_mem_append] at proper
    rw [core_append, List.forall_mem_append]
    exact ⟨ihLeft proper.1 regular.1 opens.1, ihRight proper.2 regular.2 opens.2⟩
  | altLeft left ih =>
    rw [isRegular, Bool.and_eq_true] at regular
    rw [Rule.bodyOpens, Bool.and_eq_true] at opens
    exact ih proper regular.1 opens.1
  | altRight right ih =>
    rw [isRegular, Bool.and_eq_true] at regular
    rw [Rule.bodyOpens, Bool.and_eq_true] at opens
    exact ih proper regular.2 opens.2
  | manyCons head tail ihHead ihTail =>
    rw [List.forall_mem_append] at proper
    rw [core_append, List.forall_mem_append]
    exact ⟨ihHead proper.1 regular opens, ihTail proper.2 regular opens⟩
  | node inner ih => exact never (.node inner) proper regular rfl
  | @field r part op nodes ts inner ih =>
    intro n hn role
    have own := role_of_field (.field inner) n hn
    rw [role, Option.some.injEq] at own
    rw [core_assign] at hn
    obtain ⟨m, hm, rfl⟩ := List.mem_map.1 hn
    rw [Rule.bodyOpens, ← own, bne_self_eq_false, Bool.false_or] at opens
    rw [OpensWith, children_withRole]
    exact inner.opensVia proper opens m hm

/-- What a derivation ends with if it gives no body. -/
theorem Derives.endsHeader (g : IsRegularGrammar grammar) (h : Derives grammar rule op ts nodes)
    (proper : ∀ t ∈ ts, t.Proper) (regular : rule.isRegular = true) (supplied : rule.Supplied op)
    (ends : rule.endsHeader = true) : (∃ n ∈ core nodes, n.role = some .body) ∨
      ∃ front c, nodes = front ++ [c] ∧ (c.label = .token ";" ∨ c.label = .kind .missing) := by
  induction h with
  | seq left right ihLeft ihRight =>
    rw [isRegular, Bool.and_eq_true] at regular
    rw [List.forall_mem_append] at proper
    rw [core_append]
    rcases ihRight proper.2 regular.2 supplied.seq.2 ends with ⟨n, mem, role⟩ | ⟨front, c, rfl, label⟩
    · exact Or.inl ⟨n, List.mem_append_right _ mem, role⟩
    · exact Or.inr ⟨_, c, (List.append_assoc _ _ _).symm, label⟩
  | altLeft left ih =>
    rw [isRegular, Bool.and_eq_true] at regular
    rw [Rule.endsHeader, Bool.and_eq_true] at ends
    exact ih proper regular.1 supplied.alt.1 ends.1
  | altRight right ih =>
    rw [isRegular, Bool.and_eq_true] at regular
    rw [Rule.endsHeader, Bool.and_eq_true] at ends
    exact ih proper regular.2 supplied.alt.2 ends.2
  | @field r role op nodes ts inner ih =>
    have whole : Derives grammar (.field role r) op ts (Node.assign role nodes) := .field inner
    exact Or.inl (whole.supplies g proper regular supplied ends)
  | @token op text t reads =>
    simp only [Rule.endsHeader, beq_iff_eq, List.cons.injEq, and_true] at ends
    subst ends
    refine Or.inr ⟨t.extras, _, rfl, ?_⟩
    by_cases missing : t.kind = .missing
    · rw [if_pos (beq_iff_eq.2 missing)]
      exact Or.inr rfl
    · rw [if_neg fun same => missing (beq_iff_eq.1 same)]
      exact Or.inl rfl
  | glued reads more => simp [Rule.endsHeader] at ends
  | _ => cases ends

end Rule

/-! ### Where headers end -/

/-- The offset at which the header of a declaration ends: where its body begins, or where the semicolon
stands that ends a method without a body. -/
def headerEnd (n : Node) : Nat :=
  match n.child? .body with
  | some body => body.start
  | none => n.stop - 1

/-- The mark that a declaration has after its header. -/
def markOf (n : Node) : String :=
  if (n.child? .body).isSome then "\x7b" else ";"

section

variable {text : String} {n m : Node}

theorem Node.Belongs.label_of_mark {word : String} (h : n.Belongs text.toList)
    (label : n.label = .token word ∨ n.label = .kind .missing) : n.label = .token word := by
  rcases label with label | missing
  · exact label
  · have faultless := Node.not_isAny_of_hasError h.clean
    simp [Node.isAny, Node.is, missing] at faultless

/-- The body of a declaration begins with a brace. -/
theorem Node.Belongs.body_opens {body : Node} (h : n.Belongs text.toList)
    (unit : (UnitKind.of? n).isSome = true) (found : n.child? .body = some body) :
    ∃ c ∈ body.children, body.children.head? = some c ∧ c.label = .token "\x7b" := by
  have inside := Node.mem_children_of_child? found
  have role := Node.role_of_child? found
  obtain ⟨k, mem, is⟩ := List.any_eq_true.1 (UnitKind.isAny_of_of? unit)
  obtain ⟨r, known, regular, op, ts, nodes, supplied, proper, derives, same⟩ := h.exists_rule is inside
  have opens : r.bodyOpens Grammar.ruleOf = true := by
    simp only [declarationKinds, List.mem_cons, List.not_mem_nil, or_false] at mem
    rcases mem with rfl | rfl | rfl | rfl | rfl | rfl
    all_goals exact known.all (by decide) fun s => by cases s <;> decide +kernel
  have counts := h.mem_core_of_role inside role
  rw [same, core_dropWhile] at counts
  obtain ⟨c, first, label⟩ :=
    derives.bodyOpens isRegularGrammar_ruleOf.regular proper regular opens body counts role
  have hc := List.mem_of_mem_head? first
  exact ⟨c, hc, first, ((h.child inside).child hc).label_of_mark label⟩

/-- A declaration without a body is a method and ends with a semicolon. -/
theorem Node.Belongs.ends_with_semicolon (h : n.Belongs text.toList) (anchored : n.Anchored text.toList)
    (unit : (UnitKind.of? n).isSome = true) (none : n.child? .body = none) :
    n.is .methodDeclaration = true ∧
      ∃ c ∈ n.children, n.children.getLast? = some c ∧ c.label = .token ";" := by
  obtain ⟨k, mem, is⟩ := List.any_eq_true.1 (UnitKind.isAny_of_of? unit)
  have some : n.children ≠ [] := anchored.composite
    (List.any_eq_true.2 ⟨k, (by decide : declarationKinds ⊆ compositeKinds) mem, is⟩)
  have never (given : ∃ c, n.child? .body = Option.some c) : False := by
    obtain ⟨c, found⟩ := given
    rw [none] at found
    cases found
  have method : k = .methodDeclaration := by
    simp only [declarationKinds, List.mem_cons, List.not_mem_nil, or_false] at mem
    rcases mem with rfl | rfl | rfl | rfl | rfl | rfl
    iterate 4
      · exact (never (h.exists_child is some (by decide) fun s => by cases s <;> decide +kernel)).elim
    · rfl
    · exact (never (h.exists_child is some (by decide) fun s => by cases s <;> decide +kernel)).elim
  subst method
  refine ⟨is, ?_⟩
  obtain ⟨d, hd⟩ := List.exists_mem_of_ne_nil n.children some
  obtain ⟨r, known, regular, op, ts, nodes, supplied, proper, derives, same⟩ := h.exists_rule is hd
  have ends : r.endsHeader = true :=
    known.all (by decide) fun s => by cases s <;> decide +kernel
  rcases derives.endsHeader isRegularGrammar_ruleOf proper regular supplied ends with
    ⟨b, hb, role⟩ | ⟨front, c, rfl, label⟩
  · rw [← core_dropWhile, ← same] at hb
    apply (never _).elim
    apply Option.isSome_iff_exists.1
    rw [Node.child?, List.find?_isSome]
    exact ⟨b, (Java.mem_core.1 hb).1, beq_iff_eq.2 role⟩
  · have counts : c.isExtra = false := by
      rcases label with label | label
      · simp [Node.isExtra, Node.isComment, Node.is, label]
      · simp [Node.isExtra, Node.isComment, Node.is, label, Kind.isComment]
    have last : n.children.getLast? = Option.some c := by
      rw [same, List.dropWhile_append]
      split
      · simp [counts]
      · exact List.getLast?_concat
    have hc := List.mem_of_getLast? last
    exact ⟨c, hc, last, (h.child hc).label_of_mark label⟩

/-- After its header each declaration of a text has its mark. -/
theorem exists_mark (clean : (parse text.toList).hasError = false)
    (inside : n ∈ Node.preorderAll (parse text.toList).children)
    (unit : (UnitKind.of? n).isSome = true) :
    ∃ c ∈ Node.preorderAll (parse text.toList).children, c.label = .token (markOf n) ∧
      c.start = headerEnd n ∧ n.start ≤ c.start ∧ c.stop ≤ n.stop ∧
      (n.child? .body = none → n.is .methodDeclaration = true ∧ c.stop = n.stop) := by
  have belongs := belongs_of_mem clean inside
  have anchored := anchored_of_mem_parse clean inside
  have within {c : Node} (hc : c ∈ Node.preorderAll n.children) : n.start ≤ c.start ∧ c.stop ≤ n.stop := by
    obtain ⟨first, _, last⟩ := belongs.placed.bounds hc
    exact ⟨first, last⟩
  rw [markOf, headerEnd]
  cases found : n.child? .body with
  | some body =>
    obtain ⟨c, hc, first, label⟩ := belongs.body_opens unit found
    have inNode := Node.mem_children_of_child? found
    have bodyInside := mem_preorderAll_of_mem_children inside inNode
    have starts := (anchored_of_mem_parse clean bodyInside).first c first
    have bounds := within (mem_preorderAll_of_mem_children
      (Node.mem_preorderAll.2 ⟨body, inNode, Node.self_mem_preorder body⟩) hc)
    exact ⟨c, mem_preorderAll_of_mem_children bodyInside hc, label, starts, bounds.1, bounds.2,
      fun none => by cases none⟩
  | none =>
    obtain ⟨method, c, hc, last, label⟩ := belongs.ends_with_semicolon anchored unit found
    have cInside := mem_preorderAll_of_mem_children inside hc
    have stops := anchored.last c last
    have bounds := within (Node.mem_preorderAll.2 ⟨c, hc, Node.self_mem_preorder c⟩)
    refine ⟨c, cInside, label, ?_, bounds.1, bounds.2, fun _ => ⟨method, stops⟩⟩
    obtain ⟨front, back, _, first, final⟩ := (anchored_of_mem_parse clean cInside).token _ label
    -- the semicolon is the last byte of the declaration
    have one : (encodeChars ";".toList).length = 1 := by decide
    rw [one] at final
    show c.start = n.stop - 1
    omega

theorem exists_written {start stop : Nat} (first : Boundary 0 text.toList start)
    (last : Boundary 0 text.toList stop) (order : start ≤ stop) :
    ∃ word, Written text.toList word start stop := by
  obtain ⟨front, word, back, split, before, size⟩ := first.split last order
  rw [Nat.zero_add] at before
  exact ⟨word, front, back, split, before, size⟩

/-- The text of a declaration is its header, its mark, and the rest. -/
theorem exists_header (clean : (parse text.toList).hasError = false)
    (inside : n ∈ Node.preorderAll (parse text.toList).children)
    (unit : (UnitKind.of? n).isSome = true) :
    let source := Source.ofString text
    ∃ rest, (n.text source).toList =
        (source.textOf n.start (headerEnd n)).toList ++ ((markOf n).toList ++ rest) ∧
      (n.child? .body = none → n.is .methodDeclaration = true ∧ rest = []) := by
  intro source
  obtain ⟨c, cInside, label, starts, first, last, bare⟩ := exists_mark clean inside unit
  have spans := (belongs_of_mem clean inside).spans
  have markSpans := (belongs_of_mem clean cInside).spans
  have mark := (anchored_of_mem_parse clean cInside).token _ label
  obtain ⟨header, before⟩ := exists_written spans.first markSpans.first first
  obtain ⟨rest, after⟩ := exists_written markSpans.last spans.last last
  have whole := (before.append mark).append after
  refine ⟨rest, ?_, ?_⟩
  · rw [← starts, before.text, Node.text, whole.text, List.append_assoc]
  · intro none
    obtain ⟨method, stops⟩ := bare none
    obtain ⟨_, _, _, _, size⟩ := after
    exact ⟨method, Text.encodeChars_eq_nil (by omega)⟩

end

/-! ### Headers on one line -/

/-- A text on one line: each run of blanks is one space, and there are none at the ends. -/
def onOneLine (cs : List Char) : List Char :=
  Text.joinWith [' '] (Text.words cs)

theorem flatMap_withoutBlanks_go (current cs : List Char) :
    (Text.words.go current cs).flatMap withoutBlanks = withoutBlanks (current.reverse ++ cs) := by
  induction cs generalizing current with
  | nil =>
    rw [Text.words.go, List.append_nil]
    cases current with
    | nil => rfl
    | cons c current => simp
  | cons c cs ih =>
    rw [Text.words.go]
    by_cases blank : Text.isBlank c = true
    · have own : withoutBlanks (c :: cs) = withoutBlanks cs := by simp [withoutBlanks, blank]
      rw [if_pos blank, Text.withoutBlanks_append, own]
      cases current with
      | nil => simp [ih, withoutBlanks]
      | cons d current => simp [ih]
    · rw [if_neg blank, ih (c :: current)]
      simp

/-- Putting a text on one line takes only blanks away. -/
theorem withoutBlanks_onOneLine (cs : List Char) : withoutBlanks (onOneLine cs) = withoutBlanks cs := by
  rw [onOneLine, Listener.withoutBlanks_joinWith (by decide), Text.words, flatMap_withoutBlanks_go]
  rfl

/-- Whether a character goes on with a signature. -/
def continuesSignature (c : Char) : Bool :=
  c != '{' && c != ';'

theorem signatureOf_append {header rest : List Char} {mark : Char}
    (ends : continuesSignature mark = false) :
    signatureOf (header ++ mark :: rest) = onOneLine (header.takeWhile continuesSignature) := by
  show onOneLine ((header ++ mark :: rest).takeWhile continuesSignature) = _
  rw [List.takeWhile_append, List.takeWhile_cons_of_neg (by simp [ends]), List.append_nil]
  split
  · rename_i whole
    rw [(List.takeWhile_prefix continuesSignature).eq_of_length whole]
  · rfl

theorem continuesSignature_eq_false {c : Char} : continuesSignature c = false ↔ c = '{' ∨ c = ';' := by
  rw [continuesSignature, Bool.and_eq_false_iff, bne_eq_false_iff_eq, bne_eq_false_iff_eq]

/-- What is cut off at the first brace or semicolon is the whole if there is none. -/
theorem onOneLine_takeWhile_iff (header : List Char) :
    onOneLine (header.takeWhile continuesSignature) = onOneLine header ↔
      '{' ∉ header ∧ ';' ∉ header := by
  have split := List.takeWhile_append_dropWhile (p := continuesSignature) (l := header)
  have goes : ∀ c ∈ header.takeWhile continuesSignature, continuesSignature c = true :=
    List.all_eq_true.1 List.all_takeWhile
  cases rest : header.dropWhile continuesSignature with
  | nil =>
    rw [rest, List.append_nil] at split
    rw [split] at goes ⊢
    constructor
    · intro _
      constructor
      · intro brace
        exact absurd (goes _ brace) (by decide)
      · intro semicolon
        exact absurd (goes _ semicolon) (by decide)
    · intro _
      rfl
  | cons c more =>
    have stops : continuesSignature c = false := by
      have first := List.head?_dropWhile_not continuesSignature header
      rwa [rest] at first
    have mem : c ∈ header := by
      rw [← split, rest]
      simp
    have mark := continuesSignature_eq_false.1 stops
    have visible : Text.isBlank c = false := by
      rcases mark with rfl | rfl
      · decide
      · decide
    constructor
    · intro same
      have parts : withoutBlanks header =
          withoutBlanks (header.takeWhile continuesSignature) ++ c :: withoutBlanks more := by
        conv_lhs => rw [← split, rest, Text.withoutBlanks_append]
        simp [withoutBlanks, visible]
      have kept := congrArg withoutBlanks same
      rw [withoutBlanks_onOneLine, withoutBlanks_onOneLine, parts] at kept
      simp at kept
    · rintro ⟨noBrace, noSemicolon⟩
      rcases mark with rfl | rfl
      · exact absurd mem noBrace
      · exact absurd mem noSemicolon

/-- Each unit comes from a declaration of the text, and its text is the header of the declaration, a brace
or a semicolon, and the rest. Its signature is cut off at the first brace or semicolon in the header, so it
is the header on one line exactly if the header holds neither. -/
theorem signature_of_header (text : String)
    (clean : (CompilationUnit.ofString text).hasSyntaxErrors = false) :
    let u := CompilationUnit.ofString text
    ∀ unit ∈ u.units, ∃ around n, Declared u.root around n ∧
      unit.Describes u.source u.packageName around n ∧
      let header := (u.source.textOf n.start (headerEnd n)).toList
      (∃ rest, unit.source.toList = header ++ ((markOf n).toList ++ rest) ∧
        (n.child? .body = none → n.is .methodDeclaration = true ∧ rest = [])) ∧
      unit.signature.toList = onOneLine (header.takeWhile continuesSignature) ∧
      (unit.signature.toList = onOneLine header ↔ '{' ∉ header ∧ ';' ∉ header) := by
  intro u unit mem
  obtain ⟨⟨around, n⟩, listed, describes⟩ := exists_of_forall₂ (describes_units clean).flip mem
  have declared := (mem_listings.1 listed).1
  have inside : n ∈ Node.preorderAll (parse text.toList).children := declared.mem_preorderAll
  have isUnit : (UnitKind.of? n).isSome = true := by rw [describes.kind]; rfl
  obtain ⟨rest, split, bare⟩ := exists_header clean inside isUnit
  have signature : unit.signature.toList =
      onOneLine ((u.source.textOf n.start (headerEnd n)).toList.takeWhile continuesSignature) := by
    have whole : unit.source.toList = _ := (congrArg String.toList describes.text).trans split
    rw [describes.signature, String.toList_ofList, whole, markOf]
    split
    · exact signatureOf_append (by decide)
    · exact signatureOf_append (by decide)
  refine ⟨around, n, declared, describes, ⟨rest, ?_, bare⟩, signature, ?_⟩
  · rw [describes.text]
    exact split
  · rw [signature]
    exact onOneLine_takeWhile_iff _

/-- A text with a method without a body, and with one that has a semicolon in its header. -/
def headersText : String :=
  "abstract class C \x7b abstract  void f(); @A(\";\") void g() \x7b\x7d \x7d"

/-- The names and headers of the methods in the text. -/
def namedHeaders : List (String × String) :=
  [("f", "abstract  void f()"), ("g", "@A(\";\") void g() ")]

set_option maxRecDepth 100000 in
theorem read_headersText :
    let u := CompilationUnit.ofString headersText
    (!u.hasSyntaxErrors && namedHeaders.all fun method =>
      (u.root.children.any fun c => (UnitKind.ofType? c).isSome && (bodyOf c).any fun m =>
        (UnitKind.ofMember? m).isSome && declaredName u.source m == method.1) &&
      (Node.preorderAll u.root.children).all fun n =>
        (UnitKind.of? n).isNone || declaredName u.source n != method.1 ||
          u.source.textOf n.start (headerEnd n) == method.2) = true := by
  rw [CompilationUnit.ofString_eq_ofCharsOf]
  decide +kernel

/-- The signature of the one method is its header, that of the other is cut off. -/
theorem signature_of_headers :
    let u := CompilationUnit.ofString headersText
    u.hasSyntaxErrors = false ∧
      (∃ unit ∈ u.units, unit.name = "f" ∧ unit.signature = "abstract void f()") ∧
      ∃ unit ∈ u.units, unit.name = "g" ∧ unit.signature = "@A(\"" := by
  intro u
  obtain ⟨errors, methods⟩ := (Bool.and_eq_true_iff).1 read_headersText
  have clean : u.hasSyntaxErrors = false := by rwa [Bool.not_eq_true'] at errors
  have method (name header : String) (known : (name, header) ∈ namedHeaders) :
      ∃ unit ∈ u.units, unit.name = name ∧
        unit.signature.toList = onOneLine (header.toList.takeWhile continuesSignature) := by
    obtain ⟨given, only⟩ := (Bool.and_eq_true_iff).1 (List.all_eq_true.1 methods _ known)
    obtain ⟨c, inRoot, given⟩ := List.any_eq_true.1 given
    obtain ⟨type, given⟩ := (Bool.and_eq_true_iff).1 given
    obtain ⟨m, inBody, given⟩ := List.any_eq_true.1 given
    obtain ⟨member, named⟩ := (Bool.and_eq_true_iff).1 given
    have declared := (Declared.top inRoot type).inside type (Or.inl inBody)
      (isSome_of?_of_member member)
    have direct : TypesDirect [c, m] := by
      show TypesDirect ([] ++ [c, m])
      exact typesDirect_concat.2 ⟨typesDirect_singleton, fun _ => inBody⟩
    obtain ⟨unit, inUnits, own⟩ :=
      exists_of_forall₂ (describes_units clean) (mem_listings.2 ⟨declared, direct⟩)
    have ownName := own.name.trans (beq_iff_eq.1 named)
    obtain ⟨around, n, isDeclared, describes, -, shown, -⟩ :=
      signature_of_header headersText clean unit inUnits
    refine ⟨unit, inUnits, ownName, ?_⟩
    have whole := List.all_eq_true.1 only n isDeclared.mem_preorderAll
    have nName : declaredName u.source n = name := describes.name.symm.trans ownName
    have isUnit : (UnitKind.of? n).isNone = false := by rw [describes.kind]; rfl
    rw [isUnit, nName, bne_self_eq_false, Bool.false_or, Bool.false_or, beq_iff_eq] at whole
    rw [shown, whole]
  obtain ⟨first, inFirst, firstName, firstShown⟩ := method "f" _ List.mem_cons_self
  obtain ⟨second, inSecond, secondName, secondShown⟩ :=
    method "g" _ (List.mem_cons_of_mem _ List.mem_cons_self)
  refine ⟨clean, ⟨first, inFirst, firstName, ?_⟩, second, inSecond, secondName, ?_⟩
  · exact String.toList_inj.1 (firstShown.trans (by decide))
  · exact String.toList_inj.1 (secondShown.trans (by decide))

end MonoTap.Java
