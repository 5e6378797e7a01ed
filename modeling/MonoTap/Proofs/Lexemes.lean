import MonoTap.Proofs.Calls

/-!
# Comments, literals and identifiers

Each comment, each literal and each identifier in the tree of a text is what the scan takes at its
place, and a truth value is written there. So a string literal begins and ends with a quote, and no
identifier reads like a comment.
-/

set_option autoImplicit false

namespace MonoTap.Java

open Text (encodeChars)

/-! ### Lexemes of a text -/

/-- The scan of a text takes a lexeme from one offset to another. -/
def Scanned (text : List Char) (lexeme : Lexeme) (start stop : Nat) : Prop :=
  ∃ front c cs n, text = front ++ c :: cs ∧ isSpace c = false ∧ scan c cs = (lexeme, n) ∧
    start = (encodeChars front).length ∧ stop = start + (encodeChars (c :: cs.take n)).length

/-- Some characters stand in a text from one offset to another. -/
def Written (text word : List Char) (start stop : Nat) : Prop :=
  ∃ front back, text = front ++ (word ++ back) ∧ start = (encodeChars front).length ∧
    stop = start + (encodeChars word).length

/-- The lexeme of a comment or a literal. -/
def Label.lexeme? : Label → Option Lexeme
  | .kind k =>
    if k.isComment then some (.comment k)
    else if k.isLiteral then some (.token (.literal k)) else none
  | .token _ => none

/-- The word that a truth value is. -/
def Label.word? : Label → Option String
  | .kind .trueLiteral => some "true"
  | .kind .falseLiteral => some "false"
  | _ => none

/-- A comment or a literal is what the scan takes at its place, an identifier is a token there, and a
truth value is the word there. -/
structure Node.Scans (text : List Char) (n : Node) : Prop where
  lexeme : ∀ lexeme, n.label.lexeme? = some lexeme → Scanned text lexeme n.start n.stop
  identifier : n.is .identifier = true → ∃ k, k ≠ .stray ∧ Scanned text (.token k) n.start n.stop
  word : ∀ word, n.label.word? = some word → Written text word.toList n.start n.stop

/-- The comments, literals and identifiers among some nodes, and inside them, are what the scan
takes. -/
def AllScans (text : List Char) (ns : List Node) : Prop :=
  ∀ n ∈ ns, ∀ m ∈ n.preorder, m.Scans text

/-- A token and the comments before it, as the scan takes them. -/
structure Token.Scans (text : List Char) (t : Token) : Prop where
  extras : AllScans text t.extras
  token : t.IsGenuine → Scanned text (.token t.kind) t.start t.stop
  written : t.IsGenuine → Written text t.text.toList t.start t.stop

/-- Tokens and trailing comments, as the scan takes them. -/
structure TokenList.Scans (text : List Char) (l : TokenList) : Prop where
  tokens : ∀ t ∈ l.tokens, t.Scans text
  trailing : AllScans text l.trailing

variable {text : List Char} {ns ms : List Node}

theorem Scanned.isSound {lexeme : Lexeme} {start stop : Nat} (h : Scanned text lexeme start stop) :
    lexeme.isSound = true := by
  obtain ⟨_, c, cs, _, _, _, scanned, _⟩ := h
  have sound := isSound_scan c cs
  rwa [scanned] at sound

/-- A literal that is a token of its own sort is no word. -/
theorem word?_of_isLiteral {k : Kind} (h : k.isLiteral = true) : (Label.kind k).word? = none := by
  unfold Kind.isLiteral at h
  split at h <;> first | rfl | cases h

theorem allScans_nil : AllScans text [] := throughout_nil

theorem AllScans.append (first : AllScans text ns) (second : AllScans text ms) :
    AllScans text (ns ++ ms) :=
  Throughout.append first second

theorem AllScans.subset (h : AllScans text ns) (sub : ms ⊆ ns) : AllScans text ms :=
  Throughout.subset h sub

/-- Nodes around nodes that are as the scan takes them. -/
theorem allScans_of (each : ∀ n ∈ ns, n.Scans text) (inside : ∀ n ∈ ns, AllScans text n.children) :
    AllScans text ns :=
  throughout_of each inside

theorem AllScans.children (h : AllScans text ns) {n : Node} (hn : n ∈ ns) :
    AllScans text n.children :=
  Throughout.children h hn

theorem allScans_singleton {n : Node} (own : n.Scans text) (inside : AllScans text n.children) :
    AllScans text [n] :=
  throughout_singleton own inside

/-! ### The tokens of a text -/

/-- Reading on after tokens and comments that are as the scan takes them. -/
theorem scans_readTokens {front rest : List Char} {offset : Nat} {comments : List Node}
    {tokens : List Token} (whole : text = front ++ rest)
    (here : offset = (encodeChars front).length) (extras : AllScans text comments)
    (scans : ∀ t ∈ tokens, t.Scans text) : (readTokens offset comments tokens rest).Scans text := by
  have step (c : Char) (cs : List Char) (n offset : Nat) (front : List Char)
      (whole : text = front ++ c :: cs) (here : offset = (encodeChars front).length) :
      text = front ++ (c :: cs.take n) ++ cs.drop n ∧
        offset + byteLength (c :: cs.take n) = (encodeChars (front ++ c :: cs.take n)).length := by
    refine ⟨?_, ?_⟩
    · rw [whole, List.append_assoc, List.cons_append, List.take_append_drop]
    · rw [here, byteLength_eq, Text.encodeChars_append, List.length_append]
  fun_induction readTokens offset comments tokens rest generalizing front with
  | case1 offset comments tokens =>
    exact ⟨fun t ht => scans t (List.mem_reverse.1 ht), extras.subset fun n => List.mem_reverse.1⟩
  | case2 offset comments tokens c cs space ih =>
    refine @ih (front ++ [c]) ?_ ?_ extras scans
    · rw [whole, List.append_assoc]
      rfl
    · rw [here, Text.encodeChars_append, List.length_append, Text.encodeChars_cons,
        List.length_append, String.length_utf8EncodeChar]
      rfl
  | case3 =>
    rename_i offset comments tokens c cs space n taken stop k found ih
    obtain ⟨further, there⟩ := step c cs n offset front whole here
    refine @ih (front ++ c :: cs.take n) further there ?_ scans
    have isComment : k.isComment = true := by
      have sound := isSound_scan c cs
      rwa [found] at sound
    have own : Node.Scans text (.mk (.kind k) none offset stop []) := by
      refine ⟨fun lexeme known => ?_, fun is => ?_, fun word known => ?_⟩
      · rw [Node.label, Label.lexeme?, if_pos isComment] at known
        cases known
        exact ⟨front, c, cs, n, whole, Bool.eq_false_iff.2 space, found, here,
          by rw [← byteLength_eq]; rfl⟩
      · rw [Node.is, Node.label, beq_iff_eq, Label.kind.injEq] at is
        rw [is] at isComment
        cases isComment
      · rw [Node.label] at known
        unfold Label.word? at known
        split at known
        · rename_i same
          cases same
          cases isComment
        · rename_i same
          cases same
          cases isComment
        · cases known
    exact (allScans_singleton own allScans_nil).append extras
  | case4 =>
    rename_i offset comments tokens c cs space n taken stop k found ih
    obtain ⟨further, there⟩ := step c cs n offset front whole here
    rw [List.unattach_reverse, List.unattach_attach] at ih
    refine @ih (front ++ c :: cs.take n) further there allScans_nil ?_
    intro t ht
    rcases List.mem_cons.1 ht with rfl | ht
    · refine ⟨extras.subset fun n => List.mem_reverse.1, fun _ => ?_, fun _ => ?_⟩
      · exact ⟨front, c, cs, n, whole, Bool.eq_false_iff.2 space, found, here,
          by rw [← byteLength_eq]⟩
      · refine ⟨front, cs.drop n, ?_, here, ?_⟩
        · rw [further, String.toList_ofList, List.append_assoc]
        · rw [String.toList_ofList, ← byteLength_eq]
    · exact scans t ht

theorem scans_ofChars (text : List Char) : (TokenList.ofChars text).Scans text := by
  cases text with
  | nil => exact ⟨fun t ht => (List.not_mem_nil ht).elim, allScans_nil⟩
  | cons c cs =>
    rw [TokenList.ofChars]
    split
    · refine @scans_readTokens (c :: cs) [c] cs _ [] [] rfl ?_ allScans_nil
        fun t ht => (List.not_mem_nil ht).elim
      rw [Text.encodeChars_cons, List.length_append, String.length_utf8EncodeChar]
      rfl
    · exact @scans_readTokens (c :: cs) [] (c :: cs) 0 [] [] rfl rfl allScans_nil
        fun t ht => (List.not_mem_nil ht).elim

/-- Text that is skipped is an error, and no comment. -/
theorem allScans_skipped {t : Token} (h : t.Scans text) :
    AllScans text (t.extras ++ [.mk (.kind .error) none t.start t.stop []]) := by
  refine h.extras.append (allScans_singleton ⟨fun lexeme known => ?_, fun is => ?_,
    fun word known => ?_⟩ allScans_nil)
  · cases known
  · cases is
  · cases known

theorem scans_skipToken {l skipped : TokenList} {position : Nat} (h : l.Scans text)
    (skip : skipToken position l = some skipped) : skipped.Scans text := by
  have among : ∀ t ∈ l.tokens.drop position, t.Scans text := fun t ht =>
    h.tokens t (List.mem_of_mem_drop ht)
  have before : ∀ t ∈ l.tokens.take position, t.Scans text := fun t ht =>
    h.tokens t (List.mem_of_mem_take ht)
  unfold skipToken at skip
  split at skip
  · cases skip
  · rename_i t rest dropped
    rw [dropped] at among
    have extras := allScans_skipped (among t List.mem_cons_self)
    dsimp only at skip
    split at skip
    · cases skip
      exact ⟨before, extras.append h.trailing⟩
    · rename_i next others
      cases skip
      refine ⟨fun s hs => ?_, h.trailing⟩
      have own := among next (List.mem_cons_of_mem _ List.mem_cons_self)
      rcases List.mem_append.1 hs with hs | hs
      · exact before s hs
      · rcases List.mem_cons.1 hs with rfl | hs
        · exact ⟨extras.append own.extras, own.token, own.written⟩
        · exact among s (List.mem_cons_of_mem _ (List.mem_cons_of_mem _ hs))

theorem scans_insertToken {l : TokenList} (h : l.Scans text) (put : String) (position : Nat) :
    TokenList.Scans text { l with tokens := insertToken put position l.tokens } := by
  refine ⟨fun t ht => ?_, h.trailing⟩
  rcases List.mem_append.1 ht with ht | ht
  · rcases List.mem_append.1 ht with ht | ht
    · exact h.tokens t (List.mem_of_mem_take ht)
    · cases List.mem_singleton.1 ht
      exact ⟨allScans_nil, fun genuine => (genuine.1 rfl).elim, fun genuine => (genuine.1 rfl).elim⟩
  · exact h.tokens t (List.mem_of_mem_drop ht)

theorem scans_repair {l repaired : TokenList} {position : Nat} (h : l.Scans text)
    (repair : repair? position l = some repaired) : repaired.Scans text := by
  rcases List.mem_append.1 (List.mem_of_find?_eq_some repair) with inserted | skipped
  · obtain ⟨put, _, rfl⟩ := List.mem_map.1 inserted
    exact scans_insertToken h put position
  · exact scans_skipToken h (Option.mem_toList.1 skipped)

/-! ### Derivations -/

theorem AllScans.assign {part : Role} (h : AllScans text ns) :
    AllScans text (Node.assign part ns) := by
  refine Throughout.assign h fun n _ own => ?_
  cases n
  exact ⟨own.lexeme, own.identifier, own.word⟩

theorem AllScans.wrap {k : Kind} (h : AllScans text ns) (plain : (Label.kind k).lexeme? = none)
    (other : k ≠ .identifier) (noWord : (Label.kind k).word? = none) :
    AllScans text (Node.wrap k ns) := by
  rcases Node.wrap_cases k ns with ⟨_, same⟩ | ⟨outside, first, others, last, split, _, _, _, same⟩
  · rw [same]
    exact h
  · rw [same]
    rw [split] at h
    refine (h.subset (List.subset_append_left _ _)).append (allScans_singleton ?_ ?_)
    · refine ⟨fun lexeme known => ?_, fun is => ?_, fun word known => ?_⟩
      · rw [Node.label, plain] at known
        cases known
      · rw [Node.is, Node.label, beq_iff_eq, Label.kind.injEq] at is
        exact (other is).elim
      · rw [Node.label, noWord] at known
        cases known
    · exact h.subset (List.subset_append_right _ _)

namespace Rule

variable {S : Type}

/-- Whether a rule gives comments, literals and identifiers only as the tokens that it takes. -/
def isLexical : Rule S → Bool
  | .leaf text k => (Label.kind k).lexeme?.isNone && (Label.kind k).word?.all (· == text)
  | .name k => (Label.kind k).lexeme?.isNone && (Label.kind k).word?.isNone
  | .seq a b | .alt a b | .chain a b => a.isLexical && b.isLexical
  | .many r | .field _ r => r.isLexical
  | .node k r => (Label.kind k).lexeme?.isNone && k != .identifier && (Label.kind k).word?.isNone &&
    r.isLexical
  | _ => true

variable {grammar : S → Rule S} {rule : Rule S} {op nodes : List Node} {ts : List Token}

theorem allScans_toNodes {t : Token} {label : Label} (h : t.Scans text) (read : t.kind ≠ .stray)
    (own : ∀ lexeme, label.lexeme? = some lexeme → Scanned text lexeme t.start t.stop)
    (spelled : ∀ word, label.word? = some word → t.text = word) :
    AllScans text (t.toNodes label) := by
  refine h.extras.append (allScans_singleton ⟨fun lexeme known => ?_, fun is => ?_,
    fun word known => ?_⟩ allScans_nil)
  · rw [Node.label] at known
    split at known
    · cases known
    · exact own lexeme known
  · rw [Node.is, Node.label] at is
    split at is
    · cases is
    · rename_i present
      have genuine : t.IsGenuine := ⟨fun missing => present (beq_iff_eq.2 missing), read⟩
      exact ⟨t.kind, read, h.token genuine⟩
  · rw [Node.label] at known
    split at known
    · cases known
    · rename_i present
      rw [← spelled word known]
      exact h.written ⟨fun missing => present (beq_iff_eq.2 missing), read⟩

theorem allScans_plain {t : Token} {label : Label} (h : t.Scans text) (read : t.kind ≠ .stray)
    (plain : label.lexeme?.isNone = true) (spelled : label.word?.all (· == t.text) = true) :
    AllScans text (t.toNodes label) := by
  refine allScans_toNodes h read (fun lexeme known => ?_) fun word known => ?_
  · rw [known] at plain
    cases plain
  · rw [known] at spelled
    exact (eq_of_beq spelled).symm

theorem not_stray_of_reads {t : Token} {word : String} (reads : t.reads word = true) :
    t.kind ≠ .stray := by
  intro stray
  rw [Token.reads, stray] at reads
  cases reads

theorem not_stray_of_isName {t : Token} (isName : t.isName = true) : t.kind ≠ .stray := by
  intro stray
  rw [Token.isName, stray] at isName
  cases isName

theorem allScans_literal {t : Token} {label : Label} (h : t.Scans text) (proper : t.Proper)
    (is : literalLabel? t = some label) : AllScans text (t.toNodes label) := by
  rw [literalLabel?] at is
  split at is
  · rename_i k literal
    have read : t.kind ≠ .stray := fun stray => by
      rw [stray] at literal
      cases literal
    have present : t.kind ≠ .missing := fun missing => by
      rw [missing] at literal
      cases literal
    cases is
    refine allScans_toNodes h read (fun lexeme known => ?_) fun word known => ?_
    · rw [Label.lexeme?, (proper.literal k literal).1, if_neg Bool.false_ne_true] at known
      split at known
      · cases known
        exact literal ▸ h.token ⟨present, read⟩
      · cases known
    · have sound := (h.token ⟨present, read⟩).isSound
      rw [literal] at sound
      rw [word?_of_isLiteral sound] at known
      cases known
  · cases is

/-- What a derivation gives is as the scan takes it. -/
theorem Derives.allScans (lexical : ∀ s, (grammar s).isLexical = true)
    (h : Derives grammar rule op ts nodes) (plain : rule.isLexical = true)
    (scans : ∀ t ∈ ts, t.Scans text) (proper : ∀ t ∈ ts, t.Proper) (operand : AllScans text op) :
    AllScans text nodes := by
  induction h with
  | empty | manyNil | «unless» => exact allScans_nil
  | left => exact operand
  | token reads =>
    exact allScans_plain (scans _ List.mem_cons_self) (not_stray_of_reads reads) rfl rfl
  | glued reads more =>
    refine (scans _ List.mem_cons_self).extras.append
      (allScans_singleton ⟨fun lexeme known => ?_, fun is => ?_, fun word known => ?_⟩ allScans_nil)
    · cases known
    · cases is
    · cases known
  | leaf reads =>
    rw [isLexical, Bool.and_eq_true, ← Token.text_of_reads reads] at plain
    exact allScans_plain (scans _ List.mem_cons_self) (not_stray_of_reads reads) plain.1 plain.2
  | name isName =>
    rw [isLexical, Bool.and_eq_true, Option.isNone_iff_eq_none (o := (Label.kind _).word?)] at plain
    exact allScans_plain (scans _ List.mem_cons_self) (not_stray_of_isName isName) plain.1
      (by rw [plain.2]; rfl)
  | literal is =>
    exact allScans_literal (scans _ List.mem_cons_self) (proper _ List.mem_cons_self) is
  | @ref op nodes s ts inner ih => exact ih (lexical s) scans proper operand
  | seq left right ihLeft ihRight =>
    rw [isLexical, Bool.and_eq_true] at plain
    rw [List.forall_mem_append] at scans proper
    exact (ihLeft plain.1 scans.1 proper.1 operand).append
      (ihRight plain.2 scans.2 proper.2 operand)
  | altLeft left ih =>
    rw [isLexical, Bool.and_eq_true] at plain
    exact ih plain.1 scans proper operand
  | altRight right ih =>
    rw [isLexical, Bool.and_eq_true] at plain
    exact ih plain.2 scans proper operand
  | manyCons head tail ihHead ihTail =>
    rw [List.forall_mem_append] at scans proper
    exact (ihHead plain scans.1 proper.1 operand).append (ihTail plain scans.2 proper.2 operand)
  | node inner ih =>
    rw [isLexical, Bool.and_eq_true, Bool.and_eq_true, Bool.and_eq_true, Option.isNone_iff_eq_none,
      Option.isNone_iff_eq_none, bne_iff_ne] at plain
    exact (ih plain.2 scans proper operand).wrap plain.1.1.1 plain.1.1.2 plain.1.2
  | field inner ih => exact (ih plain scans proper operand).assign
  | chainBase inner ih =>
    rw [isLexical, Bool.and_eq_true] at plain
    exact ih plain.1 scans proper operand
  | chainMore inner step more ihInner ihStep ihMore =>
    have suffix := plain
    rw [isLexical, Bool.and_eq_true] at plain
    rw [List.forall_mem_append, List.forall_mem_append] at scans proper
    have base := ihInner plain.1 scans.1 proper.1 operand
    have longer := ihStep plain.2 scans.2.1 proper.2.1 base
    refine ihMore ?_ scans.2.2 proper.2.2 longer
    rw [isLexical, plain.2]
    rfl

end Rule

theorem isLexical_ruleOf (s : Symbol) : (Grammar.ruleOf s).isLexical = true := by
  cases s <;> decide +kernel

/-- The comments, literals and identifiers of a text without faults are what the scan takes. -/
theorem allScans_parse (clean : (parse text).hasError = false) :
    AllScans text (parse text).children := by
  obtain ⟨l, nodes, ⟨⟨⟨mid, placed, _⟩, _⟩, scans⟩, derives, same⟩ :=
    exists_reading_of (P := fun l => l.Stands text ∧ l.Scans text)
      (fun _ _ _ both repair => ⟨stands_repair both.1 repair, scans_repair both.2 repair⟩)
      ⟨stands_ofChars text, scans_ofChars text⟩ clean
  rw [same]
  exact (derives.allScans isLexical_ruleOf (by decide +kernel) scans.tokens placed.proper
    allScans_nil).append scans.trailing

theorem scans_of_mem_parse (clean : (parse text).hasError = false) {n : Node}
    (h : n ∈ Node.preorderAll (parse text).children) : n.Scans text := by
  obtain ⟨c, hc, hn⟩ := Node.mem_preorderAll.1 h
  exact allScans_parse clean c hc n hn

/-! ### What lexemes look like -/

/-- The characters of a genuine lexeme. The first is no blank, and neither is the last line. -/
theorem Scanned.exists_chars {lexeme : Lexeme} {start stop : Nat}
    (h : Scanned text lexeme start stop) (genuine : lexeme ≠ .token .stray) :
    ∃ front c cs back, text = front ++ ((c :: cs) ++ back) ∧ start = (encodeChars front).length ∧
      stop = start + (encodeChars (c :: cs)).length ∧ Text.isBlank c = false ∧
      Text.EndsSolid (c :: cs) := by
  obtain ⟨front, c, cs, n, split, space, scanned, first, last⟩ := h
  have same : (scan c cs).1 = lexeme := congrArg Prod.fst scanned
  have taken : (scan c cs).2 = n := congrArg Prod.snd scanned
  refine ⟨front, c, cs.take n, cs.drop n, ?_, first, last, ?_, ?_⟩
  · rw [split, List.cons_append, List.take_append_drop]
  · cases blank : Text.isBlank c with
    | false => rfl
    | true => exact (genuine (same ▸ stray_of_isBlank space blank cs)).elim
  · have solid := endsSolid_scan space cs (same ▸ genuine)
    rwa [taken] at solid

/-- The text of a lexeme is what was scanned. -/
theorem Scanned.exists_text {source : String} {lexeme : Lexeme} {start stop : Nat}
    (h : Scanned source.toList lexeme start stop) :
    ∃ c cs n, scan c cs = (lexeme, n) ∧
      ((Text.Source.ofString source).textOf start stop).toList = c :: cs.take n := by
  obtain ⟨front, c, cs, n, split, _, scanned, first, last⟩ := h
  refine ⟨c, cs, n, scanned, ?_⟩
  have whole : source.toList = front ++ ((c :: cs.take n) ++ cs.drop n) := by
    rw [split, List.cons_append, List.take_append_drop]
  rw [Text.Source.textOf, Text.Source.slice_eq, Text.Source.toBytes_ofString, Text.encode_eq, whole,
    Text.encodeChars_between first last, Text.decodeLossy_encodeChars, String.toList_ofList]

/-- Whether a text begins like a comment. -/
def opensComment : List Char → Bool
  | '/' :: '/' :: _ | '/' :: '*' :: _ => true
  | _ => false

theorem opensComment_cons (c d : Char) (cs : List Char) :
    opensComment (c :: d :: cs) = (c == '/' && (d == '/' || d == '*')) := by
  unfold opensComment
  split
  · rename_i same
    cases same
    rfl
  · rename_i same
    cases same
    rfl
  · rename_i noLine noBlock
    cases first : c == '/' with
    | false => rfl
    | true =>
      obtain rfl := beq_iff_eq.1 first
      have line : (d == '/') = false := beq_eq_false_iff_ne.2 fun same => noLine cs (same ▸ rfl)
      have block : (d == '*') = false := beq_eq_false_iff_ne.2 fun same => noBlock cs (same ▸ rfl)
      rw [line, block]
      rfl

theorem opensComment_append {cs : List Char} (h : opensComment cs = true) (more : List Char) :
    opensComment (cs ++ more) = true := by
  unfold opensComment at h
  split at h
  · rfl
  · rfl
  · cases h

theorem opensComment_of_scan {c : Char} {cs : List Char} {n : Nat} {k : Kind}
    (h : scan c cs = (.comment k, n)) : opensComment (c :: cs.take n) = true := by
  have mark : (scanMark c cs).1 ≠ .comment k := by
    unfold scanMark
    split <;> exact fun same => by cases same
  unfold scan at h
  split at h
  · cases h
    rw [Nat.add_comm, List.take_succ_cons]
    rfl
  · split at h <;> cases h
    rw [Nat.add_comm, List.take_succ_cons]
    rfl
  · split at h <;> cases h
  · split at h <;> cases h
  · split at h <;> cases h
  · split at h
    · cases h
    · split at h <;> cases h
  · split at h
    · cases h
    · exact (mark (congrArg Prod.fst h)).elim
  · split at h
    · cases h
    · split at h
      · cases h
      · exact (mark (congrArg Prod.fst h)).elim

/-- What begins like a comment is one, or is not closed. -/
theorem scan_of_opensComment {c : Char} {cs : List Char} {n : Nat}
    (h : opensComment (c :: cs.take n) = true) :
    (∃ k, (scan c cs).1 = .comment k) ∨ (scan c cs).1 = .token .stray := by
  have begins := opensComment_append h (cs.drop n)
  rw [List.cons_append, List.take_append_drop] at begins
  unfold opensComment at begins
  split at begins
  · rename_i same
    cases same
    exact .inl ⟨_, rfl⟩
  · rename_i rest same
    cases same
    rw [scan]
    cases blockCommentLength? rest with
    | none => exact .inr rfl
    | some m => exact .inl ⟨_, rfl⟩
  · cases begins

theorem Node.Scans.opensComment {source : String} {n : Node} (h : n.Scans source.toList)
    (comment : n.isComment = true) :
    Java.opensComment (n.text (.ofString source)).toList = true := by
  obtain ⟨k, label⟩ : ∃ k, n.label.lexeme? = some (.comment k) := by
    rw [Node.isComment] at comment
    split at comment
    · rename_i k label
      exact ⟨k, by rw [label, Label.lexeme?, if_pos comment]⟩
    · cases comment
  obtain ⟨c, cs, m, scanned, text⟩ := (h.lexeme _ label).exists_text
  rw [Node.text, text]
  exact opensComment_of_scan scanned

theorem Node.Scans.not_opensComment {source : String} {n : Node} (h : n.Scans source.toList)
    (is : n.is .identifier = true) :
    Java.opensComment (n.text (.ofString source)).toList = false := by
  obtain ⟨k, genuine, scanned⟩ := h.identifier is
  obtain ⟨c, cs, m, scanned, text⟩ := scanned.exists_text
  rw [Node.text, text, Bool.eq_false_iff]
  intro opens
  rcases scan_of_opensComment opens with ⟨k, comment⟩ | stray
  · rw [scanned] at comment
    cases comment
  · rw [scanned] at stray
    exact genuine (by cases stray; rfl)

/-- Numbers and marks are no string literals. -/
theorem scanHex_ne_string (cs : List Char) :
    ((scanHex cs).1 == .literal .stringLiteral) = false := by
  rw [scanHex]
  dsimp only
  repeat' split
  all_goals rfl

theorem scanDecimal_ne_string (cs : List Char) :
    ((scanDecimal cs).1 == .literal .stringLiteral) = false := by
  rw [scanDecimal]
  dsimp only
  repeat' split
  all_goals rfl

theorem scanMark_ne_string (c : Char) (cs : List Char) :
    ((scanMark c cs).1 == .token (.literal .stringLiteral)) = false := by
  unfold scanMark
  split
  · rfl
  · split <;> rfl

/-- A string literal stands between quotes. -/
theorem exists_of_scan_string {c : Char} {cs : List Char} {n : Nat}
    (h : scan c cs = (.token (.literal .stringLiteral), n)) :
    ∃ inside, c :: cs.take n = '"' :: (inside ++ ['"']) := by
  have token {k : TokenKind} {m : Nat} (other : (k == .literal .stringLiteral) = false)
      (h : (Lexeme.token k, m) = (.token (.literal .stringLiteral), n)) : False := by
    cases h
    cases other
  have number (h : scan.number c cs = (.token (.literal .stringLiteral), n)) : False :=
    token (scanDecimal_ne_string (c :: cs)) h
  have mark (h : scanMark c cs = (.token (.literal .stringLiteral), n)) : False := by
    have other := scanMark_ne_string c cs
    rw [h] at other
    cases other
  unfold scan at h
  split at h
  · cases h
  · split at h <;> cases h
  · split at h
    · rename_i rest _ found
      cases h
      obtain ⟨inside, split⟩ := closes_textBlock found
      exact ⟨'"' :: '"' :: inside, by
        rw [Nat.add_comm, List.take_succ_cons, List.take_succ_cons, split]; rfl⟩
    · cases h
  · split at h
    · rename_i found
      cases h
      obtain ⟨inside, split⟩ := closes_string found
      exact ⟨inside, by rw [split]⟩
    · cases h
  · split at h <;> cases h
  · split at h
    · exact (token (scanHex_ne_string _) h).elim
    · split at h
      · cases h
      · exact (number h).elim
  · split at h
    · exact (number h).elim
    · exact (mark h).elim
  · split at h
    · cases h
    · split at h
      · exact (number h).elim
      · exact (mark h).elim

end MonoTap.Java
