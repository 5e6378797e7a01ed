import MonoTap.Proofs.Cuts
import MonoTap.Proofs.ImportTokens
import MonoTap.Proofs.RelocatedCalls

/-!
# Seams between declarations

Before a declaration of an import that begins its line, after such a declaration and after that of the
package, a text falls into two parts: the tokens of the first part do not depend on the second one, and they
are constructs whatever declaration comes next. The declaration of an import can be put in there, and all
other imports stay as they are.
-/

set_option autoImplicit false

namespace MonoTap.Java

open Grammar (ruleOf topLevel program typeDeclaration beforeDeclaration)
open Rule (Derives Reads)
open Text (EndsSolid Source encodeChars)

variable {c : Char} {cs g front back rest text : List Char} {offset n : Nat} {comments nodes : List Node}
  {tokens ts us : List Token} {t u : Token}

/-! ### Tokens as they are read -/

/-- Numbers and marks are no words. -/
theorem scanHex_ne_word (cs : List Char) : ((scanHex cs).1 == .word) = false := by
  rw [scanHex]
  dsimp only
  repeat' split
  all_goals rfl

theorem scanDecimal_ne_word (cs : List Char) : ((scanDecimal cs).1 == .word) = false := by
  rw [scanDecimal]
  dsimp only
  repeat' split
  all_goals rfl

theorem scanMark_ne_word (c : Char) (cs : List Char) : ((scanMark c cs).1 == .token .word) = false := by
  unfold scanMark
  split
  · rfl
  · dsimp only
    split <;> rfl

theorem isWordStart_of_scan (h : scan c cs = (.token .word, n)) : isWordStart c = true := by
  have token {k : TokenKind} {m : Nat} (other : (k == .word) = false)
      (h : (Lexeme.token k, m) = (.token .word, n)) : False := by
    cases h
    cases other
  have number (h : scan.number c cs = (.token .word, n)) : False := token (scanDecimal_ne_word (c :: cs)) h
  have mark (h : scanMark c cs = (.token .word, n)) : False := by
    have other := scanMark_ne_word c cs
    rw [h] at other
    cases other
  unfold scan at h
  split at h
  · cases h
  · split at h <;> cases h
  · split at h <;> cases h
  · split at h <;> cases h
  · split at h <;> cases h
  · split at h
    · exact (token (scanHex_ne_word _) h).elim
    · split at h
      · cases h
      · exact (number h).elim
  · split at h
    · exact (number h).elim
    · exact (mark h).elim
  · split at h
    · assumption
    · split at h
      · exact (number h).elim
      · exact (mark h).elim

/-- What is known of a token that has been read from an offset on. -/
structure Token.Fresh (offset : Nat) (t : Token) : Prop where
  start : offset ≤ t.start
  wide : t.start < t.stop
  plain : t.Plain
  present : t.kind ≠ .missing

theorem plain_of_scan {k : TokenKind} {start stop : Nat} (h : scan c cs = (.token k, n)) :
    Token.Plain ⟨k, String.ofList (c :: cs.take n), start, stop, comments⟩ := by
  intro isName mem
  rw [Token.isName] at isName
  split at isName
  · rename_i word
    cases word
    have begins := isWordStart_of_scan h
    have marks : ("@" :: punctuation).all (·.toList.head?.all (!isWordStart ·)) = true := by decide
    have mark := List.all_eq_true.1 marks _ mem
    rw [String.toList_ofList, List.head?_cons, Option.all_some, begins] at mark
    cases mark
  · rename_i missing
    cases missing
    have sound := isSound_scan c cs
    rw [h] at sound
    cases sound
  · cases isName

theorem fresh_readTokens {lo : Nat} (before : lo ≤ offset) (fresh : ∀ t ∈ tokens, t.Fresh lo) :
    ∀ t ∈ (readTokens offset comments tokens cs).tokens, t.Fresh lo := by
  fun_induction readTokens offset comments tokens cs with
  | case1 offset comments tokens => exact fun t ht => fresh t (List.mem_reverse.1 ht)
  | case2 offset comments tokens c cs space ih => exact ih (by omega) fresh
  | case3 => rename_i ih; exact ih (by omega) fresh
  | case4 =>
    rename_i offset comments tokens c cs space n taken stop k found ih
    rw [List.unattach_reverse, List.unattach_attach] at ih
    have positive := byteLength_pos c (cs.take n)
    refine ih (by omega) fun t ht => ?_
    rcases List.mem_cons.1 ht with rfl | ht
    · refine ⟨before, ?_, plain_of_scan found, ?_⟩
      · exact Nat.lt_add_of_pos_right positive
      · rintro rfl
        have sound := isSound_scan c cs
        rw [found] at sound
        cases sound
    · exact fresh t ht

theorem fresh_ofChars (text : List Char) : ∀ t ∈ (TokenList.ofChars text).tokens, t.Fresh 0 := by
  cases text with
  | nil => exact fun t ht => by cases ht
  | cons c cs =>
    rw [TokenList.ofChars]
    split <;> exact fresh_readTokens (Nat.zero_le _) fun t ht => by cases ht

theorem not_stray_of_adjacent {start stop : Nat} {texts : List String} (h : Adjacent start texts ts stop) :
    ∀ t ∈ ts, t.kind ≠ .stray := by
  induction h with
  | nil => exact fun t ht => by cases ht
  | cons joined bare reads more ih => exact List.forall_mem_cons.2 ⟨Rule.not_stray_of_reads reads, ih⟩

/-- No rule takes a stray token. -/
theorem Rule.Derives.not_stray {S : Type} {grammar : S → Rule S} {rule : Rule S} {op : List Node}
    (h : Derives grammar rule op ts nodes) : ∀ t ∈ ts, t.kind ≠ .stray := by
  induction h with
  | empty | left | manyNil | «unless» => exact fun t ht => by cases ht
  | token reads | leaf reads => exact List.forall_mem_singleton.2 (not_stray_of_reads reads)
  | glued reads more =>
    exact List.forall_mem_cons.2 ⟨not_stray_of_reads reads, not_stray_of_adjacent more⟩
  | name isName => exact List.forall_mem_singleton.2 (not_stray_of_isName isName)
  | literal is =>
    refine List.forall_mem_singleton.2 fun stray => ?_
    rw [literalLabel?, stray] at is
    cases is
  | ref _ ih | altLeft _ ih | altRight _ ih | node _ ih | field _ ih | chainBase _ ih => exact ih
  | seq _ _ first second | manyCons _ _ first second => exact List.forall_mem_append.2 ⟨first, second⟩
  | chainMore _ _ _ first second third =>
    exact List.forall_mem_append.2 ⟨first, List.forall_mem_append.2 ⟨second, third⟩⟩

/-! ### The ends of a declaration -/

/-- What ends with a token gives that token last. -/
theorem Rule.Derives.exists_last {grammar : Symbol → Rule Symbol} {rules : List (Rule Symbol)} {text : String}
    {op : List Node} (h : Derives grammar (Grammar.all (rules ++ [Grammar.tok text])) op ts nodes) :
    ∃ front t before, ts = front ++ [t] ∧ t.reads text = true ∧ nodes = before ++ t.toNodes (.token text) := by
  induction rules generalizing ts nodes with
  | nil =>
    cases h with
    | token reads => exact ⟨[], _, [], rfl, reads, rfl⟩
  | cons rule rules ih =>
    obtain ⟨r, rs, split⟩ : ∃ r rs, rules ++ [Grammar.tok text] = r :: rs :=
      List.exists_cons_of_ne_nil (by simp)
    rw [List.cons_append, split, Grammar.all] at h
    · cases h with
      | seq left right =>
        obtain ⟨front, t, before, rfl, reads, rfl⟩ := ih (split ▸ right)
        exact ⟨_, t, _, (List.append_assoc ..).symm, reads, (List.append_assoc ..).symm⟩
    · exact List.cons_ne_nil r rs

/-- A node over what ends with a token stops where the token does. -/
theorem Rule.Derives.stop_eq {grammar : Symbol → Rule Symbol} {rules : List (Rule Symbol)} {text : String}
    {op : List Node} {k : Kind} {n : Node}
    (h : Derives grammar (.node k (Grammar.all (rules ++ [Grammar.tok text]))) op ts nodes) (hn : n ∈ nodes)
    (counts : n.isExtra = false) : ∃ front t, ts = front ++ [t] ∧ t.reads text = true ∧ n.stop = t.stop := by
  cases h with
  | @node _ _ _ inside _ inner =>
    obtain ⟨front, t, before, rfl, reads, last⟩ := inner.exists_last
    refine ⟨front, t, rfl, reads, ?_⟩
    rcases Node.wrap_cases k inside with
      ⟨extras, same⟩ | ⟨outside, first, others, final, split, extras, _, isLast, same⟩
    · rw [same] at hn
      rw [extras n hn] at counts
      cases counts
    · rw [same] at hn
      rcases List.mem_append.1 hn with hn | hn
      · rw [extras n hn] at counts
        cases counts
      · have ends := congrArg List.getLast? last
        rw [split, List.getLast?_append, isLast, Token.toNodes, ← List.append_assoc, List.getLast?_concat,
          Option.some_or, Option.some.injEq] at ends
        rw [List.mem_singleton.1 hn, ends]
        rfl

/-- A node stands last, after the comments before it. -/
theorem Rule.Derives.eq_nil {grammar : Symbol → Rule Symbol} {r : Rule Symbol} {op own further : List Node}
    {k : Kind} {n : Node} (h : Derives grammar (.node k r) op ts (own ++ n :: further))
    (counts : n.isExtra = false) : (∀ m ∈ own, m.isExtra = true) ∧ further = [] := by
  have notExtra {ns : List Node} (extras : ∀ m ∈ ns, m.isExtra = true) (hn : n ∈ ns) : False := by
    rw [extras n hn] at counts
    cases counts
  generalize split : own ++ n :: further = nodes at h
  cases h with
  | @node _ _ _ inside _ inner =>
    rcases Node.wrap_cases k inside with ⟨extras, same⟩ | ⟨outside, _, _, _, _, extras, _, _, same⟩
    · rw [same] at split
      exact (notExtra extras (split ▸ List.mem_append_right _ List.mem_cons_self)).elim
    · rw [same] at split
      rcases List.append_eq_append_iff.1 split with ⟨more, rfl, tail⟩ | ⟨more, rfl, tail⟩
      · cases more with
        | nil => exact ⟨fun m hm => extras m (List.mem_append_left _ hm), (List.cons.inj tail).2⟩
        | cons m more =>
          refine (notExtra extras (List.mem_append_right _ ?_)).elim
          rw [(List.cons.inj tail).1]
          exact List.mem_cons_self
      · cases more with
        | nil =>
          rw [List.append_nil]
          exact ⟨extras, (List.cons.inj tail).2.symm⟩
        | cons m more =>
          have none := (List.cons.inj tail).2.symm
          exact (List.append_ne_nil_of_right_ne_nil more (List.cons_ne_nil n further) none).elim

/-- A node over what begins with a token starts where the token does. -/
theorem Rule.Derives.start_eq {grammar : Symbol → Rule Symbol} {r : Rule Symbol} {text : String}
    {op : List Node} {k : Kind} {n : Node} (h : Derives grammar (.node k (.seq (Grammar.tok text) r)) op ts nodes)
    (proper : ∀ t ∈ ts, t.Proper) (hn : n ∈ nodes) (counts : n.isExtra = false) :
    ∃ t us, ts = t :: us ∧ n.start = t.start := by
  cases h with
  | node inner =>
    cases inner with
    | @seq _ _ _ _ second _ us left right =>
      cases left with
      | @token _ _ t reads =>
        refine ⟨t, us, rfl, ?_⟩
        have loose := (proper t List.mem_cons_self).loose
        rw [Token.toNodes, List.append_assoc, List.singleton_append] at hn
        generalize keyword : Node.mk (if (t.kind == .missing) = true then .kind .missing else .token text) none
          t.start t.stop [] = m at hn
        have extra : m.isExtra = false := by
          rw [← keyword]
          split <;> rfl
        rw [Node.wrap_eq k (fun m hm => (loose m hm).extra) extra
          (List.getLast?_eq_getLast_of_ne_nil (List.cons_ne_nil m second))] at hn
        rcases List.mem_append.1 hn with hn | hn
        · rw [(loose n hn).extra] at counts
          cases counts
        · rw [List.mem_singleton.1 hn, ← keyword]
          rfl

namespace Grammar

/-- The declaration of the package. -/
def packageDeclaration : Rule Symbol :=
  .node .packageDeclaration (all [annotations, tok "package", qualifiedName, tok ";"])

/-- The declarations up to that of the package, and those after it. -/
theorem choices_typeDeclaration_package : typeDeclaration.choices =
    typeDeclaration.choices.take 5 ++ packageDeclaration :: typeDeclaration.choices.drop 6 :=
  rfl

/-- The only choice that gives a node of some kind. -/
theorem eq_of_gives {front back : List (Rule Symbol)} {q q' : Rule Symbol} {k : Kind}
    (split : typeDeclaration.choices = front ++ q' :: back)
    (others : ((front ++ back).all fun q => !q.gives mayDeclare k) = true) (hq : q ∈ typeDeclaration.choices)
    (gives : q.gives mayDeclare k = true) : q = q' := by
  have apart (hq : q ∈ front ++ back) : False := by
    have none := List.all_eq_true.1 others q hq
    rw [gives] at none
    cases none
  rw [split, List.mem_append, List.mem_cons] at hq
  rcases hq with hq | rfl | hq
  · exact (apart (List.mem_append_left _ hq)).elim
  · rfl
  · exact (apart (List.mem_append_right _ hq)).elim

end Grammar

section

variable {inside : List Node} {m : Node} {k : Kind} {after : List Token}
  (h : Reads ruleOf typeDeclaration [] (us ++ after) (some (inside, after))) (proper : ∀ t ∈ us, t.Proper)
  (hm : m ∈ inside)
include h proper hm

/-- A declaration is derived by the only choice that gives it. -/
theorem derives_of_reads {front back : List (Rule Symbol)} {q : Rule Symbol}
    (split : typeDeclaration.choices = front ++ q :: back)
    (others : ((front ++ back).all fun q => !q.gives Grammar.mayDeclare k) = true) (is : m.is k = true)
    (declares : k ∈ Grammar.declarations) : Derives ruleOf q [] us inside ∧ m.isExtra = false := by
  have apart : k.isExtra = false ∧ k ≠ .missing ∧ k ≠ .block := by
    rcases Grammar.eq_of_mem_declarations declares with rfl | rfl <;> decide
  obtain ⟨q', hq, reads⟩ := h.exists_choice
  obtain ⟨us', same, derives⟩ := reads.derives Grammar.enters_ruleOf
  cases List.append_cancel_right same
  have gives : q'.gives Grammar.mayDeclare k = true := by
    rw [← Bool.not_eq_false]
    intro other
    have none := derives.not_is apart.1 apart.2.1 (Grammar.gives_ruleOf apart.2.2) proper other m hm
    rw [is] at none
    cases none
  rw [Grammar.eq_of_gives split others hq gives] at derives
  refine ⟨derives, ?_⟩
  rw [← Bool.not_eq_true]
  intro extra
  rw [Rule.not_is_of_isExtra apart.1 extra] at is
  cases is

theorem derives_of_import (is : m.is .importDeclaration = true) :
    Derives ruleOf Grammar.importDeclaration [] us inside ∧ m.isExtra = false :=
  derives_of_reads h proper hm Grammar.choices_typeDeclaration (by decide +kernel) is (by decide)

theorem derives_of_package (is : m.is .packageDeclaration = true) :
    Derives ruleOf Grammar.packageDeclaration [] us inside ∧ m.isExtra = false :=
  derives_of_reads h proper hm Grammar.choices_typeDeclaration_package (by decide +kernel) is (by decide)

/-- The declaration of an import stands from its first token to its last one, a semicolon. -/
theorem ends_of_import (is : m.is .importDeclaration = true) :
    (∃ t ts, us = t :: ts ∧ m.start = t.start) ∧
      ∃ ts t, us = ts ++ [t] ∧ t.reads ";" = true ∧ m.stop = t.stop := by
  obtain ⟨derives, counts⟩ := derives_of_import h proper hm is
  have whole : Derives ruleOf (.node .importDeclaration (Grammar.all ([Grammar.tok "import",
      Grammar.opt (Grammar.tok "static"), Grammar.qualifiedName,
      Grammar.opt (Grammar.all [Grammar.tok ".", .leaf "*" .asterisk])] ++ [Grammar.tok ";"]))) [] us inside :=
    derives
  exact ⟨derives.start_eq proper hm counts, whole.stop_eq hm counts⟩

/-- The declaration of the package ends with a semicolon. -/
theorem end_of_package (is : m.is .packageDeclaration = true) :
    ∃ ts t, us = ts ++ [t] ∧ t.reads ";" = true ∧ m.stop = t.stop := by
  obtain ⟨derives, counts⟩ := derives_of_package h proper hm is
  have whole : Derives ruleOf (.node .packageDeclaration (Grammar.all ([Grammar.annotations,
      Grammar.tok "package", Grammar.qualifiedName] ++ [Grammar.tok ";"]))) [] us inside := derives
  exact whole.stop_eq hm counts

end

/-- A declaration of an import or of the package is all that its tokens give, apart from the comments before
it. -/
theorem alone_of_declaration {own further : List Node} {m : Node} {k : Kind} {after : List Token}
    (h : Reads ruleOf typeDeclaration [] (us ++ after) (some (own ++ m :: further, after)))
    (proper : ∀ t ∈ us, t.Proper) (is : m.is k = true) (declares : k ∈ Grammar.declarations) :
    (∀ n ∈ own, n.isExtra = true) ∧ further = [] := by
  have hm : m ∈ own ++ m :: further := List.mem_append_right _ List.mem_cons_self
  rcases Grammar.eq_of_mem_declarations declares with rfl | rfl
  · obtain ⟨derives, counts⟩ := derives_of_import h proper hm is
    exact derives.eq_nil counts
  · obtain ⟨derives, counts⟩ := derives_of_package h proper hm is
    exact derives.eq_nil counts

/-! ### Openings -/

/-- Whether a text begins with a byte order mark. -/
def isMarked (cs : List Char) : Bool :=
  cs.head?.any (·.toNat == 0xFEFF)

/-- What is read after the tokens and comments of the beginning of a text. -/
def readAfter (front back : List Char) : TokenList :=
  readTokens (byteLength front) (TokenList.ofChars front).trailing.reverse [] back

/-- The beginning of a text, whose tokens and comments do not depend on what comes after it. -/
def Opens (front : List Char) : Prop :=
  ∀ back, (front = [] → isMarked back = false) →
    TokenList.ofChars (front ++ back) =
      ⟨(TokenList.ofChars front).tokens ++ (readAfter front back).tokens, (readAfter front back).trailing⟩

theorem ofChars_eq (unmarked : isMarked cs = false) : TokenList.ofChars cs = readTokens 0 [] [] cs := by
  cases cs with
  | nil => rw [TokenList.ofChars, readTokens]; rfl
  | cons c cs =>
    have plain : ¬ (c.toNat == 0xFEFF) = true := by
      rw [isMarked] at unmarked
      simpa using unmarked
    rw [TokenList.ofChars, if_neg plain]

theorem opens_nil : Opens [] := by
  intro back unmarked
  rw [List.nil_append, ofChars_eq (unmarked rfl)]
  rfl

/-- After a line feed or a semicolon that lies in no other lexeme. -/
theorem opens_of_cut {s : Char} (cut : isCut s = true)
    (apart : (TokenList.ofChars (g ++ s :: rest)).Apart (byteLength g)) : Opens (g ++ [s]) := by
  have upTo : ∃ comments tokens, ∀ back, TokenList.ofChars (g ++ s :: back) =
      readTokens (byteLength g) comments tokens (s :: back) := by
    cases g with
    | nil =>
      have plain (back : List Char) : isMarked (s :: back) = false := by
        rw [isCut, Bool.or_eq_true, beq_iff_eq, beq_iff_eq] at cut
        rcases cut with rfl | rfl <;> rfl
      exact ⟨[], [], fun back => ofChars_eq (plain back)⟩
    | cons c g =>
      cases mark : c.toNat == 0xFEFF with
      | true =>
        have marked (back : List Char) : TokenList.ofChars (c :: g ++ s :: back) =
            readTokens c.utf8Size [] [] (g ++ s :: back) := by
          rw [List.cons_append, TokenList.ofChars, if_pos mark]
        rw [marked, byteLength_cons] at apart
        obtain ⟨comments, tokens, same⟩ := exists_readTokens_cut cut apart
        exact ⟨comments, tokens, fun back => by rw [marked, same, byteLength_cons]⟩
      | false =>
        have plain (back : List Char) : TokenList.ofChars (c :: g ++ s :: back) =
            readTokens 0 [] [] (c :: g ++ s :: back) := ofChars_eq (by rw [isMarked]; simpa using mark)
        rw [plain, ← Nat.zero_add (byteLength (c :: g))] at apart
        obtain ⟨comments, tokens, same⟩ := exists_readTokens_cut cut apart
        exact ⟨comments, tokens, fun back => by rw [plain, same, Nat.zero_add]⟩
  obtain ⟨comments, tokens, same⟩ : ∃ comments tokens, ∀ back, TokenList.ofChars (g ++ [s] ++ back) =
      readTokens (byteLength (g ++ [s])) comments tokens back := by
    obtain ⟨comments, tokens, same⟩ := upTo
    rw [isCut, Bool.or_eq_true, beq_iff_eq, beq_iff_eq] at cut
    rcases cut with rfl | rfl
    · refine ⟨comments, tokens, fun back => ?_⟩
      rw [List.append_assoc, List.singleton_append, same, readTokens_space (by decide), byteLength_append]
      rfl
    · refine ⟨[], ⟨.mark, String.ofList [';'], byteLength g, byteLength g + byteLength [';'],
        comments.reverse⟩ :: tokens, fun back => ?_⟩
      rw [List.append_assoc, List.singleton_append, same,
        readTokens_token (by decide) (scan_semicolon back), byteLength_append]
      rfl
  have own := same []
  rw [List.append_nil, readTokens] at own
  intro back _
  rw [same, readTokens_eq, readAfter, own, List.reverse_reverse]

end MonoTap.Java
