import MonoTap.Proofs.Lexemes
import MonoTap.Proofs.Relocation
import MonoTap.Proofs.Repairs

/-!
# Inserted comments

A block comment that is put between two tokens, and not between two marks that are read as one, leaves the
tree as it is: all other nodes are moved by its length, and it is a comment among them.
-/

set_option autoImplicit false

namespace MonoTap.Java

open Text (encodeChars)

/-! ### Lexemes -/

/-- The lexemes of a text, each with its characters. -/
def lexemes : List Char → List (Lexeme × List Char)
  | [] => []
  | c :: cs =>
    if isSpace c then lexemes cs
    else ((scan c cs).1, c :: cs.take (scan c cs).2) :: lexemes (cs.drop (scan c cs).2)
termination_by cs => cs.length
decreasing_by all_goals simp_wf; try omega

/-- The lexemes of a text, where a byte order mark at the beginning is none. -/
def lexemesOf : List Char → List (Lexeme × List Char)
  | [] => []
  | c :: cs => if c.toNat == 0xFEFF then lexemes cs else lexemes (c :: cs)

/-- Whether a block comment is a lexeme of its own between two parts of a text. -/
structure Parts (front comment back : List Char) : Prop where
  without : lexemesOf (front ++ back) = lexemesOf front ++ lexemes back
  within : lexemesOf (front ++ comment ++ back) =
    lexemesOf front ++ (.comment .blockComment, comment) :: lexemes back

variable {c : Char} {cs front back comment rest : List Char} {more : List (Lexeme × List Char)}
  {offset n : Nat} {comments : List Node} {tokens : List Token} {k : Kind}

theorem lexemes_space (space : isSpace c = true) (cs : List Char) : lexemes (c :: cs) = lexemes cs := by
  rw [lexemes, if_pos space]

theorem lexemes_cons (solid : isSpace c = false) (cs : List Char) :
    lexemes (c :: cs) = ((scan c cs).1, c :: cs.take (scan c cs).2) :: lexemes (cs.drop (scan c cs).2) := by
  rw [lexemes, if_neg (Bool.eq_false_iff.1 solid)]

/-- A lexeme does not begin with a blank. -/
theorem exists_of_mem_lexemes {lexeme : Lexeme × List Char} (h : lexeme ∈ lexemes rest) :
    ∃ c cs, lexeme.2 = c :: cs ∧ isSpace c = false := by
  fun_induction lexemes rest with
  | case1 => cases h
  | case2 c cs space ih => exact ih h
  | case3 c cs space ih =>
    rcases List.mem_cons.1 h with rfl | h
    · exact ⟨c, _, rfl, Bool.eq_false_iff.2 space⟩
    · exact ih h

theorem readTokens_space (space : isSpace c = true) (cs : List Char) :
    readTokens offset comments tokens (c :: cs) =
      readTokens (offset + c.utf8Size) comments tokens cs := by
  rw [readTokens, if_pos space]

theorem readTokens_comment (solid : isSpace c = false) (found : scan c cs = (.comment k, n)) :
    readTokens offset comments tokens (c :: cs) =
      readTokens (offset + byteLength (c :: cs.take n))
        (.mk (.kind k) none offset (offset + byteLength (c :: cs.take n)) [] :: comments) tokens
        (cs.drop n) := by
  rw [readTokens, if_neg (Bool.eq_false_iff.1 solid)]
  simp only [found]

theorem readTokens_token {k : TokenKind} (solid : isSpace c = false)
    (found : scan c cs = (.token k, n)) :
    readTokens offset comments tokens (c :: cs) =
      readTokens (offset + byteLength (c :: cs.take n)) []
        (⟨k, String.ofList (c :: cs.take n), offset, offset + byteLength (c :: cs.take n),
          comments.reverse⟩ :: tokens) (cs.drop n) := by
  rw [readTokens, if_neg (Bool.eq_false_iff.1 solid)]
  simp only [found]

/-- Where the lexemes of a text are those of its two parts, its first lexeme is that of the first
part. -/
theorem scan_append (solid : isSpace c = false)
    (split : lexemes (c :: cs ++ rest) = lexemes (c :: cs) ++ more) :
    ∃ n, scan c (cs ++ rest) = ((scan c cs).1, n) ∧ (cs ++ rest).take n = cs.take (scan c cs).2 ∧
      (cs ++ rest).drop n = cs.drop (scan c cs).2 ++ rest ∧
      lexemes (cs.drop (scan c cs).2 ++ rest) = lexemes (cs.drop (scan c cs).2) ++ more := by
  rw [List.cons_append, lexemes_cons solid, lexemes_cons solid, List.cons_append, List.cons.injEq,
    Prod.mk.injEq, List.cons.injEq] at split
  obtain ⟨⟨kind, _, taken⟩, further⟩ := split
  have left : (cs ++ rest).drop (scan c (cs ++ rest)).2 = cs.drop (scan c cs).2 ++ rest := by
    have whole : (cs ++ rest).take (scan c (cs ++ rest)).2 ++ (cs ++ rest).drop (scan c (cs ++ rest)).2 =
        cs.take (scan c cs).2 ++ (cs.drop (scan c cs).2 ++ rest) := by
      rw [List.take_append_drop, ← List.append_assoc, List.take_append_drop]
    rw [taken] at whole
    exact List.append_cancel_left whole
  exact ⟨(scan c (cs ++ rest)).2, by rw [← kind], taken, left, left ▸ further⟩

theorem byteLength_append (cs ds : List Char) : byteLength (cs ++ ds) = byteLength cs + byteLength ds := by
  rw [byteLength_eq, byteLength_eq, byteLength_eq, Text.encodeChars_append, List.length_append]

theorem byteLength_cons (c : Char) (cs : List Char) :
    byteLength (c :: cs) = c.utf8Size + byteLength cs := by
  rw [← List.singleton_append, byteLength_append, byteLength, List.foldl_cons, List.foldl_nil,
    Nat.zero_add]

/-- Reading a text whose lexemes are those of its two parts is reading the one part and then the
other. -/
theorem readTokens_append (split : lexemes (front ++ rest) = lexemes front ++ more) :
    lexemes rest = more ∧ readTokens offset comments tokens (front ++ rest) =
      readTokens (offset + byteLength front) (readTokens offset comments tokens front).trailing.reverse
        (readTokens offset comments tokens front).tokens.reverse rest := by
  fun_induction readTokens offset comments tokens front with
  | case1 offset comments tokens =>
    rw [lexemes] at split
    exact ⟨split, by rw [List.reverse_reverse, List.reverse_reverse]; rfl⟩
  | case2 offset comments tokens c cs space ih =>
    rw [List.cons_append, lexemes_space space, lexemes_space space] at split
    obtain ⟨same, further⟩ := ih split
    refine ⟨same, ?_⟩
    rw [List.cons_append, readTokens_space space, further, byteLength_cons, Nat.add_assoc]
  | case3 =>
    rename_i offset comments tokens c cs space n taken stop k found ih
    have solid := Bool.eq_false_iff.2 space
    obtain ⟨m, scanned, head, left, tail⟩ := scan_append solid split
    rw [found] at scanned head left tail
    obtain ⟨same, further⟩ := ih tail
    refine ⟨same, ?_⟩
    rw [List.cons_append, readTokens_comment solid scanned, head, left, further, Nat.add_assoc,
      ← byteLength_append, List.cons_append, List.take_append_drop]
  | case4 =>
    rename_i offset comments tokens c cs space n taken stop k found ih
    have solid := Bool.eq_false_iff.2 space
    obtain ⟨m, scanned, head, left, tail⟩ := scan_append solid split
    rw [found] at scanned head left tail
    rw [List.unattach_reverse, List.unattach_attach] at ih
    obtain ⟨same, further⟩ := ih tail
    refine ⟨same, ?_⟩
    rw [List.cons_append, readTokens_token solid scanned, head, left, further, Nat.add_assoc,
      ← byteLength_append, List.cons_append, List.take_append_drop]

theorem ofChars_append (nonempty : front ≠ [])
    (split : lexemesOf (front ++ rest) = lexemesOf front ++ more) :
    lexemes rest = more ∧ TokenList.ofChars (front ++ rest) =
      readTokens (byteLength front) (TokenList.ofChars front).trailing.reverse
        (TokenList.ofChars front).tokens.reverse rest := by
  cases front with
  | nil => exact (nonempty rfl).elim
  | cons c cs =>
    rw [List.cons_append, lexemesOf, lexemesOf] at split
    rw [List.cons_append, TokenList.ofChars, TokenList.ofChars]
    split
    · rename_i mark
      rw [if_pos mark, if_pos mark] at split
      rw [byteLength_cons]
      exact readTokens_append split
    · rename_i plain
      rw [if_neg plain, if_neg plain, ← List.cons_append] at split
      have read := @readTokens_append (c :: cs) rest more 0 [] [] split
      rwa [Nat.zero_add] at read

/-- What a comment that is a lexeme of its own is read as. -/
theorem readTokens_of_comment (own : lexemes (comment ++ rest) = (.comment k, comment) :: lexemes rest) :
    readTokens offset comments tokens (comment ++ rest) =
      readTokens (offset + byteLength comment)
        (.mk (.kind k) none offset (offset + byteLength comment) [] :: comments) tokens rest := by
  obtain ⟨c, cs, rfl, solid⟩ := exists_of_mem_lexemes (own ▸ List.mem_cons_self)
  rw [List.cons_append, lexemes_cons solid, List.cons.injEq, Prod.mk.injEq, List.cons.injEq] at own
  obtain ⟨⟨kind, _, taken⟩, _⟩ := own
  have scanned : scan c (cs ++ rest) = (.comment k, (scan c (cs ++ rest)).2) := by rw [← kind]
  have left : (cs ++ rest).drop (scan c (cs ++ rest)).2 = rest := by
    have whole := List.take_append_drop (scan c (cs ++ rest)).2 (cs ++ rest)
    rw [taken] at whole
    exact List.append_cancel_left whole
  rw [List.cons_append, readTokens_comment solid scanned, taken, left]

/-! ### Alike relocations -/

/-- The tokens at their new places, without the comments that are left out. -/
def TokenList.relocate (e : Relocation) (l : TokenList) : TokenList :=
  ⟨l.tokens.map (Token.relocate e), Node.relocateAll e l.trailing⟩

/-- Whether two relocations do the same to equal texts of some width, one from each of two offsets on. -/
structure Relocation.Alike (e f : Relocation) (o p width : Nat) : Prop where
  start : ∀ d < width, e.start (o + d) = f.start (p + d)
  stop : ∀ d, 0 < d → d ≤ width → e.stop (o + d) = f.stop (p + d)
  drops : ∀ d < width, ∀ k stop stop',
    e.drops (.mk (.kind k) none (o + d) stop []) = f.drops (.mk (.kind k) none (p + d) stop' [])

variable {e f : Relocation} {p : Nat}

theorem Relocation.Alike.advance {a width : Nat} (h : e.Alike f offset p (a + width)) :
    e.Alike f (offset + a) (p + a) width where
  start d hd := by
    rw [Nat.add_assoc, Nat.add_assoc]
    exact h.start (a + d) (by omega)
  stop d some hd := by
    rw [Nat.add_assoc, Nat.add_assoc]
    exact h.stop (a + d) (by omega) (by omega)
  drops d hd k stop stop' := by
    rw [Nat.add_assoc, Nat.add_assoc]
    exact h.drops (a + d) (by omega) k stop stop'

theorem Node.relocateAll_reverse (e : Relocation) (ns : List Node) :
    relocateAll e ns.reverse = (relocateAll e ns).reverse := by
  rw [relocateAll_eq, relocateAll_eq, List.filter_reverse, List.map_reverse]

theorem byteLength_pos (c : Char) (cs : List Char) : 0 < byteLength (c :: cs) := by
  rw [byteLength_cons]
  have := c.utf8Size_pos
  omega

/-- Equal texts are read as the same tokens, under alike relocations. -/
theorem readTokens_relocate {comments' : List Node} {tokens' : List Token}
    (alike : e.Alike f offset p (byteLength cs))
    (sameComments : Node.relocateAll e comments = Node.relocateAll f comments')
    (sameTokens : tokens.map (Token.relocate e) = tokens'.map (Token.relocate f)) :
    (readTokens offset comments tokens cs).relocate e = (readTokens p comments' tokens' cs).relocate f := by
  fun_induction readTokens offset comments tokens cs generalizing p comments' tokens' with
  | case1 offset comments tokens =>
    rw [readTokens, TokenList.relocate, TokenList.relocate, List.map_reverse, List.map_reverse,
      Node.relocateAll_reverse, Node.relocateAll_reverse, sameComments, sameTokens]
  | case2 offset comments tokens c cs space ih =>
    rw [byteLength_cons] at alike
    rw [readTokens_space space]
    exact ih alike.advance sameComments sameTokens
  | case3 =>
    rename_i offset comments tokens c cs space n taken stop k found ih
    have width : byteLength (c :: cs) = byteLength (c :: cs.take n) + byteLength (cs.drop n) := by
      rw [← byteLength_append, List.cons_append, List.take_append_drop]
    rw [width] at alike
    rw [readTokens_comment (Bool.eq_false_iff.2 space) found]
    refine ih alike.advance ?_ sameTokens
    have positive := byteLength_pos c (cs.take n)
    have start := alike.start 0 (by omega)
    have stops := alike.stop (byteLength (c :: cs.take n)) positive (by omega)
    have drops := alike.drops 0 (by omega) k stop (p + byteLength (c :: cs.take n))
    rw [Nat.add_zero, Nat.add_zero] at start drops
    rw [Node.relocateAll, Node.relocateAll, sameComments, drops, Node.relocate, Node.relocate, start,
      show e.stop stop = _ from stops]
    rfl
  | case4 =>
    rename_i offset comments tokens c cs space n taken stop k found ih
    rw [List.unattach_reverse, List.unattach_attach] at ih
    have width : byteLength (c :: cs) = byteLength (c :: cs.take n) + byteLength (cs.drop n) := by
      rw [← byteLength_append, List.cons_append, List.take_append_drop]
    rw [width] at alike
    rw [readTokens_token (Bool.eq_false_iff.2 space) found]
    refine ih alike.advance rfl ?_
    have positive := byteLength_pos c (cs.take n)
    have start := alike.start 0 (by omega)
    have stops := alike.stop (byteLength (c :: cs.take n)) positive (by omega)
    rw [Nat.add_zero, Nat.add_zero] at start
    rw [List.map_cons, List.map_cons, sameTokens, Token.relocate, Token.relocate, start,
      show e.stop stop = _ from stops, Node.relocateAll_reverse, Node.relocateAll_reverse, sameComments]

theorem ofChars_relocate (alike : e.Alike f 0 0 (byteLength cs)) :
    (TokenList.ofChars cs).relocate e = (TokenList.ofChars cs).relocate f := by
  cases cs with
  | nil => rfl
  | cons c cs =>
    rw [TokenList.ofChars]
    split
    · rw [byteLength_cons] at alike
      have further := alike.advance
      rw [Nat.zero_add] at further
      exact readTokens_relocate further rfl rfl
    · exact readTokens_relocate alike rfl rfl

/-! ### A comment between two tokens -/

/-- Where everything goes if some bytes are put in at a place. -/
def Relocation.widening (place width : Nat) : Relocation :=
  { Relocation.still with
    start := fun o => if o < place then o else o + width
    stop := fun o => if o ≤ place then o else o + width }

section

variable {place width o : Nat}

theorem Relocation.start_widening_of_lt (h : o < place) : (widening place width).start o = o :=
  if_pos h

theorem Relocation.start_widening_of_le (h : place ≤ o) : (widening place width).start o = o + width :=
  if_neg (Nat.not_lt.2 h)

theorem Relocation.stop_widening_of_le (h : o ≤ place) : (widening place width).stop o = o :=
  if_pos h

theorem Relocation.stop_widening_of_lt (h : place < o) : (widening place width).stop o = o + width :=
  if_neg (Nat.not_le.2 h)

end

/-- Everything but the comment at a place. -/
def Relocation.omitting (place : Nat) : Relocation where
  drops n := n.isComment && n.start == place
  start := id
  stop := id
  comment _ dropped := (Bool.and_eq_true_iff.1 dropped).1

theorem Parts.width (parts : Parts front comment back) (nonempty : front ≠ []) :
    0 < byteLength comment := by
  obtain ⟨own, _⟩ := ofChars_append nonempty (List.append_assoc front comment back ▸ parts.within)
  obtain ⟨c, cs, rfl, _⟩ := exists_of_mem_lexemes (own ▸ List.mem_cons_self)
  exact byteLength_pos c cs

/-- The tokens of the text with the comment are those of the text, moved by it. -/
theorem Parts.relocate_ofChars (parts : Parts front comment back) (nonempty : front ≠ []) :
    (TokenList.ofChars (front ++ back)).relocate (.widening (byteLength front) (byteLength comment)) =
      (TokenList.ofChars (front ++ comment ++ back)).relocate (.omitting (byteLength front)) := by
  have width := parts.width nonempty
  obtain ⟨_, plain⟩ := ofChars_append nonempty parts.without
  obtain ⟨own, commented⟩ := ofChars_append nonempty (List.append_assoc front comment back ▸ parts.within)
  have before : (TokenList.ofChars front).relocate (.widening (byteLength front) (byteLength comment)) =
      (TokenList.ofChars front).relocate (.omitting (byteLength front)) := by
    refine ofChars_relocate ⟨fun d hd => ?_, fun d _ hd => ?_, fun d hd k stop stop' => ?_⟩
    · exact Relocation.start_widening_of_lt (by omega)
    · exact Relocation.stop_widening_of_le (by omega)
    · have other : (0 + d == byteLength front) = false := beq_eq_false_iff_ne.2 (by omega)
      show false = (_ && (0 + d == byteLength front))
      rw [other, Bool.and_false]
  rw [TokenList.relocate, TokenList.relocate, TokenList.mk.injEq] at before
  obtain ⟨tokens, comments⟩ := before
  rw [plain, List.append_assoc, commented, readTokens_of_comment own]
  refine readTokens_relocate ⟨fun d hd => ?_, fun d some hd => ?_, fun d hd k stop stop' => ?_⟩ ?_ ?_
  · rw [Relocation.start_widening_of_le (by omega)]
    exact Nat.add_right_comm ..
  · rw [Relocation.stop_widening_of_lt (by omega)]
    exact Nat.add_right_comm ..
  · have other : (byteLength front + byteLength comment + d == byteLength front) = false :=
      beq_eq_false_iff_ne.2 (by omega)
    show false = (_ && (byteLength front + byteLength comment + d == byteLength front))
    rw [other, Bool.and_false]
  · have dropped : (Relocation.omitting (byteLength front)).drops (.mk (.kind .blockComment) none
        (byteLength front) (byteLength front + byteLength comment) []) = true := by
      show (true && (byteLength front == byteLength front)) = true
      rw [beq_self_eq_true]
      rfl
    rw [Node.relocateAll, if_pos dropped, Node.relocateAll_reverse, Node.relocateAll_reverse, comments]
  · rw [List.map_reverse, List.map_reverse, tokens]

/-! ### Marks that are read as one -/

theorem Node.hasError_of_comment {n : Node} (comment : n.isComment = true) (leaf : n.children = []) :
    n.hasError = false := by
  rw [← Bool.not_eq_true, Node.hasError_iff]
  rintro (fault | ⟨c, hc, _⟩)
  · obtain ⟨k, known, is⟩ := List.any_eq_true.1 fault
    simp only [List.mem_cons, List.not_mem_nil, or_false] at known
    rw [Node.is, beq_iff_eq] at is
    rw [Node.isComment, is] at comment
    rcases known with rfl | rfl <;> cases comment
  · rw [leaf] at hc
    cases hc

/-- Whether two marks that may be read as one meet at a place. -/
def joinsAt (place : Nat) : List Token → Bool
  | t :: u :: ts =>
    (joinedMarks.contains (t.text, u.text) && t.stop == place && u.start == place) ||
      joinsAt place (u :: ts)
  | _ => false

variable {text : List Char} {t u : Token} {ts : List Token} {lo hi : Nat}

theorem le_of_placed {P : Nat → Nat → Prop} (placed : TokensPlaced P lo (t :: u :: ts) hi) :
    t.stop ≤ u.start := by
  cases placed with
  | cons _ _ _ _ rest =>
    cases rest with
    | cons _ extras _ _ _ => exact extras.le

theorem keeps_widening {P : Nat → Nat → Prop} {place width : Nat} (placed : TokensPlaced P lo ts hi)
    (apart : joinsAt place ts = false) : ts.IsChain (Relocation.widening place width).Keeps := by
  induction ts generalizing lo with
  | nil => exact .nil
  | cons t ts ih =>
    cases ts with
    | nil => exact .singleton t
    | cons u ts =>
      rw [joinsAt, Bool.or_eq_false_iff] at apart
      have order := le_of_placed placed
      cases placed with
      | cons _ _ _ _ rest =>
        refine List.isChain_cons_cons.2 ⟨fun joined => ?_, ih rest apart.2⟩
        have meets := apart.1
        rw [joined, Bool.true_and, Bool.and_eq_false_iff, beq_eq_false_iff_ne, beq_eq_false_iff_ne] at meets
        rw [Token.adheres, Token.adheres, Token.relocate, Token.relocate,
          Node.relocateAll_of_kept fun _ _ => rfl, List.isEmpty_map]
        refine congrArg (· && u.extras.isEmpty) ?_
        rw [Bool.eq_iff_iff, beq_iff_eq, beq_iff_eq]
        show (if u.start < place then u.start else u.start + width) =
          (if t.stop ≤ place then t.stop else t.stop + width) ↔ _
        split <;> split <;> omega

theorem keeps_omitting {place : Nat} (placed : TokensPlaced (Solid text) lo ts hi) :
    ts.IsChain (Relocation.omitting place).Keeps := by
  induction ts generalizing lo with
  | nil => exact .nil
  | cons t ts ih =>
    cases ts with
    | nil => exact .singleton t
    | cons u ts =>
      cases placed with
      | cons _ _ _ _ rest =>
        refine List.isChain_cons_cons.2 ⟨fun _ => ?_, ih rest⟩
        cases rest with
        | cons proper extras _ _ _ =>
          rw [Token.adheres, Token.adheres]
          show (u.start == t.stop && (Node.relocateAll _ u.extras).isEmpty) = _
          cases meets : u.start == t.stop with
          | false => rfl
          | true =>
            rw [eq_of_beq meets] at extras
            have loose := proper.loose
            -- between two tokens that meet there is no room for a comment
            cases between : u.extras with
            | nil => rfl
            | cons n ns =>
              rw [between] at extras loose
              have kept : (Relocation.omitting place).drops n = false := by
                cases dropped : (Relocation.omitting place).drops n with
                | false => rfl
                | true =>
                  have clean := Node.hasError_of_comment ((Relocation.omitting place).comment n dropped)
                    (loose n List.mem_cons_self).children
                  obtain ⟨first, _, spans, last⟩ := extras.of_mem List.mem_cons_self
                  have wide := (spans clean).wide
                  omega
              rw [Node.relocateAll_cons kept]
              rfl

/-! ### Reading relocated tokens -/

theorem isTidy_ruleOf (s : Symbol) : (Grammar.ruleOf s).isTidy = true := by
  cases s <;> decide +kernel

theorem readProgram_relocate (readable : Rule.Readable e ⟨0, ts⟩) :
    readProgram (ts.map (Token.relocate e)) = (readProgram ts).relocate e := by
  unfold readProgram
  rw [List.length_map]
  exact Rule.read_relocate isTidy_ruleOf _ (by decide +kernel) Node.closed_nil readable

theorem complete?_relocate (o : Outcome) :
    (o.relocate e).complete? = o.complete?.map (Node.relocateAll e) := by
  obtain ⟨reach, _ | ⟨nodes, ⟨position, _ | ⟨t, rest⟩⟩⟩⟩ := o <;> rfl

/-- A comment in the tree of a text holds nothing. -/
theorem leaf_of_complete {l : TokenList} {nodes : List Node} (stands : l.Stands text)
    (complete : (readProgram l.tokens).complete? = some nodes) :
    ∀ n ∈ Node.preorderAll (nodes ++ l.trailing), n.isComment = true → n.children = [] := by
  obtain ⟨⟨mid, placed, _⟩, loose⟩ := stands
  have made : Rule.AllMade Grammar.ruleOf JavaRule (nodes ++ l.trailing) := by
    refine .append ?_ (Rule.allMade_of_isLoose loose)
    exact (derives_of_complete complete).allMade isRegularGrammar_ruleOf (fun s k r hr => .inr ⟨s, hr⟩)
      (fun k r hr => .inl hr) placed.proper rfl (.inl rfl) fun n hn => (List.not_mem_nil hn).elim
  intro n hn comment
  obtain ⟨top, htop, inside⟩ := Node.mem_preorderAll.1 hn
  exact ((made top htop n inside).loose (by rw [Node.isExtra, comment, Bool.true_or])).children

/-- The text with the comment is read as the text is, with the nodes moved by the comment. -/
theorem Parts.exists_nodes (parts : Parts front comment back) (nonempty : front ≠ [])
    (clean : (parse (front ++ back)).hasError = false)
    (apart : joinsAt (byteLength front) (TokenList.ofChars (front ++ back)).tokens = false) :
    ∃ ns ms, parse (front ++ back) = rootOver .program ns ∧
      parse (front ++ comment ++ back) = rootOver .program ms ∧
      Node.relocateAll (.widening (byteLength front) (byteLength comment)) ns =
        Node.relocateAll (.omitting (byteLength front)) ms ∧
      ∀ n ∈ Node.preorderAll ms, n.isComment = true → n.children = [] := by
  obtain ⟨nodes, complete, same⟩ := exists_complete clean
  have relocated := parts.relocate_ofChars nonempty
  rw [TokenList.relocate, TokenList.relocate, TokenList.mk.injEq] at relocated
  obtain ⟨tokens, trailing⟩ := relocated
  obtain ⟨⟨mid, placed, _⟩, _⟩ := stands_ofChars (front ++ back)
  obtain ⟨⟨mid', placed', _⟩, _⟩ := stands_ofChars (front ++ comment ++ back)
  have read := readProgram_relocate (e := .widening (byteLength front) (byteLength comment))
    ⟨keeps_widening placed apart, placed.proper⟩
  have read' := readProgram_relocate (e := .omitting (byteLength front))
    ⟨keeps_omitting placed', placed'.proper⟩
  have nodes' := complete?_relocate (e := .omitting (byteLength front))
    (readProgram (TokenList.ofChars (front ++ comment ++ back)).tokens)
  rw [← read', ← tokens, read, complete?_relocate, complete, Option.map_some, eq_comm,
    Option.map_eq_some_iff] at nodes'
  obtain ⟨ms, complete', moved⟩ := nodes'
  refine ⟨_, _, same, parse_of_complete complete', ?_,
    leaf_of_complete (stands_ofChars _) complete'⟩
  rw [Node.relocateAll_append, Node.relocateAll_append, moved, trailing]

/-! ### The tree with the comment -/

section

variable {ns ms : List Node} (same : Node.relocateAll e ns = Node.relocateAll f ms)
  (leaf : ∀ n ∈ Node.preorderAll ns, e.drops n = true → n.children = [])
  (leaf' : ∀ n ∈ Node.preorderAll ms, f.drops n = true → n.children = [])
include same leaf leaf'

/-- In trees that are the same after two relocations, each node of the one has its place in the
other. -/
theorem exists_of_relocateAll {m : Node} (hm : m ∈ Node.preorderAll ms) (kept : f.drops m = false) :
    ∃ n ∈ Node.preorderAll ns, e.drops n = false ∧ n.relocate e = m.relocate f := by
  have moved : m.relocate f ∈ Node.preorderAll (Node.relocateAll e ns) := by
    rw [same, Node.preorderAll_relocateAll ms leaf']
    exact Node.mem_relocateAll.2 ⟨m, hm, kept, rfl⟩
  rw [Node.preorderAll_relocateAll ns leaf] at moved
  exact Node.mem_relocateAll.1 moved

theorem hasFault_of_relocateAll (fault : hasFault ms = true) : hasFault ns = true := by
  have whole (l : List Node) : hasFault l = true ↔
      ∃ n ∈ Node.preorderAll l, n.isAny [.error, .missing] = true := by
    simp only [hasFault, List.any_eq_true, Node.hasError, Node.firstFault?, List.find?_isSome,
      Node.mem_preorderAll]
    constructor
    · rintro ⟨top, htop, n, hn, is⟩
      exact ⟨n, ⟨top, htop, hn⟩, is⟩
    · rintro ⟨n, ⟨top, htop, hn⟩, is⟩
      exact ⟨top, htop, n, hn, is⟩
  obtain ⟨m, hm, is⟩ := (whole ms).1 fault
  have kept : f.drops m = false := by
    cases dropped : f.drops m with
    | false => rfl
    | true =>
      have clean := Node.hasError_of_comment (f.comment m dropped) (leaf' m hm dropped)
      rw [Node.not_isAny_of_hasError clean] at is
      cases is
  obtain ⟨n, hn, _, there⟩ := exists_of_relocateAll same leaf leaf' hm kept
  refine (whole ns).2 ⟨n, hn, ?_⟩
  rw [← Node.isAny_relocate (e := e), there, Node.isAny_relocate, is]

end

theorem start_rootOver {k : Kind} {ns : List Node} {n : Node} (head : ns.head? = some n) :
    (rootOver k ns).start = n.start := by
  show ((ns.head?.map Node.start).getD 0) = _
  rw [head]
  rfl

theorem stop_rootOver {k : Kind} {ns : List Node} {n : Node} (last : ns.getLast? = some n) :
    (rootOver k ns).stop = n.stop := by
  show ((ns.getLast?.map Node.stop).getD _) = _
  rw [last]
  rfl

/-- Where the comment stands neither before nor after all other nodes, the first and the last node are
the same. -/
theorem ends_of_relocateAll {P : Nat → Nat → Prop} {ns ms : List Node} {place width : Nat}
    (placed : Placed P lo ms hi)
    (same : Node.relocateAll (.widening place width) ns = Node.relocateAll (.omitting place) ms)
    {k : Kind} (first : (rootOver k ns).start < place) (last : place < (rootOver k ns).stop) :
    (rootOver k ms).start = (rootOver k ns).start ∧ (rootOver k ms).stop = (rootOver k ns).stop + width := by
  have whole : Node.relocateAll (.widening place width) ns = ns.map (Node.relocate _) :=
    Node.relocateAll_of_kept fun _ _ => rfl
  cases head : ns.head? with
  | none =>
    rw [List.head?_eq_none_iff.1 head] at last
    exact (Nat.not_lt_zero _ last).elim
  | some h =>
    obtain ⟨l, tail⟩ : ∃ l, ns.getLast? = some l := by
      cases tail : ns.getLast? with
      | none =>
        rw [List.getLast?_eq_none_iff.1 tail] at head
        cases head
      | some l => exact ⟨l, rfl⟩
    rw [start_rootOver head] at first
    rw [stop_rootOver tail] at last
    rw [start_rootOver head, stop_rootOver tail]
    -- the nodes that the first and the last one are with the comment
    have stays {n : Node} (hn : n ∈ ns) : ∃ m ∈ ms, (Relocation.omitting place).drops m = false ∧
        m.start = (Relocation.widening place width).start n.start ∧
        m.stop = (Relocation.widening place width).stop n.stop := by
      have moved : n.relocate (.widening place width) ∈ Node.relocateAll (.omitting place) ms := by
        rw [← same, whole]
        exact List.mem_map_of_mem hn
      obtain ⟨m, hm, kept, there⟩ := Node.mem_relocateAll.1 moved
      exact ⟨m, hm, kept,
        (Node.start_relocate m).symm.trans ((congrArg Node.start there).trans (Node.start_relocate n)),
        (Node.stop_relocate m).symm.trans ((congrArg Node.stop there).trans (Node.stop_relocate n))⟩
    have here {m : Node} (dropped : (Relocation.omitting place).drops m = true) : m.start = place :=
      eq_of_beq (Bool.and_eq_true_iff.1 dropped).2
    have firstStart : (Relocation.widening place width).start h.start = h.start :=
      Relocation.start_widening_of_lt first
    have lastStop : (Relocation.widening place width).stop l.stop = l.stop + width :=
      Relocation.stop_widening_of_lt last
    have firstKept : ∀ m, ms.head? = some m → (Relocation.omitting place).drops m = false := by
      intro m isFirst
      rw [← Bool.not_eq_true]
      intro dropped
      obtain ⟨n, hn, _, start, _⟩ := stays (List.mem_of_mem_head? head)
      obtain ⟨others, rfl⟩ := List.head?_eq_some_iff.1 isFirst
      have order := placed.head_le hn
      have := here dropped
      omega
    have lastKept : ∀ m, ms.getLast? = some m → (Relocation.omitting place).drops m = false := by
      intro m isLast
      rw [← Bool.not_eq_true]
      intro dropped
      obtain ⟨n, hn, kept, _, stop⟩ := stays (List.mem_of_getLast? tail)
      obtain ⟨others, rfl⟩ := List.getLast?_eq_some_iff.1 isLast
      obtain ⟨mid, earlier, atLast⟩ := placed.of_append
      have start := (atLast.of_mem List.mem_cons_self).1
      have := here dropped
      rcases List.mem_append.1 hn with hn | hn
      · have order := (earlier.of_mem hn).2.2.2
        omega
      · cases List.mem_singleton.1 hn
        rw [dropped] at kept
        cases kept
    have heads := Node.head?_relocateAll firstKept
    have tails := Node.getLast?_relocateAll lastKept
    rw [← same, whole, List.head?_map, head, Option.map_some, eq_comm, Option.map_eq_some_iff] at heads
    rw [← same, whole, List.getLast?_map, tail, Option.map_some, eq_comm,
      Option.map_eq_some_iff] at tails
    obtain ⟨h', head', thereFirst⟩ := heads
    obtain ⟨l', tail', thereLast⟩ := tails
    have atFirst := congrArg Node.start thereFirst
    have atLast := congrArg Node.stop thereLast
    rw [Node.start_relocate, Node.start_relocate, firstStart] at atFirst
    rw [Node.stop_relocate, Node.stop_relocate, lastStop] at atLast
    exact ⟨(start_rootOver head').trans atFirst, (stop_rootOver tail').trans atLast⟩

/-- Whether a place is inside what a node covers. -/
def Node.covers (place : Nat) (n : Node) : Bool :=
  n.start < place && place < n.stop

theorem Node.covers_iff {place : Nat} {n : Node} : n.covers place = true ↔ n.start < place ∧ place < n.stop := by
  rw [covers, Bool.and_eq_true, decide_eq_true_eq, decide_eq_true_eq]

/-- The tree of a text with a comment put in is the tree of the text, moved by the comment. -/
theorem Parts.parse_relocate (parts : Parts front comment back)
    (clean : (parse (front ++ back)).hasError = false)
    (inside : (parse (front ++ back)).covers (byteLength front) = true)
    (apart : joinsAt (byteLength front) (TokenList.ofChars (front ++ back)).tokens = false) :
    (parse (front ++ comment ++ back)).hasError = false ∧
      (parse (front ++ back)).relocate (.widening (byteLength front) (byteLength comment)) =
        (parse (front ++ comment ++ back)).relocate (.omitting (byteLength front)) := by
  obtain ⟨first, last⟩ := Node.covers_iff.1 inside
  have nonempty : front ≠ [] := by
    rintro rfl
    exact (Nat.not_lt_zero _ first).elim
  obtain ⟨ns, ms, here, there, same, leaf⟩ := parts.exists_nodes nonempty clean apart
  rw [here] at clean first last
  have faultless : (rootOver .program ms).hasError = false := by
    rw [← Bool.not_eq_true]
    intro fault
    have inside : hasFault ms = true := by
      rcases Node.hasError_iff.1 fault with own | ⟨m, hm, fault⟩
      · cases own
      · exact List.any_eq_true.2 ⟨m, hm, fault⟩
    have outside := hasFault_of_relocateAll same (fun n _ dropped => by cases dropped)
      (fun n hn dropped => leaf n hn ((Relocation.omitting _).comment n dropped)) inside
    rw [hasError_rootOver outside] at clean
    cases clean
  rw [there, here]
  refine ⟨faultless, ?_⟩
  have placed : Placed (Solid (front ++ comment ++ back)) 0 ms
      (encodeChars (front ++ comment ++ back)).length := by
    have whole := placed_parse (there ▸ faultless)
    rwa [there] at whole
  obtain ⟨start, stop⟩ := ends_of_relocateAll placed same first last
  have moved (e : Relocation) (ns : List Node) : (rootOver .program ns).relocate e =
      .mk (.kind .program) none (e.start (rootOver .program ns).start)
        (e.stop (rootOver .program ns).stop) (Node.relocateAll e ns) := by
    rw [rootOver, Node.relocate]
    rfl
  rw [moved, moved, same, start, stop, Relocation.start_widening_of_lt first,
    Relocation.stop_widening_of_lt last]
  rfl

end MonoTap.Java
