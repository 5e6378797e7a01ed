import MonoTap.Proofs.TextSeams

/-!
# Noted comments

The comments in the tree of a text without faults are those that are read between its tokens, in their
order. So a text that is cut where it may be cut has the comments of its two parts, and the declaration of
an import between the parts adds none.
-/

set_option autoImplicit false

namespace MonoTap.Java

variable {c n m : Node} {ns ms : List Node} {k : Kind} {t : Token} {ts : List Token}
  {cs front back text inserted : List Char} {comments : List Node} {offset : Nat} {name : String}

/-! ### Comments in a tree -/

/-- The comments inside some nodes, in their order. -/
def commentsIn (ns : List Node) : List Node :=
  (Node.preorderAll ns).filter Node.isComment

theorem commentsIn_cons (n : Node) (ns : List Node) :
    commentsIn (n :: ns) = (if n.isComment then [n] else []) ++ commentsIn n.children ++ commentsIn ns := by
  rw [commentsIn, Node.preorderAll, Node.preorder_eq, List.filter_append, List.filter_cons]
  split <;> rfl

theorem commentsIn_append (ns ms : List Node) : commentsIn (ns ++ ms) = commentsIn ns ++ commentsIn ms := by
  induction ns with
  | nil => rfl
  | cons n ns ih => rw [List.cons_append, commentsIn_cons, ih, commentsIn_cons, List.append_assoc _ _ (commentsIn ms)]

/-- Comments that hold nothing. -/
theorem commentsIn_of_comments (h : ∀ n ∈ ns, n.isComment = true ∧ n.children = []) : commentsIn ns = ns := by
  induction ns with
  | nil => rfl
  | cons n ns ih =>
    obtain ⟨⟨comment, leaf⟩, others⟩ := List.forall_mem_cons.1 h
    rw [commentsIn_cons, comment, leaf, ih others]
    rfl

theorem commentsIn_wrap (plain : k.isComment = false) (ns : List Node) :
    commentsIn (Node.wrap k ns) = commentsIn ns := by
  rcases Node.wrap_cases k ns with ⟨_, same⟩ | ⟨outside, first, others, last, rfl, _, _, _, same⟩
  · rw [same]
  · have around : (Node.mk (.kind k) none first.start last.stop (first :: others)).isComment = false := plain
    rw [same, commentsIn_append, commentsIn_append, commentsIn_cons, around]
    exact congrArg (commentsIn outside ++ ·) (List.append_nil _)

theorem commentsIn_assign (part : Role) (ns : List Node) : commentsIn (Node.assign part ns) = commentsIn ns := by
  induction ns with
  | nil => rfl
  | cons n ns ih =>
    have same : (if n.isExtra then n else n.withRole part).isComment = n.isComment ∧
        (if n.isExtra then n else n.withRole part).children = n.children := by
      split
      · exact ⟨rfl, rfl⟩
      · cases n
        exact ⟨rfl, rfl⟩
    rw [Node.assign, List.map_cons, commentsIn_cons, same.1, same.2, ← Node.assign, ih, commentsIn_cons]
    cases comment : n.isComment with
    | true => rw [if_pos rfl, if_pos rfl, Node.isExtra, comment, Bool.true_or, if_pos rfl]
    | false => rfl

theorem commentsIn_toNodes {label : Label} (noted : ∀ m ∈ t.extras, m.isComment = true ∧ m.children = [])
    (plain : ∀ k, label = .kind k → k.isExtra = false) : commentsIn (t.toNodes label) = t.extras := by
  have own : (Node.mk (if t.kind == .missing then .kind .missing else label) none t.start t.stop []).isComment =
      false := by
    split
    · rfl
    · cases label with
      | token word => rfl
      | kind k =>
        have other := plain k rfl
        rw [Kind.isExtra, Bool.or_eq_false_iff] at other
        exact other.1
  rw [Token.toNodes, commentsIn_append, commentsIn_of_comments noted, commentsIn_cons, own]
  exact List.append_nil _

/-- The comments of the left part of a chain, if it is used first of all. -/
def LeftUse.given (use : LeftUse) (ns : List Node) : List Node :=
  if use = .first then ns else []

namespace Rule

variable {S : Type} {grammar : S → Rule S} {rule : Rule S} {op nodes : List Node}

/-- The comments in what a derivation gives are those of the left part of the chain around it, if that is
used, and then those before its tokens. -/
theorem Derives.commentsIn_eq (closed : ∀ s, (grammar s).leftUse = .never)
    (tidies : ∀ s, (grammar s).isTidy = true) (h : Derives grammar rule op ts nodes)
    (tidy : rule.isTidy = true) (used : rule.leftUse ≠ .astray) (proper : ∀ t ∈ ts, t.Proper)
    (noted : ∀ t ∈ ts, ∀ m ∈ t.extras, m.isComment = true) :
    commentsIn nodes = rule.leftUse.given (commentsIn op) ++ ts.flatMap Token.extras := by
  have single {t : Token} {label : Label} (proper : t.Proper) (noted : ∀ m ∈ t.extras, m.isComment = true)
      (plain : ∀ k, label = .kind k → k.isExtra = false) :
      commentsIn (t.toNodes label) = [] ++ [t].flatMap Token.extras := by
    rw [commentsIn_toNodes (fun m hm => ⟨noted m hm, (proper.loose m hm).children⟩) plain, List.nil_append,
      List.flatMap_singleton]
  induction h with
  | empty | «unless» => rfl
  | left => exact (List.append_nil _).symm
  | token reads => exact single (proper _ List.mem_cons_self) (noted _ List.mem_cons_self) fun k same => by cases same
  | @glued op text next texts t ts stop reads more =>
    have bare {start stop : Nat} {texts : List String} {ts : List Token} (h : Adjacent start texts ts stop) :
        ts.flatMap Token.extras = [] := by
      induction h with
      | nil => rfl
      | cons _ bare _ _ ih => rw [List.flatMap_cons, bare, ih, List.nil_append]
    have own : ∀ m ∈ t.extras, m.isComment = true ∧ m.children = [] := fun m hm =>
      ⟨noted t List.mem_cons_self m hm, ((proper t List.mem_cons_self).loose m hm).children⟩
    rw [commentsIn_append, commentsIn_of_comments own, List.flatMap_cons, bare more]
    rfl
  | leaf reads => exact single (proper _ List.mem_cons_self) (noted _ List.mem_cons_self) (plain_of_tidy tidy)
  | name isName => exact single (proper _ List.mem_cons_self) (noted _ List.mem_cons_self) (plain_of_tidy tidy)
  | literal is =>
    exact single (proper _ List.mem_cons_self) (noted _ List.mem_cons_self)
      (plain_of_literalLabel (proper _ List.mem_cons_self) is)
  | @ref op nodes s ts inner ih =>
    have never := closed s
    rw [ih (tidies s) (by rw [never]; decide) proper noted, never]
    rfl
  | @seq a b op first second ts us left right ihLeft ihRight =>
    rw [isTidy, Bool.and_eq_true] at tidy
    rw [List.forall_mem_append] at proper noted
    rw [leftUse] at used ⊢
    cases use : b.leftUse with
    | first | astray =>
      rw [use] at used
      exact (used rfl).elim
    | never =>
      rw [use] at used ihRight
      rw [commentsIn_append, ihLeft tidy.1 used proper.1 noted.1, ihRight tidy.2 (by decide) proper.2 noted.2,
        List.flatMap_append, List.append_assoc]
      rfl
  | @altLeft a b op nodes ts left ih =>
    rw [isTidy, Bool.and_eq_true] at tidy
    rw [leftUse] at used ⊢
    split at used
    · rw [if_pos ‹_›]
      exact ih tidy.1 used proper noted
    · exact (used rfl).elim
  | @altRight a b op nodes ts right ih =>
    rw [isTidy, Bool.and_eq_true] at tidy
    rw [leftUse] at used ⊢
    split at used
    · rename_i same
      rw [if_pos same, same]
      exact ih tidy.2 (same ▸ used) proper noted
    · exact (used rfl).elim
  | @manyNil r op =>
    rw [leftUse]
    split <;> rfl
  | @manyCons r op first others ts us head tail ihHead ihTail =>
    rw [List.forall_mem_append] at proper noted
    have rest := ihTail tidy used proper.2 noted.2
    rw [leftUse] at used rest ⊢
    split at used
    · rename_i never
      rw [if_pos never] at rest ⊢
      rw [commentsIn_append, ihHead tidy (by rw [never]; decide) proper.1 noted.1, rest, never,
        List.flatMap_append]
      rfl
    · exact (used rfl).elim
  | @node r k op nodes ts inner ih =>
    rw [isTidy, Bool.and_eq_true, Bool.not_eq_true', Kind.isExtra, Bool.or_eq_false_iff] at tidy
    rw [commentsIn_wrap tidy.1.1]
    exact ih tidy.2 used proper noted
  | @field r part op nodes ts inner ih =>
    rw [commentsIn_assign]
    exact ih tidy used proper noted
  | @chainBase base suffix op nodes ts inner ih =>
    rw [isTidy, Bool.and_eq_true] at tidy
    rw [leftUse] at used ⊢
    cases use : suffix.leftUse with
    | never | astray =>
      rw [use] at used
      exact (used rfl).elim
    | first =>
      rw [use] at used
      exact ih tidy.1 used proper noted
  | @chainMore base suffix op nodes longer result ts us vs inner step more ihInner ihStep ihMore =>
    rw [isTidy, Bool.and_eq_true] at tidy
    rw [List.forall_mem_append, List.forall_mem_append] at proper noted
    have further := ihMore (by rw [isTidy, tidy.2]; rfl)
    rw [leftUse] at used further ⊢
    cases use : suffix.leftUse with
    | never | astray =>
      rw [use] at used
      exact (used rfl).elim
    | first =>
      rw [use] at used further ihStep
      -- each part of the chain has the comments of the one before it and its own
      have base := ihInner tidy.1 used proper.1 noted.1
      have longer := ihStep tidy.2 (by decide) proper.2.1 noted.2.1
      have whole := further (fun astray => by cases astray) proper.2.2 noted.2.2
      rw [whole, LeftUse.given, leftUse, if_pos rfl, longer, LeftUse.given, if_pos rfl, base,
        List.flatMap_append, List.flatMap_append, List.append_assoc, List.append_assoc]

end Rule

/-! ### Comments between tokens -/

/-- The comments that are read with some tokens, in their order. -/
def TokenList.notes (l : TokenList) : List Node :=
  l.tokens.flatMap Token.extras ++ l.trailing

/-- The texts of some nodes. -/
def textsOf (cs : List Char) (ns : List Node) : List String :=
  ns.map (Node.text (sourceOf cs))

/-- The comments in the tree of a text without faults are those between its tokens. -/
theorem commentsIn_parse (clean : (parse text).hasError = false) :
    commentsIn (parse text).children = (TokenList.ofChars text).notes := by
  obtain ⟨nodes, complete, same⟩ := exists_complete clean
  obtain ⟨⟨mid, placed, _⟩, loose⟩ := stands_ofChars text
  have comments := isComment_notes_ofChars text
  have inside := (derives_of_complete complete).commentsIn_eq isRegularGrammar_ruleOf.closed isTidy_ruleOf
    (by decide +kernel) (by decide +kernel) placed.proper fun t ht m hm => comments m (.inr ⟨t, ht, hm⟩)
  have after : commentsIn (TokenList.ofChars text).trailing = (TokenList.ofChars text).trailing :=
    commentsIn_of_comments fun m hm => ⟨comments m (.inl hm), (loose m hm).children⟩
  rw [same]
  show commentsIn (nodes ++ (TokenList.ofChars text).trailing) = _
  rw [commentsIn_append, inside, after]
  rfl

theorem notes_append (ts : List Token) (l : TokenList) :
    TokenList.notes ⟨ts ++ l.tokens, l.trailing⟩ = ts.flatMap Token.extras ++ l.notes := by
  rw [TokenList.notes, List.flatMap_append, List.append_assoc, TokenList.notes]

/-- Comments that have been read before come first. -/
theorem notes_readTokens_of_comments (offset : Nat) (comments : List Node) (cs : List Char) :
    (readTokens offset comments [] cs).notes = comments.reverse ++ (readTokens offset [] [] cs).notes := by
  induction length : cs.length using Nat.strong_induction_on generalizing cs offset comments with
  | _ size ih =>
    cases cs with
    | nil =>
      rw [readTokens, readTokens]
      exact (List.append_nil _).symm
    | cons c cs =>
      rw [List.length_cons] at length
      cases space : isSpace c with
      | true =>
        rw [readTokens_space space, readTokens_space space]
        exact ih cs.length (by omega) _ _ _ rfl
      | false =>
        have shorter (n : Nat) : (cs.drop n).length < size := by
          rw [List.length_drop]
          omega
        cases found : scan c cs with
        | mk lexeme n =>
          cases lexeme with
          | comment k =>
            rw [readTokens_comment space found, readTokens_comment space found, ih _ (shorter n) _ _ _ rfl,
              ih _ (shorter n) _ [_] _ rfl, List.reverse_cons, List.append_assoc]
            rfl
          | token k =>
            have step (comments : List Node) : (readTokens offset comments [] (c :: cs)).notes = comments.reverse ++
                (readTokens (offset + byteLength (c :: cs.take n)) [] [] (cs.drop n)).notes := by
              rw [readTokens_token space found, readTokens_eq, notes_append, List.reverse_singleton,
                List.flatMap_singleton]
            rw [step, step]
            rfl

/-! ### Comments after a place -/

/-- Everything stands further on. -/
def Relocation.ahead (width : Nat) : Relocation :=
  { Relocation.still with
    start := (· + width)
    stop := (· + width) }

/-- What is read further on in a text. -/
theorem readTokens_ahead (place : Nat) (cs : List Char) :
    readTokens place [] [] cs = (readTokens 0 [] [] cs).relocate (.ahead place) := by
  have alike : Relocation.still.Alike (.ahead place) place 0 (byteLength cs) := by
    refine ⟨fun d _ => ?_, fun d _ _ => ?_, fun _ _ _ _ _ => rfl⟩
    · show place + d = 0 + d + place
      omega
    · show place + d = 0 + d + place
      omega
  have read : (readTokens place [] [] cs).relocate .still = (readTokens 0 [] [] cs).relocate (.ahead place) :=
    readTokens_relocate alike rfl rfl
  rwa [TokenList.relocate_still] at read

theorem notes_relocate_ahead (place : Nat) (l : TokenList) :
    (l.relocate (.ahead place)).notes = l.notes.map (Node.relocate (.ahead place)) := by
  have each (ns : List Node) : Node.relocateAll (.ahead place) ns = ns.map (Node.relocate (.ahead place)) :=
    Node.relocateAll_of_kept fun _ _ => rfl
  rw [TokenList.notes, TokenList.relocate, TokenList.notes, List.map_append, List.flatMap_map, List.map_flatMap,
    ← each]
  refine congrArg (· ++ _) (List.flatMap_congr fun t _ => ?_)
  exact each t.extras

/-- The comments after a place have the texts that they have on their own. -/
theorem textsOf_notes_readTokens (front back : List Char) :
    textsOf (front ++ back) (readTokens (byteLength front) [] [] back).notes =
      textsOf back (readTokens 0 [] [] back).notes := by
  rw [readTokens_ahead, notes_relocate_ahead, textsOf, List.map_map, textsOf]
  refine List.map_congr_left fun m _ => ?_
  have moved := textOf_back (Nat.le_add_left (byteLength front) m.start) (m.stop + byteLength front) back
  rw [Nat.add_sub_cancel, Nat.add_sub_cancel] at moved
  rw [Function.comp_apply, Node.text, Node.start_relocate, Node.stop_relocate]
  exact moved

/-! ### The comments of a text -/

/-- The texts of the comments of a text, in their order. -/
def commentTexts (cs : List Char) : List String :=
  textsOf cs (TokenList.ofChars cs).notes

/-- The comments before a place have the texts that they have on their own. -/
theorem textsOf_notes_front (front back : List Char) :
    textsOf (front ++ back) (TokenList.ofChars front).notes = commentTexts front := by
  obtain ⟨⟨mid, placed, trailing⟩, _⟩ := stands_ofChars front
  refine List.map_congr_left fun m hm => ?_
  rw [Node.text, Node.text]
  refine textOf_front ?_ back
  rw [byteLength_eq]
  rcases List.mem_append.1 hm with hm | hm
  · obtain ⟨t, ht, hm⟩ := List.mem_flatMap.1 hm
    obtain ⟨_, wide, last, _, extras⟩ := placed.of_mem ht
    have := (extras.of_mem hm).2.2.2
    have := trailing.le
    omega
  · exact (trailing.of_mem hm).2.2.2

/-- A text that may be cut has the comments of its two parts. -/
theorem commentTexts_append (opens : Opens front) (unmarked : front = [] → isMarked back = false) :
    commentTexts (front ++ back) = commentTexts front ++ textsOf back (readTokens 0 [] [] back).notes := by
  rw [commentTexts, opens back unmarked, notes_append, readAfter, notes_readTokens_of_comments,
    List.reverse_reverse, ← List.append_assoc, ← TokenList.notes, textsOf, List.map_append, ← textsOf, ← textsOf,
    textsOf_notes_front, textsOf_notes_readTokens]

/-- The declaration of an import has no comments. -/
theorem IsImportOf.textsOf_notes (i : IsImportOf name inserted) (back : List Char) :
    textsOf (inserted ++ back) (readTokens 0 [] [] (inserted ++ back)).notes =
      textsOf back (readTokens 0 [] [] back).notes := by
  obtain ⟨place, part, parts, _, _, read, _⟩ := i.exists_tokens
  have bare (offset : Nat) (parts : List (List Char)) : (dottedTokens offset parts).flatMap Token.extras = [] := by
    induction parts generalizing offset with
    | nil => rfl
    | cons part parts ih =>
      rw [dottedTokens, List.flatMap_cons, List.flatMap_cons, ih]
      rfl
  have none : (importTokens (0 + place) [] part parts).flatMap Token.extras = [] := by
    rw [importTokens, List.flatMap_cons, List.flatMap_cons, List.flatMap_append, bare]
    rfl
  rw [read, notes_append, List.reverse_nil, none, List.nil_append, Nat.zero_add]
  exact textsOf_notes_readTokens inserted back

/-- The declaration of an import that is put in where a text may be cut leaves the comments as they are. -/
theorem commentTexts_put (opens : Opens front) (unmarked : front = [] → isMarked back = false)
    (i : IsImportOf name inserted) : commentTexts (front ++ (inserted ++ back)) = commentTexts (front ++ back) := by
  rw [commentTexts_append opens fun _ => i.unmarked back, i.textsOf_notes, commentTexts_append opens unmarked]

/-- The texts of the comments of a unit, in their order. -/
def CompilationUnit.commentTexts (u : CompilationUnit) : List String :=
  (commentsIn u.root.children).map (Node.text u.source)

theorem commentTexts_ofString {text : String} (clean : (CompilationUnit.ofString text).hasSyntaxErrors = false) :
    (CompilationUnit.ofString text).commentTexts = Java.commentTexts text.toList := by
  have same : commentsIn (CompilationUnit.ofString text).root.children = (TokenList.ofChars text.toList).notes :=
    commentsIn_parse clean
  rw [CompilationUnit.commentTexts, same, show (CompilationUnit.ofString text).source = .ofString text from rfl,
    ofString_eq_sourceOf]
  rfl

end MonoTap.Java
