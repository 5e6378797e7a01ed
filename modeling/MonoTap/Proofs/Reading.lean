import MonoTap.Java.CompilationUnit
import MonoTap.Proofs.Endings
import MonoTap.Proofs.Placement
import MonoTap.Proofs.Utf8

/-!
# The tree of a text

The tokens of a text stand one after the other between its characters, and repairs keep them so. If
a text is Java as it stands, or can be repaired, its tree comes from a derivation over such tokens.
-/

set_option autoImplicit false

namespace MonoTap.Java

open Text (Boundary EndsSolid encodeChars)

/-- Whether two offsets are the ends of some whole characters of a text, at least one. -/
structure Spans (cs : List Char) (start stop : Nat) : Prop where
  first : Boundary 0 cs start
  last : Boundary 0 cs stop
  wide : start < stop

/-- Whether two offsets are the ends of some whole characters of a text of which the last line is not
blank. -/
structure Solid (cs : List Char) (start stop : Nat) : Prop extends Spans cs start stop where
  ends : ∃ front chunk back, cs = front ++ (chunk ++ back) ∧ start ≤ (encodeChars front).length ∧
    stop = (encodeChars front).length + (encodeChars chunk).length ∧ EndsSolid chunk

theorem Solid.widen {cs : List Char} {start start' stop : Nat} (h : Solid cs start stop)
    (first : Boundary 0 cs start') (earlier : start' ≤ start) : Solid cs start' stop := by
  have := h.wide
  obtain ⟨front, chunk, back, split, lower, upper, solid⟩ := h.ends
  exact ⟨⟨first, h.last, by omega⟩, front, chunk, back, split, by omega, upper, solid⟩

theorem joins_solid (cs : List Char) : Joins (Solid cs) :=
  fun _ _ _ _ left right order => right.widen left.first order

/-- The characters between the two offsets have a last line that is not blank. -/
theorem Solid.endsSolid {cs front middle back : List Char} {start stop : Nat}
    (h : Solid cs start stop) (split : cs = front ++ (middle ++ back))
    (first : start = (encodeChars front).length)
    (last : stop = start + (encodeChars middle).length) : EndsSolid middle := by
  obtain ⟨before, chunk, after, apart, lower, upper, solid⟩ := h.ends
  have inside : Boundary 0 (front ++ (middle ++ back)) (encodeChars before).length :=
    ⟨before, chunk ++ after, split ▸ apart, (Nat.zero_add _).symm⟩
  have inside := (inside.of_append (by omega)).of_append_left (by omega)
  obtain ⟨one, two, rfl, here⟩ := inside
  rw [Nat.zero_add] at here
  rw [Text.encodeChars_append, List.length_append] at last
  have whole : front ++ one ++ (two ++ back) = before ++ (chunk ++ after) := by
    rw [← apart, split]
    simp
  have sizes : (encodeChars (front ++ one)).length = (encodeChars before).length := by
    rw [Text.encodeChars_append, List.length_append]
    omega
  obtain ⟨_, rest⟩ := Text.append_inj_of_encodeChars whole sizes
  obtain ⟨rfl, _⟩ := Text.append_inj_of_encodeChars rest (by omega)
  exact solid.prepend one

/-! ### Tokens of a text -/

theorem byteLength_eq (cs : List Char) : byteLength cs = (encodeChars cs).length := by
  have run : ∀ (ds : List Char) (n : Nat),
      ds.foldl (fun n c => n + c.utf8Size) n = n + (encodeChars ds).length := by
    intro ds
    induction ds with
    | nil => intro n; rfl
    | cons c ds ih =>
      intro n
      rw [List.foldl_cons, ih, Text.encodeChars_cons, List.length_append,
        String.length_utf8EncodeChar, Nat.add_assoc]
  rw [byteLength, run, Nat.zero_add]

/-- Whether a kind is that of literals which are tokens of their own sort. -/
def Kind.isLiteral : Kind → Bool
  | .decimalIntegerLiteral | .hexIntegerLiteral | .octalIntegerLiteral | .binaryIntegerLiteral
  | .decimalFloatingPointLiteral | .hexFloatingPointLiteral | .characterLiteral | .stringLiteral => true
  | _ => false

theorem plain_of_isLiteral {k : Kind} (h : k.isLiteral = true) : k.isComment = false ∧ k ≠ .error := by
  unfold Kind.isLiteral at h
  split at h <;> first | exact ⟨rfl, by decide⟩ | cases h

/-- Whether a lexeme is as any that is found in a text: a comment has the kind of one, a literal that of
a literal, and no token is put in. -/
def Lexeme.isSound : Lexeme → Bool
  | .comment k => k.isComment
  | .token (.literal k) => k.isLiteral
  | .token k => k != .missing

theorem isSound_scanMark (c : Char) (cs : List Char) : (scanMark c cs).1.isSound = true := by
  unfold scanMark
  split
  · rfl
  · dsimp only
    split <;> rfl

theorem isSound_scanHex (cs : List Char) : (Lexeme.token (scanHex cs).1).isSound = true := by
  rw [scanHex]
  dsimp only
  repeat' split
  all_goals rfl

theorem isSound_scanDecimal (cs : List Char) :
    (Lexeme.token (scanDecimal cs).1).isSound = true := by
  rw [scanDecimal]
  dsimp only
  repeat' split
  all_goals rfl

theorem isSound_scan (c : Char) (cs : List Char) : (scan c cs).1.isSound = true := by
  have number : (scan.number c cs).1.isSound = true := isSound_scanDecimal (c :: cs)
  unfold scan
  split
  · rfl
  · split <;> rfl
  · split <;> rfl
  · split <;> rfl
  · split <;> rfl
  · split
    · exact isSound_scanHex _
    · split
      · rfl
      · exact number
  · split
    · exact number
    · exact isSound_scanMark _ _
  · split
    · rfl
    · split
      · exact number
      · exact isSound_scanMark _ _

/-- Tokens and trailing comments that stand in a text one after the other. -/
structure TokenList.Stands (text : List Char) (l : TokenList) : Prop where
  placed : ∃ mid, TokensPlaced (Solid text) 0 l.tokens mid ∧
    Placed (Solid text) mid l.trailing (encodeChars text).length
  loose : ∀ n ∈ l.trailing, n.IsLoose

/-- Some characters of a text span a range if their last line is not blank. -/
theorem solid_of_split {text front back : List Char} {c : Char} {cs : List Char}
    (whole : text = front ++ (c :: cs ++ back)) (solid : EndsSolid (c :: cs)) :
    Solid text (encodeChars front).length
      ((encodeChars front).length + byteLength (c :: cs)) := by
  refine ⟨⟨⟨front, _, whole, (Nat.zero_add _).symm⟩, ⟨front ++ c :: cs, back, ?_, ?_⟩, ?_⟩,
    front, c :: cs, back, whole, Nat.le_refl _, by rw [byteLength_eq], solid⟩
  · rw [whole, List.append_assoc]
  · rw [byteLength_eq, Text.encodeChars_append, List.length_append, Nat.zero_add]
  · rw [byteLength_eq]
    have : (encodeChars (c :: cs)).length ≠ 0 := fun none => by
      cases Text.encodeChars_eq_nil none
    omega

/-- Reading on after some tokens and comments that stand in the text. -/
theorem stands_readTokens {text front rest : List Char} {offset mid : Nat} {comments : List Node}
    {tokens : List Token} (whole : text = front ++ rest)
    (here : offset = (encodeChars front).length)
    (placed : TokensPlaced (Solid text) 0 tokens.reverse mid)
    (between : Placed (Solid text) mid comments.reverse offset)
    (loose : ∀ n ∈ comments, n.IsLoose) :
    (readTokens offset comments tokens rest).Stands text := by
  -- some characters are taken from the rest
  have step (c : Char) (cs : List Char) (n offset : Nat) (front : List Char)
      (whole : text = front ++ c :: cs) (here : offset = (encodeChars front).length) :
      text = front ++ (c :: cs.take n) ++ cs.drop n ∧
        offset + byteLength (c :: cs.take n) = (encodeChars (front ++ c :: cs.take n)).length ∧
        (EndsSolid (c :: cs.take n) →
          Solid text offset (offset + byteLength (c :: cs.take n))) := by
    have split : text = front ++ (c :: cs.take n ++ cs.drop n) := by
      rw [whole, List.cons_append, List.take_append_drop]
    refine ⟨by rw [split, List.append_assoc], ?_, fun solid => here ▸ solid_of_split split solid⟩
    rw [here, byteLength_eq, Text.encodeChars_append, List.length_append]
  fun_induction readTokens offset comments tokens rest generalizing front mid with
  | case1 offset comments tokens =>
    rw [List.append_nil] at whole
    refine ⟨⟨mid, placed, ?_⟩, fun n hn => loose n (List.mem_reverse.1 hn)⟩
    rw [whole, ← here, ← whole]
    exact between
  | case2 offset comments tokens c cs space ih =>
    refine @ih (front ++ [c]) _ ?_ ?_ placed (between.widen (Nat.le_refl _) (by omega)) loose
    · rw [whole, List.append_assoc]
      rfl
    · rw [here, Text.encodeChars_append, List.length_append, Text.encodeChars_cons,
        List.length_append, String.length_utf8EncodeChar]
      rfl
  | case3 =>
    rename_i offset comments tokens c cs space n taken stop k found ih
    have isSound : k.isComment = true := by
      have sound := isSound_scan c cs
      rwa [found] at sound
    obtain ⟨further, there, spans⟩ := step c cs n offset front whole here
    have solid := endsSolid_scan (Bool.eq_false_iff.2 space) cs
    rw [found] at solid
    refine @ih (front ++ c :: cs.take n) _ further there placed ?_ ?_
    · rw [List.reverse_cons]
      exact between.append (.cons (Nat.le_refl _) (.nil (Nat.le_add_right _ _))
        (fun _ => spans (solid (by simp))) (.nil (Nat.le_refl _)))
    · intro m hm
      rcases List.mem_cons.1 hm with rfl | hm
      · have extra : (k.isComment || (Node.mk (.kind k) none offset stop []).is .error) = true := by
          rw [isSound, Bool.true_or]
        exact ⟨extra, rfl, rfl⟩
      · exact loose m hm
  | case4 =>
    rename_i offset comments tokens c cs space n taken stop k found ih
    have isSound : (Lexeme.token k).isSound = true := by
      have sound := isSound_scan c cs
      rwa [found] at sound
    obtain ⟨further, there, spans⟩ := step c cs n offset front whole here
    have solid := endsSolid_scan (Bool.eq_false_iff.2 space) cs
    rw [found] at solid
    rw [List.unattach_reverse, List.unattach_attach] at ih
    refine @ih (front ++ c :: cs.take n) _ further there ?_
      (.nil (Nat.le_refl _)) fun m hm => (List.not_mem_nil hm).elim
    rw [List.reverse_cons]
    refine placed.append (.cons ⟨?_, ?_, ?_⟩ between (Nat.le_add_right _ _)
      (fun genuine => spans (solid ?_)) (.nil (Nat.le_refl _)))
    · exact fun m hm => loose m (List.mem_reverse.1 hm)
    · intro l same
      cases same
      exact plain_of_isLiteral isSound
    · intro same
      cases same
      cases isSound
    · rintro same
      cases same
      exact genuine.2 rfl

/-- The tokens of a text stand in it. -/
theorem stands_ofChars (text : List Char) : (TokenList.ofChars text).Stands text := by
  cases text with
  | nil => exact ⟨⟨0, .nil (Nat.le_refl _), .nil (Nat.le_refl _)⟩, fun n hn => by cases hn⟩
  | cons c cs =>
    rw [TokenList.ofChars]
    split
    · refine @stands_readTokens (c :: cs) [c] cs _ 0 [] [] rfl ?_ (.nil (Nat.le_refl _))
        (.nil (Nat.zero_le _)) fun n hn => by cases hn
      rw [Text.encodeChars_cons, List.length_append, String.length_utf8EncodeChar]
      rfl
    · exact @stands_readTokens (c :: cs) [] (c :: cs) 0 0 [] [] rfl rfl (.nil (Nat.le_refl _))
        (.nil (Nat.le_refl _)) fun n hn => by cases hn

/-! ### Repairs -/

theorem stands_insertToken {text : List Char} {l : TokenList} (h : l.Stands text) {put : String}
    (insertable : put ∈ insertable) (position : Nat) :
    TokenList.Stands text { l with tokens := insertToken put position l.tokens } := by
  obtain ⟨⟨mid, placed, trailing⟩, loose⟩ := h
  rw [← List.take_append_drop position l.tokens] at placed
  obtain ⟨cut, before, later⟩ := placed.of_append
  obtain ⟨tight, order⟩ := before.tight
  refine ⟨⟨mid, ?_, trailing⟩, loose⟩
  refine (tight.append (.cons ⟨?_, ?_, fun _ => insertable⟩ (.nil (Nat.le_refl _)) (Nat.le_refl _)
    (fun genuine => (genuine.1 rfl).elim) (.nil (Nat.le_refl _)))).append (later.widen order)
  · exact fun n hn => by cases hn
  · exact fun k same => by cases same

/-- A skipped token, after what stood before it. -/
theorem Placed.skip {text : List Char} {lo hi : Nat} {t : Token} {ns : List Node}
    (extras : Placed (Solid text) lo t.extras t.start) (width : t.start ≤ t.stop)
    (rest : Placed (Solid text) t.stop ns hi) :
    Placed (Solid text) lo (t.extras ++ [.mk (.kind .error) none t.start t.stop []] ++ ns) hi := by
  rw [List.append_assoc]
  refine extras.append (.cons (Nat.le_refl _) (.nil width) (fun clean => ?_) rest)
  cases clean

theorem isLoose_of_mem_skipped {t : Token} {n : Node} {ns : List Node} (proper : t.Proper)
    (loose : ∀ m ∈ ns, m.IsLoose)
    (h : n ∈ t.extras ++ [.mk (.kind .error) none t.start t.stop []] ++ ns) : n.IsLoose := by
  rcases List.mem_append.1 h with h | h
  · rcases List.mem_append.1 h with h | h
    · exact proper.loose n h
    · cases List.mem_singleton.1 h
      exact ⟨rfl, rfl, rfl⟩
  · exact loose n h

theorem stands_skipToken {text : List Char} {l skipped : TokenList} (h : l.Stands text)
    {position : Nat} (skip : skipToken position l = some skipped) : skipped.Stands text := by
  obtain ⟨⟨mid, placed, trailing⟩, loose⟩ := h
  rw [← List.take_append_drop position l.tokens] at placed
  obtain ⟨cut, before, later⟩ := placed.of_append
  unfold skipToken at skip
  split at skip
  · cases skip
  · rename_i t rest hdrop
    rw [hdrop] at later
    cases later with
    | cons proper extras width covers rest =>
      dsimp only at skip
      split at skip
      · cases skip
        refine ⟨⟨cut, before, extras.skip width (trailing.widen rest.le (Nat.le_refl _))⟩, ?_⟩
        exact fun n hn => isLoose_of_mem_skipped proper loose hn
      · rename_i next others
        cases skip
        refine ⟨⟨mid, ?_, trailing⟩, loose⟩
        cases rest with
        | cons nextProper nextExtras nextWidth nextCovers others =>
          refine before.append (.cons ⟨?_, nextProper.literal, nextProper.inserted⟩
            (extras.skip width nextExtras) nextWidth nextCovers others)
          exact fun n hn => isLoose_of_mem_skipped proper nextProper.loose hn

theorem stands_repair {text : List Char} {l repaired : TokenList} (h : l.Stands text)
    {position : Nat} (repair : repair? position l = some repaired) : repaired.Stands text := by
  have mem := List.mem_of_find?_eq_some repair
  rcases List.mem_append.1 mem with inserted | skipped
  · obtain ⟨put, hput, rfl⟩ := List.mem_map.1 inserted
    exact stands_insertToken h hput position
  · exact stands_skipToken h (Option.mem_toList.1 skipped)

/-! ### Trees -/

theorem derives_of_complete {tokens : List Token} {nodes : List Node}
    (h : (readProgram tokens).complete? = some nodes) :
    Rule.Derives Grammar.ruleOf Grammar.program [] tokens nodes := by
  unfold Outcome.complete? at h
  split at h
  · rename_i position hresult
    cases h
    rw [readProgram] at hresult
    obtain ⟨ts, whole, derives⟩ := Rule.derives_of_read hresult
    rw [List.append_nil] at whole
    cases whole
    exact derives
  · cases h

theorem hasError_broken (l : TokenList) (o : Outcome) : (treeOf.broken l o).hasError = true := by
  refine Node.hasError_iff.2 (Or.inl ?_)
  rw [treeOf.broken]
  rfl

/-- What a tree is: it comes from a reading, is that of the repaired tokens, or is an error. -/
theorem treeOf_cases (repairs : Nat) (l : TokenList) :
    (∃ nodes, (readProgram l.tokens).complete? = some nodes ∧
        treeOf repairs l = rootOver .program (nodes ++ l.trailing)) ∨
      (∃ fewer repaired position, repairs = fewer + 1 ∧ repair? position l = some repaired ∧
        treeOf repairs l = treeOf fewer repaired) ∨
      treeOf repairs l = treeOf.broken l (readProgram l.tokens) := by
  have opened := treeOf.eq_def repairs l
  dsimp only at opened
  split at opened
  · rename_i nodes complete
    exact Or.inl ⟨nodes, complete, opened⟩
  · split at opened
    · rename_i fewer repaired repair
      exact Or.inr (Or.inl ⟨fewer, repaired, _, rfl, repair, opened⟩)
    · exact Or.inr (Or.inr opened)

/-- A tree without faults comes from a derivation over tokens that are as those of the text are, in
whatever repairs leave alone. -/
theorem exists_reading_of {P : TokenList → Prop}
    (kept : ∀ (l repaired : TokenList) (position : Nat), P l → repair? position l = some repaired →
      P repaired)
    {text : List Char} (first : P (.ofChars text)) (clean : (parse text).hasError = false) :
    ∃ l nodes, P l ∧ Rule.Derives Grammar.ruleOf Grammar.program [] l.tokens nodes ∧
      parse text = rootOver .program (nodes ++ l.trailing) := by
  have run : ∀ (repairs : Nat) (l : TokenList), P l →
      (treeOf repairs l).hasError = false → ∃ l' nodes, P l' ∧
        Rule.Derives Grammar.ruleOf Grammar.program [] l'.tokens nodes ∧
        treeOf repairs l = rootOver .program (nodes ++ l'.trailing) := by
    intro repairs
    induction repairs with
    | zero =>
      intro l holds clean
      rcases treeOf_cases 0 l with
        ⟨nodes, complete, same⟩ | ⟨_, _, _, none, _⟩ | same
      · exact ⟨l, nodes, holds, derives_of_complete complete, same⟩
      · cases none
      · rw [same, hasError_broken] at clean
        cases clean
    | succ repairs ih =>
      intro l holds clean
      rcases treeOf_cases (repairs + 1) l with
        ⟨nodes, complete, same⟩ | ⟨fewer, repaired, position, one, repair, same⟩ | same
      · exact ⟨l, nodes, holds, derives_of_complete complete, same⟩
      · cases one
        rw [same] at clean ⊢
        exact ih repaired (kept l repaired position holds repair) clean
      · rw [same, hasError_broken] at clean
        cases clean
  exact run _ _ first clean

/-- A tree without faults comes from a derivation over tokens that stand in the text. -/
theorem exists_reading {text : List Char} (clean : (parse text).hasError = false) :
    ∃ l nodes, TokenList.Stands text l ∧
      Rule.Derives Grammar.ruleOf Grammar.program [] l.tokens nodes ∧
      parse text = rootOver .program (nodes ++ l.trailing) :=
  exists_reading_of (fun _ _ _ stands repair => stands_repair stands repair) (stands_ofChars text)
    clean

/-- The compilation unit with the given text, in a form that is quick to evaluate. -/
def CompilationUnit.ofCharsOf (text : String) : CompilationUnit :=
  let source := Text.Source.ofString text
  let root := parse (Text.charsOf text)
  { source, root
    package := packageOf? source root
    imports := importsOf source root }

theorem CompilationUnit.ofString_eq_ofCharsOf (text : String) : ofString text = ofCharsOf text := by
  rw [ofString, ofCharsOf, Text.toList_eq_charsOf]

end MonoTap.Java
