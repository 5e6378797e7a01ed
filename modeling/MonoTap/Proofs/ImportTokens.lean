import MonoTap.Imports.Registration
import MonoTap.Proofs.Cuts
import MonoTap.Proofs.Runs

/-!
# The tokens of an import

The declaration that imports a qualified name, as the scan takes it and as the grammar reads it: a
keyword, the parts of the name with dots between them, and a semicolon. It is read as a declaration of
that name whatever comes after it.
-/

set_option autoImplicit false

namespace MonoTap.Java

open Grammar (ruleOf typeDeclaration)
open Rule (Reads)

/-! ### Qualified names -/

/-- Whether some characters are an identifier that is no reserved word. -/
def isPlainIdentifier : List Char → Bool
  | [] => false
  | c :: cs => isWordStart c && cs.all isWordContinue && !reservedWords.contains (String.ofList (c :: cs))

/-- Whether a text is a name that an import may declare: identifiers with dots between them. -/
def isQualifiedName (name : String) : Bool :=
  (Text.splitAt '.' name.toList).all isPlainIdentifier

/-! ### Tokens -/

variable {c : Char} {cs rest part : List Char} {parts : List (List Char)} {offset : Nat}
  {comments : List Node} {tokens us : List Token}

theorem scan_word (begins : isWordStart c = true) (cs : List Char) :
    scan c cs = (.token .word, runLength isWordContinue cs) := by
  unfold scan
  split
  all_goals first | exact absurd begins (by decide) | exact if_pos begins

/-- Blanks and digits. -/
def nonStarts : List Nat :=
  [9, 10, 11, 12, 13, 32, 0x85, 0xA0, 0x1680, 0x2000, 0x2001, 0x2002, 0x2003, 0x2004, 0x2005, 0x2006, 0x2007,
    0x2008, 0x2009, 0x200A, 0x2028, 0x2029, 0x202F, 0x205F, 0x3000, 48, 49, 50, 51, 52, 53, 54, 55, 56, 57]

theorem inRanges_eq (ranges : Array (Nat × Nat)) (n : Nat) :
    Text.inRanges ranges n = ranges.toList.any fun range => range.1 ≤ n && n ≤ range.2 := by
  rw [Text.inRanges, Array.any_toList]

theorem isWordStart_of_mem (h : c.toNat ∈ nonStarts) : isWordStart c = false := by
  have all : ∀ n ∈ nonStarts, isWordStart (Char.ofNat n) = false := by
    -- the ranges are walked through as a list, which is much faster than by position
    simp only [isWordStart, Text.isIdentifierStart, inRanges_eq]
    decide +kernel
  have here := all _ h
  rwa [Char.ofNat_toNat] at here

theorem isSpace_eq_false (begins : isWordStart c = true) : isSpace c = false := by
  rw [← Bool.not_eq_true]
  intro space
  refine absurd begins (Bool.eq_false_iff.1 (isWordStart_of_mem ?_))
  simp only [isSpace, Bool.or_eq_true, Bool.and_eq_true, decide_eq_true_eq, beq_iff_eq] at space
  simp only [nonStarts, List.mem_cons]
  omega

theorem isDigit_eq_false (begins : isWordStart c = true) : c.isDigit = false := by
  rw [← Bool.not_eq_true]
  intro digit
  refine absurd begins (Bool.eq_false_iff.1 (isWordStart_of_mem ?_))
  simp only [Char.isDigit, Bool.and_eq_true, decide_eq_true_eq, ge_iff_le, UInt32.le_iff_toNat_le] at digit
  obtain ⟨low, high⟩ := digit
  change 48 ≤ c.toNat at low
  change c.toNat ≤ 57 at high
  simp only [nonStarts, List.mem_cons]
  omega

theorem scan_semicolon (cs : List Char) : scan ';' cs = (.token .mark, 0) := by
  have mark : scanMark ';' cs = (.token .mark, 0) := by
    simp [scanMark, longMarks, List.isPrefixOf, shortMarks]
  unfold scan
  split <;> first | exact mark | simp_all

theorem scan_dot (begins : isWordStart c = true) (cs : List Char) :
    scan '.' (c :: cs) = (.token .mark, 0) := by
  have apart : ('.' == c) = false := beq_false_of_ne (by rintro rfl; exact absurd begins (by decide))
  have mark : scanMark '.' (c :: cs) = (.token .mark, 0) := by
    simp [scanMark, longMarks, List.find?, List.isPrefixOf, shortMarks, apart]
  unfold scan
  simp only [isDigit_eq_false begins, Bool.false_eq_true, ↓reduceIte, mark]

/-- The token of a word. -/
def wordToken (part : List Char) (offset : Nat) (comments : List Node) : Token :=
  ⟨.word, String.ofList part, offset, offset + byteLength part, comments⟩

/-- The token of a mark of one byte. -/
def markToken (mark : String) (offset : Nat) : Token :=
  ⟨.mark, mark, offset, offset + 1, []⟩

theorem readTokens_word (begins : isWordStart c = true) (all : cs.all isWordContinue = true)
    (stop : ∀ d, rest.head? = some d → isWordContinue d = false) :
    readTokens offset comments tokens (c :: cs ++ rest) =
      readTokens (offset + byteLength (c :: cs)) []
        (wordToken (c :: cs) offset comments.reverse :: tokens) rest := by
  have scanned := scan_word begins (cs ++ rest)
  rw [runLength_append all stop] at scanned
  rw [List.cons_append, readTokens_token (isSpace_eq_false begins) scanned, List.take_left, List.drop_left]
  rfl

theorem readTokens_semicolon (cs : List Char) :
    readTokens offset [] tokens (';' :: cs) =
      readTokens (offset + 1) [] (markToken ";" offset :: tokens) cs := by
  rw [readTokens_token (by decide) (scan_semicolon cs)]
  rfl

theorem readTokens_dot (begins : isWordStart c = true) (cs : List Char) :
    readTokens offset [] tokens ('.' :: c :: cs) =
      readTokens (offset + 1) [] (markToken "." offset :: tokens) (c :: cs) := by
  rw [readTokens_token (by decide) (scan_dot begins cs)]
  rfl

/-- The tokens of the parts of a name after the first one, each with a dot before it. -/
def dottedTokens (offset : Nat) : List (List Char) → List Token
  | [] => []
  | part :: parts =>
    markToken "." offset :: wordToken part (offset + 1) [] ::
      dottedTokens (offset + 1 + byteLength part) parts

/-- The parts of a name after the first one, each with a dot before it. -/
def dotted (parts : List (List Char)) : List Char :=
  parts.flatMap ('.' :: ·)

theorem exists_of_isPlainIdentifier (h : isPlainIdentifier part = true) :
    ∃ c cs, part = c :: cs ∧ isWordStart c = true ∧ cs.all isWordContinue = true ∧
      reservedWords.contains (String.ofList part) = false := by
  cases part with
  | nil => cases h
  | cons c cs =>
    rw [isPlainIdentifier, Bool.and_eq_true, Bool.and_eq_true, Bool.not_eq_true'] at h
    exact ⟨c, cs, rfl, h.1.1, h.1.2, h.2⟩

/-- After a part of a name there is a dot or the semicolon. -/
theorem not_isWordContinue_dotted (parts : List (List Char)) (rest : List Char) :
    ∀ d, (dotted parts ++ ';' :: rest).head? = some d → isWordContinue d = false := by
  cases parts with
  | nil =>
    intro d hd
    cases hd
    decide
  | cons part parts =>
    intro d hd
    cases hd
    decide

theorem readTokens_dotted (valid : ∀ part ∈ parts, isPlainIdentifier part = true) (rest : List Char) :
    readTokens offset [] tokens (dotted parts ++ ';' :: rest) =
      readTokens (offset + byteLength (dotted parts)) [] ((dottedTokens offset parts).reverse ++ tokens)
        (';' :: rest) := by
  induction parts generalizing offset tokens with
  | nil => rfl
  | cons part parts ih =>
    obtain ⟨c, cs, rfl, begins, all, _⟩ := exists_of_isPlainIdentifier (valid part List.mem_cons_self)
    have width : byteLength (dotted ((c :: cs) :: parts)) =
        1 + byteLength (c :: cs) + byteLength (dotted parts) := by
      rw [dotted, List.flatMap_cons, ← dotted, List.cons_append, byteLength_cons, byteLength_append,
        Nat.add_assoc]
      rfl
    rw [width, dotted, List.flatMap_cons, ← dotted, List.append_assoc, List.cons_append, List.cons_append,
      readTokens_dot begins, ← List.cons_append,
      readTokens_word begins all (not_isWordContinue_dotted parts rest),
      ih fun part mem => valid part (List.mem_cons_of_mem _ mem), dottedTokens, List.reverse_cons,
      List.reverse_cons, List.append_assoc, List.append_assoc]
    simp only [Nat.add_assoc]
    rfl

/-- The tokens of the declaration that imports a name of one part or more, after some comments. -/
def importTokens (offset : Nat) (comments : List Node) (part : List Char) (parts : List (List Char)) :
    List Token :=
  wordToken "import".toList offset comments :: wordToken part (offset + 7) [] ::
    (dottedTokens (offset + 7 + byteLength part) parts ++
      [markToken ";" (offset + 7 + byteLength (part ++ dotted parts))])

theorem readTokens_import (first : isPlainIdentifier part = true)
    (valid : ∀ part ∈ parts, isPlainIdentifier part = true) (rest : List Char) :
    readTokens offset comments tokens ("import ".toList ++ (part ++ (dotted parts ++ ';' :: rest))) =
      readTokens (offset + 7 + byteLength (part ++ dotted parts) + 1) []
        ((importTokens offset comments.reverse part parts).reverse ++ tokens) rest := by
  obtain ⟨c, cs, rfl, begins, all, _⟩ := exists_of_isPlainIdentifier first
  have keyword := @readTokens_word 'i' "mport".toList (' ' :: (c :: cs ++ (dotted parts ++ ';' :: rest)))
    offset comments tokens (by decide) (by decide) fun d hd => by cases hd; decide
  rw [show "import ".toList ++ (c :: cs ++ (dotted parts ++ ';' :: rest)) =
    'i' :: "mport".toList ++ (' ' :: (c :: cs ++ (dotted parts ++ ';' :: rest))) from rfl, keyword,
    readTokens_space (by decide), readTokens_word begins all (not_isWordContinue_dotted parts rest),
    readTokens_dotted valid, readTokens_semicolon, importTokens, byteLength_append, Nat.add_assoc _ _
    (byteLength (dotted parts))]
  simp only [List.reverse_cons, List.reverse_append, List.append_assoc, List.reverse_nil, List.nil_append]
  rfl

/-! ### The declaration -/

theorem wordToken_reads (text : String) (offset : Nat) (comments : List Node) :
    (wordToken text.toList offset comments).reads text = true := by
  rw [Token.reads, wordToken, String.ofList_toList, beq_self_eq_true]
  rfl

/-- A part of a name reads like no reserved word. -/
theorem not_reads_wordToken (valid : isPlainIdentifier part = true) {text : String}
    (reserved : reservedWords.contains text = true) : (wordToken part offset comments).reads text = false := by
  obtain ⟨_, _, _, _, _, free⟩ := exists_of_isPlainIdentifier valid
  rw [← Bool.not_eq_true]
  intro reads
  have same : String.ofList part = text := Token.text_of_reads reads
  rw [same, reserved] at free
  cases free

theorem markToken_reads (text : String) (offset : Nat) : (markToken text offset).reads text = true := by
  rw [Token.reads, markToken, beq_self_eq_true]
  rfl

theorem reads_tok {t : Token} {text : String} (h : t.reads text = true) (op : List Node) (ts : List Token) :
    Reads ruleOf (Grammar.tok text) op (t :: ts) (some (t.toNodes (.token text), ts)) := by
  have read : Reads ruleOf (Grammar.tok text) op (t :: ts) _ := .token [text]
  rwa [Rule.takeToken_cons, if_pos h] at read

theorem reads_tok_none {t : Token} {text : String} (h : t.reads text = false) (op : List Node)
    (ts : List Token) : Reads ruleOf (Grammar.tok text) op (t :: ts) none := by
  have read : Reads ruleOf (Grammar.tok text) op (t :: ts) _ := .token [text]
  rwa [Rule.takeToken_of_not_reads [] h] at read

theorem reads_identifier (valid : isPlainIdentifier part = true) (op : List Node) (offset : Nat)
    (ts : List Token) :
    Reads ruleOf Grammar.identifier op (wordToken part offset [] :: ts)
      (some ([.mk (.kind .identifier) none offset (offset + byteLength part) []], ts)) := by
  obtain ⟨_, _, _, _, _, free⟩ := exists_of_isPlainIdentifier valid
  have isName : (wordToken part offset []).isName = true := by
    rw [Token.isName, wordToken, free]
    rfl
  have read : Reads ruleOf Grammar.identifier op (wordToken part offset [] :: ts) _ := .name .identifier
  rwa [Rule.takeLeaf_cons, if_pos isName] at read

/-- A node that is a dotted name and covers some bytes. -/
structure Node.IsDotted (n : Node) (start stop : Nat) : Prop where
  label : n.label = .kind .scopedIdentifier ∨ n.label = .kind .identifier
  start : n.start = start
  stop : n.stop = stop

theorem Node.IsDotted.counts {n : Node} {start stop : Nat} (h : n.IsDotted start stop) : n.isExtra = false := by
  cases n with
  | mk label role first last children => rcases h.label with rfl | rfl <;> rfl

/-- What a further part adds to a qualified name. -/
def Grammar.furtherPart : Rule Symbol :=
  .node .scopedIdentifier (all [.field .scope .left, tok ".", .field .name identifier])

/-- The name that another one and a further part after a dot make up. -/
def scopedName (scope : Node) (offset : Nat) (part : List Char) : Node :=
  .mk (.kind .scopedIdentifier) none scope.start (offset + 1 + byteLength part)
    [scope.withRole .scope, .mk (.token ".") none offset (offset + 1) [],
      .mk (.kind .identifier) (some .name) (offset + 1) (offset + 1 + byteLength part) []]

/-- The name that another one and all further parts make up. -/
def dottedNode (name : Node) (offset : Nat) : List (List Char) → Node
  | [] => name
  | part :: parts => dottedNode (scopedName name offset part) (offset + 1 + byteLength part) parts

theorem isDotted_dottedNode {name : Node} {start : Nat} (h : name.IsDotted start offset) :
    (dottedNode name offset parts).IsDotted start (offset + byteLength (dotted parts)) := by
  induction parts generalizing name offset with
  | nil => exact h
  | cons part parts ih =>
    have longer : (scopedName name offset part).IsDotted start (offset + 1 + byteLength part) :=
      ⟨.inl rfl, h.start, rfl⟩
    have further := ih longer
    rwa [dotted, List.flatMap_cons, ← dotted, List.cons_append, byteLength_cons, byteLength_append,
      ← Nat.add_assoc, ← Nat.add_assoc]

theorem reads_furtherPart {scope : Node} (counts : scope.isExtra = false) (valid : isPlainIdentifier part = true)
    (ts : List Token) :
    Reads ruleOf Grammar.furtherPart [scope] (markToken "." offset :: wordToken part (offset + 1) [] :: ts)
      (some ([scopedName scope offset part], ts)) := by
  have dot := reads_tok (markToken_reads "." offset) [scope] (wordToken part (offset + 1) [] :: ts)
  have name := reads_identifier valid [scope] (offset + 1) ts
  have whole : Reads ruleOf Grammar.furtherPart [scope] _ _ :=
    .node .scopedIdentifier (.seq (.field .scope .left) (.seq dot (.field .name name)))
  have same : Node.assign .scope [scope] = [scope.withRole .scope] := by
    rw [Node.assign, List.map_singleton, counts, if_neg Bool.false_ne_true]
  have wrapped : Node.wrap .scopedIdentifier (scope.withRole .scope ::
      [.mk (.token ".") none offset (offset + 1) [],
        .mk (.kind .identifier) (some .name) (offset + 1) (offset + 1 + byteLength part) []]) =
      [scopedName scope offset part] := by
    have start : (scope.withRole .scope).start = scope.start := by
      cases scope
      rfl
    rw [scopedName, ← start]
    exact Node.wrap_eq .scopedIdentifier (fun m hm => (List.not_mem_nil hm).elim)
      ((scope.isExtra_withRole _).trans counts) rfl
  simp only [Reading.as, Reading.after, Option.map_some, same] at whole
  rw [← wrapped]
  exact whole

/-- What does not go on with a name ends the chain. -/
theorem reads_furtherPart_none {t : Token} (stop : t.reads "." = false) (op : List Node) (ts : List Token) :
    Reads ruleOf Grammar.furtherPart op (t :: ts) none :=
  .node .scopedIdentifier (.seq (.field .scope .left) (.seqFail (reads_tok_none stop op ts)))

/-- The further parts of a name, after what a rule has read as the parts before them. -/
theorem reads_dotted {base : Rule Symbol} {op : List Node} {ts : List Token} {name : Node} {t : Token}
    (valid : ∀ part ∈ parts, isPlainIdentifier part = true) (stop : t.reads "." = false)
    (first : Reads ruleOf base op ts (some ([name], dottedTokens offset parts ++ t :: us)))
    (counts : name.isExtra = false) :
    Reads ruleOf (.chain base Grammar.furtherPart) op ts (some ([dottedNode name offset parts], t :: us)) := by
  induction parts generalizing base op ts name offset with
  | nil => exact .chainStop first (reads_furtherPart_none stop [name] us)
  | cons part parts ih =>
    have step : Reads ruleOf Grammar.furtherPart [name] (markToken "." offset :: wordToken part (offset + 1) [] ::
        (dottedTokens (offset + 1 + byteLength part) parts ++ t :: us)) _ :=
      reads_furtherPart counts (valid part List.mem_cons_self) _
    refine .chainMore first step ?_
      (ih (fun part mem => valid part (List.mem_cons_of_mem _ mem)) Reads.left rfl)
    rw [dottedTokens, List.cons_append, List.cons_append, List.length_cons, List.length_cons]
    omega

namespace Grammar

/-- The declaration of an import. -/
def importDeclaration : Rule Symbol :=
  .node .importDeclaration (all [tok "import", opt (tok "static"), qualifiedName,
    opt (all [tok ".", .leaf "*" .asterisk]), tok ";"])

/-- The declarations up to that of an import, and those after it. -/
theorem choices_typeDeclaration : typeDeclaration.choices =
    typeDeclaration.choices.take 6 ++ importDeclaration :: typeDeclaration.choices.drop 7 :=
  rfl

theorem trace_choices_typeDeclaration : ((typeDeclaration.choices.take 6).all fun q =>
    (q.trace mayEnd beforeImport ⟨0, false⟩).isSome && q.consumes) = true := by
  decide +kernel

end Grammar

/-- The name that an import declares. -/
def importedName (offset : Nat) (part : List Char) (parts : List (List Char)) : Node :=
  dottedNode (.mk (.kind .identifier) none (offset + 7) (offset + 7 + byteLength part) [])
    (offset + 7 + byteLength part) parts

/-- The declaration of an import of a name. -/
def importNode (offset : Nat) (part : List Char) (parts : List (List Char)) : Node :=
  .mk (.kind .importDeclaration) none offset (offset + 7 + byteLength (part ++ dotted parts) + 1)
    [.mk (.token "import") none offset (offset + 6) [], importedName offset part parts,
      .mk (.token ";") none (offset + 7 + byteLength (part ++ dotted parts))
        (offset + 7 + byteLength (part ++ dotted parts) + 1) []]

theorem isDotted_importedName (offset : Nat) (part : List Char) (parts : List (List Char)) :
    (importedName offset part parts).IsDotted (offset + 7) (offset + 7 + byteLength (part ++ dotted parts)) := by
  rw [byteLength_append, ← Nat.add_assoc]
  exact isDotted_dottedNode ⟨.inr rfl, rfl, rfl⟩

/-- What such a declaration imports. -/
theorem ofNode?_importNode (source : Text.Source) (offset : Nat) (part : List Char)
    (parts : List (List Char)) : ImportDeclaration.ofNode? source (importNode offset part parts) =
      some ⟨source.textOf (offset + 7) (offset + 7 + byteLength (part ++ dotted parts)), false, false, offset,
        offset + 7 + byteLength (part ++ dotted parts) + 1⟩ := by
  have covers := isDotted_importedName offset part parts
  have named : (importedName offset part parts).isNamed = true := by
    rw [Node.isNamed]
    rcases covers.label with label | label <;> rw [label]
  have dots : (importedName offset part parts).isAny [.scopedIdentifier, .identifier] = true := by
    rw [Node.isAny, List.any_cons, List.any_cons, Node.is, Node.is]
    rcases covers.label with label | label <;> rw [label] <;> rfl
  have plain (l : Label) (other : l ≠ .kind .scopedIdentifier) (other' : l ≠ .kind .identifier) :
      ((importedName offset part parts).label == l) = false := by
    rcases covers.label with label | label <;> rw [label]
    · exact beq_false_of_ne other.symm
    · exact beq_false_of_ne other'.symm
  have name : dottedName? (importNode offset part parts) = some (importedName offset part parts) := by
    rw [dottedName?, Node.namedChildren, importNode, Node.children, List.filter_cons_of_neg Bool.false_ne_true,
      List.filter_cons_of_pos named]
    exact List.find?_cons_of_pos dots
  have static : ((importNode offset part parts).children.any fun c => c.label == .token "static") = false := by
    rw [importNode, Node.children, List.any_cons, List.any_cons,
      plain (.token "static") (fun same => by cases same) fun same => by cases same]
    rfl
  have wildcard : ((importNode offset part parts).children.any fun c => c.is .asterisk) = false := by
    rw [importNode, Node.children, List.any_cons, List.any_cons, Node.is, Node.is,
      plain (.kind .asterisk) (fun same => by cases same) fun same => by cases same]
    rfl
  have is : (importNode offset part parts).is .importDeclaration = true := rfl
  rw [ImportDeclaration.ofNode?, name, static, wildcard, if_pos is, Option.map_some, Node.text,
    covers.start, covers.stop]
  rfl

/-- Optional parts of which the next token shows that they are not there. -/
theorem reads_opt_none {r : Rule Symbol} {op : List Node} {ts : List Token} (h : Reads ruleOf r op ts none) :
    Reads ruleOf (Grammar.opt r) op ts (some ([], ts)) :=
  .altSecond h .empty

theorem reads_importDeclaration (extras : ∀ n ∈ comments, n.isExtra = true)
    (first : isPlainIdentifier part = true) (valid : ∀ part ∈ parts, isPlainIdentifier part = true)
    (rest : List Token) :
    Reads ruleOf Grammar.importDeclaration [] (importTokens offset comments part parts ++ rest)
      (some (comments ++ [importNode offset part parts], rest)) := by
  have base := reads_identifier first [] (offset + 7)
    (dottedTokens (offset + 7 + byteLength part) parts ++
      markToken ";" (offset + 7 + byteLength (part ++ dotted parts)) :: rest)
  have name := reads_dotted valid rfl base rfl
  have covers := isDotted_importedName offset part parts
  have whole : importTokens offset comments part parts ++ rest =
      wordToken "import".toList offset comments :: wordToken part (offset + 7) [] ::
        (dottedTokens (offset + 7 + byteLength part) parts ++
          markToken ";" (offset + 7 + byteLength (part ++ dotted parts)) :: rest) := by
    rw [importTokens, List.cons_append, List.cons_append, List.append_assoc]
    rfl
  have wrapped : Node.wrap .importDeclaration (comments ++ (importNode offset part parts).children) =
      comments ++ [importNode offset part parts] :=
    Node.wrap_eq .importDeclaration extras rfl rfl
  rw [whole, ← wrapped, importNode]
  rw [← importedName] at name
  generalize dottedTokens (offset + 7 + byteLength part) parts ++
    markToken ";" (offset + 7 + byteLength (part ++ dotted parts)) :: rest = ts at name
  generalize offset + 7 + byteLength (part ++ dotted parts) = last at name covers
  have keyword := reads_tok (wordToken_reads "import" offset comments) []
    (wordToken part (offset + 7) [] :: ts)
  have static : Reads ruleOf (Grammar.opt (Grammar.tok "static")) [] (wordToken part (offset + 7) [] :: ts) _ :=
    reads_opt_none (reads_tok_none (not_reads_wordToken first (by decide)) [] ts)
  have wildcard : Reads ruleOf (Grammar.opt (Grammar.all [Grammar.tok ".", .leaf "*" .asterisk])) []
      (markToken ";" last :: rest) _ :=
    reads_opt_none (.seqFail (reads_tok_none rfl [] rest))
  have semicolon := reads_tok (markToken_reads ";" last) [] rest
  have reads : Reads ruleOf Grammar.importDeclaration [] _ _ :=
    .node .importDeclaration (.seq keyword (.seq static (.seq name (.seq wildcard semicolon))))
  convert reads using 1
  simp only [Reading.as, Reading.after, Option.map_some, Token.toNodes, Node.children, List.append_assoc]
  rfl

/-- The tokens of an import are its declaration, whatever comes after them. -/
theorem isDeclaration_importTokens (extras : ∀ n ∈ comments, n.isExtra = true)
    (first : isPlainIdentifier part = true) (valid : ∀ part ∈ parts, isPlainIdentifier part = true) :
    IsDeclaration (importTokens offset comments part parts) (comments ++ [importNode offset part parts]) := by
  have plain : (wordToken "import".toList offset comments).isName = false := rfl
  have begins (texts : List String) (mem : "import" ∈ texts) (ts : List Token) :
      (Edge.before texts).Admits (importTokens offset comments part parts ++ ts) :=
    ⟨_, _, rfl, plain, "import", mem, wordToken_reads "import" offset comments⟩
  refine ⟨fun rest => ?_, ?_⟩
  · refine Rule.reads_of_choice Grammar.choices_typeDeclaration (fun q hq => ?_)
      (reads_importDeclaration extras first valid rest)
    have sure := List.all_eq_true.1 Grammar.trace_choices_typeDeclaration q hq
    rw [Bool.and_eq_true, Option.isSome_iff_exists] at sure
    obtain ⟨⟨s, traced⟩, consumes⟩ := sure
    exact Rule.reads_none_of_trace Grammar.enters_ruleOf Grammar.fits_inner Grammar.fits_beforeImport
      traced consumes (fun same => by cases same) (begins _ List.mem_cons_self rest)
  · have here := begins Grammar.declarationMarks List.mem_cons_self []
    rwa [List.append_nil] at here

end MonoTap.Java
