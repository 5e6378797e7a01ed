import MonoTap.Proofs.Lexemes
import MonoTap.Proofs.Passage
import MonoTap.Proofs.TextBlocks

/-!
# The values of string literals

A string literal in a callback passes into the listener with its statement. On one line it stays as it
is. A text block keeps its value exactly if in no move a line loses more of its indentation than all
its lines share, so a text block that is indented less than its statement may lose its shape.
-/

set_option autoImplicit false

namespace MonoTap.Java

open Listener (Tight)
open Text (encodeChars)

/-! ### String literals of a text -/

theorem Node.Belongs.string_leaf {text : List Char} {n : Node} (h : n.Belongs text)
    (is : n.is .stringLiteral = true) : n.children = [] :=
  h.leaf is rfl fun s => by cases s <;> decide +kernel

/-- A text block ends with three quotes. -/
theorem exists_of_textBlockLength {cs : List Char} {n : Nat} (h : textBlockLength? cs = some n) :
    ∃ inside, cs.take n = inside ++ quotes := by
  fun_induction textBlockLength? cs generalizing n with
  | case1 => cases h
  | case2 =>
    cases h
    exact ⟨[], rfl⟩
  | case3 rest ih =>
    obtain ⟨k, _, h⟩ := Option.bind_eq_some_iff.1 h
    obtain ⟨m, found, h⟩ := Option.bind_eq_some_iff.1 h
    cases h
    obtain ⟨inside, split⟩ := ih k found
    refine ⟨'\\' :: (rest.take k ++ inside), ?_⟩
    rw [List.take_succ_cons, Nat.add_comm, List.take_add, split]
    simp
  | case4 => cases h
  | case5 c rest _ _ _ ih =>
    obtain ⟨m, found, h⟩ := Option.bind_eq_some_iff.1 h
    cases h
    obtain ⟨inside, split⟩ := ih found
    exact ⟨c :: inside, by rw [List.take_succ_cons, split]; rfl⟩

/-- A literal that begins with three quotes ends with three more. -/
theorem quoted_of_scan {c : Char} {cs : List Char} {n : Nat}
    (h : scan c cs = (.token (.literal .stringLiteral), n))
    (opens : isTextBlock (c :: cs.take n) = true) :
    ∃ inside, c :: cs.take n = quotes ++ (inside ++ quotes) := by
  obtain ⟨t, split⟩ := List.isPrefixOf_iff_prefix.1 opens
  have first : c :: cs.take n = '"' :: '"' :: '"' :: t := split.symm
  obtain ⟨rfl, taken⟩ := List.cons.inj first
  obtain ⟨rest, rfl⟩ : ∃ rest, cs = '"' :: '"' :: rest := by
    have whole := List.take_append_drop n cs
    rw [taken] at whole
    exact ⟨_, whole.symm⟩
  rw [scan] at h
  split at h
  · rename_i m found
    cases h
    obtain ⟨inside, split⟩ := exists_of_textBlockLength found
    refine ⟨inside, ?_⟩
    rw [Nat.add_comm, List.take_succ_cons, List.take_succ_cons, split]
    rfl
  · cases h

/-- The characters of a string literal of a text. -/
theorem exists_literal {text : String}
    (clean : (CompilationUnit.ofString text).hasSyntaxErrors = false) {n : Node}
    (inText : n ∈ Node.preorderAll (parse text.toList).children)
    (is : n.is .stringLiteral = true) :
    ∃ front literal back, text.toList = front ++ (literal ++ back) ∧
      n.start = (encodeChars front).length ∧
      n.stop = n.start + (encodeChars literal).length ∧
      (∃ inside, literal = '"' :: (inside ++ ['"'])) ∧
      (isTextBlock literal = true → ∃ inside, literal = quotes ++ (inside ++ quotes)) := by
  have label : n.label = .kind .stringLiteral := eq_of_beq is
  obtain ⟨front, c, cs, k, split, _, scanned, start, stop⟩ :=
    (scans_of_mem_parse clean inText).lexeme (.token (.literal .stringLiteral)) (by rw [label]; rfl)
  refine ⟨front, c :: cs.take k, cs.drop k, ?_, start, stop, exists_of_scan_string scanned,
    quoted_of_scan scanned⟩
  rw [split, List.cons_append, List.take_append_drop]

theorem tight_literal (inside : List Char) : Tight ('"' :: (inside ++ ['"'])) :=
  ⟨⟨'"', inside ++ ['"'], rfl, by decide⟩, ⟨'"' :: inside, '"', rfl, by decide⟩⟩

end MonoTap.Java

namespace MonoTap

open Java (CompilationUnit KeepsMargins Laid Node PlainBlock isTextBlock literalValue)
open Listener (carriedThrough)
open Text (Source encodeChars isIndent)

/-! ### Literals in a listener -/

/-- Whether a node is in the callback of each converted site around it that lies in a site. -/
def InCallbacks (file text : String) (ts : List Turn) (site : CallSite) (n : Node) : Prop :=
  ∀ t ∈ ts, t.outcome.converted = true → site.start ≤ t.site.start → t.site.stop ≤ site.stop →
    t.site.start ≤ n.start → n.stop ≤ t.site.stop → ∀ call parameters block,
      IsSite (CompilationUnit.ofString text) file call parameters block t.site →
        n ∈ Node.preorderAll block.children

/-- A string literal in callbacks is in leaves of them, since the test of a guard has none. -/
theorem InCallbacks.held {file text : String}
    (clean : (CompilationUnit.ofString text).hasSyntaxErrors = false) {ts : List Turn}
    {site : CallSite} {n : Node} (h : InCallbacks file text ts site n)
    (is : n.is .stringLiteral = true) : Held file text ts site n := by
  intro t ht converted first last start stop call parameters block isSite
  have content : Callback.IsContent n := ⟨.stringLiteral, eq_of_beq is, rfl, by decide⟩
  exact Callback.exists_leafNode content (isSite.belongs clean)
    (h t ht converted first last start stop call parameters block isSite)

/-- What a converted site is replaced by holds the string literals of its callback, and of the
callbacks in it, as they are moved with the statements that they stand in. Literals on one line stay as
they are. A text block that is laid out by spaces and tabs keeps its value exactly if in each move no
line loses more of its indentation than all its lines share. -/
theorem convert_moves_literals (settings : Settings) (file text : String)
    (clean : (CompilationUnit.ofString text).hasSyntaxErrors = false) (valid : settings.Valid)
    (indents : ∀ c ∈ settings.indent.toList, isIndent c = true) :
    let u := CompilationUnit.ofString text
    let newline := (Text.newlineOf u.source.toBytes).toList
    ∃ ts done, Run settings u.source.toBytes (begun u file) ts done ∧
      ts.map Turn.site = innermostFirst (callSites u file).1 ∧
      (∀ t ∈ ts, t.outcome.converted = true ↔
        ∃ elementType, t.site.elementType = .ok elementType) ∧
      ∀ t ∈ ts, ∀ replacement, t.outcome.result = .ok replacement →
        ∀ n ∈ Node.preorderAll (Java.parse text.toList).children, n.is .stringLiteral = true →
          t.site.start ≤ n.start → n.stop ≤ t.site.stop → InCallbacks file text ts t.site n →
            ∃ literal moves, u.source.slice n.start n.stop = encodeChars literal ∧
              Passage settings file text ts n.start n.stop t moves ∧
              (∀ move ∈ moves, ∀ c ∈ move.1, isIndent c = true) ∧
              carriedThrough newline moves literal <:+: replacement.text.toList ∧
              ('\n' ∉ literal → carriedThrough newline moves literal = literal) ∧
              (isTextBlock literal = true → Laid literal →
                (literalValue (carriedThrough newline moves literal) = literalValue literal ↔
                  KeepsMargins newline moves literal)) := by
  intro u newline
  obtain ⟨ts, done, course⟩ := exists_course clean settings file
  refine ⟨ts, done, course.run, course.sites, fun t ht => (course.settled t ht).converted_iff, ?_⟩
  intro t ht replacement result n inText is first last inside
  obtain ⟨front, literal, back, split, start, stop, ⟨body, quoted⟩, block⟩ :=
    Java.exists_literal clean inText is
  obtain ⟨c, hc, inTree⟩ := Node.mem_preorderAll.1 inText
  have empty := ((Node.belongs_of_mem_parse clean hc).inside inTree).string_leaf is
  have converted : t.outcome.converted = true := by rw [Outcome.converted, result]
  obtain ⟨moves, passes⟩ := course.exists_passes clean inText empty ht converted
    (inside.held clean is) first last
  obtain ⟨e, before, after, edit, same⟩ := course.exists_of_passes clean valid passes ht split start
    (by omega) (quoted ▸ Java.tight_literal body)
  obtain ⟨_, found, rfl⟩ := Turn.edit?_eq_some_iff.1 edit
  rw [result] at found
  cases found
  have slice : u.source.slice n.start n.stop = encodeChars literal := by
    rw [show u.source = Source.ofString text from rfl, Source.slice_eq, Source.toBytes_ofString,
      Text.encode_eq, split]
    exact Text.encodeChars_between start stop
  have spaced := course.of_mem_passes (fun _ h => h) indents passes ht
  refine ⟨literal, moves, slice, passes, spaced, ⟨before, after, ?_⟩, fun inLine => ?_,
    fun opens laid => ?_⟩
  · rw [List.append_assoc]
    exact same.symm
  · have whole : literal = ('"' :: body) ++ ['"'] := by rw [quoted, List.cons_append]
    rw [whole] at inLine ⊢
    exact Listener.carriedThrough_of_inLine (by decide) fun mem =>
      inLine (List.mem_append_left _ mem)
  · have plain : PlainBlock literal := { toLaid := laid, quoted := block opens }
    exact plain.literalValue_carriedThrough_iff (toList_newlineOf_cases _) spaced

/-- A text block in a callback, each line of which is indented alike. -/
def textBlockText : String :=
  "package reactor.core.publisher;\nclass C \x7b\n  void f(Mono<String> m) \x7b\n" ++
  "    m.doAfterSuccessOrError((v, e) -> \x7b\n      g(v, \"\"\"\n        a\n        b\n" ++
  "        \"\"\");\n    \x7d);\n  \x7d\n\x7d\n"

set_option maxRecDepth 100000 in
theorem convert_keeps_text_block :
    let u := CompilationUnit.ofString textBlockText
    u.hasSyntaxErrors = false ∧ Settings.Valid default ∧
      (∀ c ∈ Settings.indent default |>.toList, isIndent c = true) ∧
      ∃ site ∈ (callSites u "C.java").1, ∃ replacement : Replacement, ∃ literal moved,
        u.source.slice 120 155 = encodeChars literal ∧ isTextBlock literal = true ∧
        moved <:+: replacement.text.toList ∧ literalValue moved = literalValue literal := by
  intro u
  have quick : u = .ofCharsOf textBlockText := CompilationUnit.ofString_eq_ofCharsOf _
  obtain ⟨clean, known, alone, held⟩ : u.hasSyntaxErrors = false ∧
      (callSites u "C.java").1.map (·.elementType.isOk) = [true] ∧
      (eligibleCalls u).length = 1 ∧ (eligibleCalls u).all (fun call =>
        (callbackParts u.source (callbackOf call.node)).toOption.any fun parts =>
          (Node.preorderAll parts.2.children).any fun n =>
            n.is .stringLiteral && n.start == 120 && n.stop == 155) = true := by
    rw [quick]
    decide +kernel
  have valid : Settings.Valid default := Settings.valid_default
  have indents : ∀ c ∈ Settings.indent default |>.toList, isIndent c = true :=
    List.all_eq_true.1 (by decide +kernel)
  obtain ⟨site, single⟩ := List.length_eq_one_iff.1
    (show (callSites u "C.java").1.length = 1 by rw [← List.length_map, known]; rfl)
  have listed : site ∈ (callSites u "C.java").1 := single ▸ List.mem_singleton_self site
  have ok : site.elementType.isOk = true :=
    List.mem_singleton.1 (known ▸ List.mem_map_of_mem listed)
  refine ⟨clean, valid, indents, site, listed, ?_⟩
  obtain ⟨ts, done, _, same, converted, moves⟩ :=
    convert_moves_literals default "C.java" textBlockText clean valid indents
  obtain ⟨t, ht, rfl, replacement, result⟩ := exists_turn same converted listed ok
  obtain ⟨call, parameters, block, isSite⟩ := exists_isSite listed
  have found := List.all_eq_true.1 held call isSite.eligible
  rw [isSite.parts] at found
  obtain ⟨n, inBlock, place⟩ := List.any_eq_true.1 found
  simp only [Bool.and_eq_true, beq_iff_eq] at place
  obtain ⟨⟨is, start⟩, stop⟩ := place
  have inText : n ∈ Node.preorderAll (Java.parse textBlockText.toList).children := by
    obtain ⟨c, hc, inTree⟩ := Node.mem_preorderAll.1 (isCall_of_mem_eligibleCalls clean
      isSite.eligible).2
    refine Node.mem_preorderAll.2 ⟨c, hc, ?_⟩
    exact Node.mem_preorder_of_inside (Node.mem_preorder_of_inside inTree isSite.inside) inBlock
  have bounds := isSite.bounds clean
  have range := (isSite.belongs clean).placed.bounds inBlock
  have inside : InCallbacks "C.java" textBlockText ts t.site n := by
    intro _ _ _ _ _ _ _ _ _ _ otherSite
    obtain ⟨_, same, _⟩ := isSite.unique alone otherSite
    exact same ▸ inBlock
  obtain ⟨literal, moves, slice, _, spaced, infixed, _, kept⟩ :=
    moves t ht replacement result n inText is (by omega) (by omega) inside
  rw [start, stop] at slice
  have exact : u.source.slice 120 155 =
      encodeChars "\"\"\"\n        a\n        b\n        \"\"\"".toList := by
    decide +kernel
  have same := Text.encodeChars_injective (slice.symm.trans exact)
  subst same
  have indented : ((Java.countedLines (Java.contentLines
      "\"\"\"\n        a\n        b\n        \"\"\"".toList)).all fun line =>
        (Java.leading line).all isIndent) = true := by
    decide +kernel
  have laid : Laid "\"\"\"\n        a\n        b\n        \"\"\"".toList := by
    refine ⟨Java.paired_of_not_mem (by decide), ?_, by decide +kernel⟩
    intro line counted
    exact List.all_eq_true.1 (List.all_eq_true.1 indented line counted)
  have plain : PlainBlock "\"\"\"\n        a\n        b\n        \"\"\"".toList :=
    { toLaid := laid, quoted := ⟨"\n        a\n        b\n        ".toList, by decide⟩ }
  exact ⟨replacement, _, _, slice, by decide +kernel, infixed, (kept (by decide +kernel) laid).2
    (plain.keepsMargins_of_spread_eq_zero (toList_newlineOf_cases _) spaced (by decide +kernel))⟩

end MonoTap
