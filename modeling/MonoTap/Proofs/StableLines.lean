import MonoTap.Proofs.ListedFiles
import MonoTap.Proofs.RenderedLines

/-!
# Moving a statement once more

A statement that has been moved to an indentation of spaces and tabs stays as it is when it is moved
there again: its first line has no blanks but the indentation to lose, and every other line that is not
blank loses just the indentation and gets it back. The first move takes the spaces and tabs at the start
of a line, as many as the statement was indented by, or all of them if there are fewer.
-/

set_option autoImplicit false

namespace MonoTap.Text

variable {cs line : List Char} {i : Nat}

/-- A piece of a text is a part of it. -/
theorem mem_of_mem_splitAt {sep c : Char} {piece : List Char} (h : piece ∈ splitAt sep cs) (hc : c ∈ piece) :
    c ∈ cs := by
  obtain ⟨front, back, split⟩ := List.append_of_mem h
  obtain ⟨before, after, joined⟩ :=
    exists_joinWith_append [sep] (List.cons_ne_nil piece []) front back
  rw [List.singleton_append, ← split, joinWith_splitAt] at joined
  rw [joined]
  exact List.mem_append_right _ (List.mem_append_left _ hc)

theorem trimRight_cons_of_ne_nil (some : trimRight cs ≠ []) (c : Char) :
    trimRight (c :: cs) = c :: trimRight cs := by
  rw [trimRight]
  split
  · rename_i none
    exact (some none).elim
  · rfl

/-- A text is what is left of it without the blanks at its end, and these blanks. -/
theorem exists_trimRight_append (cs : List Char) :
    ∃ blanks, cs = trimRight cs ++ blanks ∧ allBlank blanks = true := by
  induction cs with
  | nil => exact ⟨[], rfl, rfl⟩
  | cons c cs ih =>
    obtain ⟨blanks, split, blank⟩ := ih
    by_cases none : trimRight cs = []
    · rw [none, List.nil_append] at split
      cases first : isBlank c with
      | true =>
        refine ⟨c :: cs, by rw [trimRight, none, first]; rfl, ?_⟩
        rw [allBlank, List.all_cons, first, split]
        exact blank
      | false =>
        refine ⟨blanks, ?_, blank⟩
        rw [trimRight_cons_of_not_blank first, none, split]
        rfl
    · refine ⟨blanks, ?_, blank⟩
      rw [trimRight_cons_of_ne_nil none, List.cons_append, ← split]

theorem trimRight_eq_nil_iff : trimRight cs = [] ↔ allBlank cs = true := by
  constructor
  · intro none
    obtain ⟨blanks, split, blank⟩ := exists_trimRight_append cs
    rw [split, none]
    exact blank
  · exact trimRight_of_allBlank

/-- The lines that are not blank are those of the text without the blanks at its end. -/
theorem exists_line_of_trimRight (found : (splitAt '\n' cs)[i]? = some line)
    (solid : trimRight line ≠ []) :
    ∃ kept, (splitAt '\n' (trimRight cs))[i]? = some kept ∧ trimRight kept = trimRight line := by
  obtain ⟨blanks, whole, blank⟩ := exists_trimRight_append cs
  obtain ⟨lines, last, front⟩ := exists_splitAt_eq_concat '\n' (trimRight cs)
  obtain ⟨first, rest, back⟩ := exists_splitAt_eq_cons '\n' blanks
  have blankPiece : ∀ piece ∈ first :: rest, allBlank piece = true := by
    intro piece mem
    refine List.all_eq_true.2 fun c hc => List.all_eq_true.1 blank c ?_
    exact mem_of_mem_splitAt (back ▸ mem) hc
  rw [whole, splitAt_append front back] at found
  rw [front]
  rcases Nat.lt_trichotomy i lines.length with before | rfl | after
  · rw [List.getElem?_append_left before] at found
    exact ⟨line, by rw [List.getElem?_append_left before]; exact found, rfl⟩
  · rw [List.getElem?_append_right (Nat.le_refl _), Nat.sub_self] at found
    cases found
    refine ⟨last, by simp, ?_⟩
    exact (trimRight_append_of_allBlank last (blankPiece first List.mem_cons_self)).symm
  · -- all that comes later is blank
    rw [List.getElem?_append_right (Nat.le_of_lt after)] at found
    obtain ⟨j, hj⟩ : ∃ j, i - lines.length = j + 1 := ⟨i - lines.length - 1, by omega⟩
    rw [hj, List.getElem?_cons_succ] at found
    have gone := trimRight_of_allBlank
      (blankPiece line (List.mem_cons_of_mem _ (List.mem_of_getElem? found)))
    exact (solid gone).elim

end MonoTap.Text

namespace MonoTap.Listener

open Text (allBlank isBlank isIndent joinWith splitAt trim trimRight)

variable {start text line : List Char} {indent : Nat}

/-! ### One line -/

/-- Blanks at the end are no indentation, unless there is nothing else. -/
theorem indentWidth_trimRight (solid : trimRight line ≠ []) :
    indentWidth (trimRight line) = indentWidth line := by
  unfold indentWidth
  induction line with
  | nil => rfl
  | cons c cs ih =>
    cases first : isIndent c with
    | false =>
      obtain ⟨rest, kept⟩ : ∃ rest, trimRight (c :: cs) = c :: rest := by
        have split := Text.prefix_trimRight (c :: cs)
        obtain ⟨d, rest, same⟩ := List.exists_cons_of_ne_nil solid
        rw [same] at split ⊢
        exact ⟨rest, by rw [(List.cons_prefix_cons.1 split).1]⟩
      rw [kept, List.takeWhile_cons_of_neg (by rw [first]; decide),
        List.takeWhile_cons_of_neg (by rw [first]; decide)]
    | true =>
      have some : trimRight cs ≠ [] := by
        intro none
        rw [trimRight, none, Text.isBlank_of_isIndent first] at solid
        exact solid rfl
      rw [Text.trimRight_cons_of_ne_nil some, List.takeWhile_cons_of_pos first,
        List.takeWhile_cons_of_pos first, List.length_cons, List.length_cons, ih some]

/-- A line that is not blank loses of its indentation what the statement had, or all there is. -/
theorem moveLine_of_solid (solid : trimRight line ≠ []) :
    moveLine start indent line =
      start ++ (trimRight line).drop (min indent (indentWidth line)) := by
  rw [moveLine]
  split
  · rename_i none
    exact (solid none).elim
  · rw [dropIndent_eq_drop, indentWidth_trimRight solid]

theorem indentWidth_append (indents : ∀ c ∈ start, isIndent c = true) (line : List Char) :
    indentWidth (start ++ line) = start.length + indentWidth line := by
  rw [indentWidth, indentWidth, List.takeWhile_append_of_pos indents, List.length_append]

/-- Under an indentation of spaces and tabs, just that indentation is taken away. -/
theorem dropIndent_append (indents : ∀ c ∈ start, isIndent c = true) (line : List Char) :
    dropIndent start.length (start ++ line) = line := by
  rw [dropIndent_eq_drop, indentWidth_append indents, Nat.min_eq_left (Nat.le_add_right _ _),
    List.drop_left]

/-- A line that has been moved stays where it is. -/
theorem moveLine_moveLine (indents : ∀ c ∈ start, isIndent c = true) (line : List Char) :
    moveLine start start.length (moveLine start indent line) = moveLine start indent line := by
  by_cases blank : trimRight line = []
  · rw [moveLine, moveLine, blank]
    rfl
  · -- the line ends with a character that is no blank, and keeps it
    obtain ⟨ds, d, split, solid⟩ :=
      Text.exists_of_trimRight_eq_self (Text.trimRight_trimRight line) blank
    have moved : moveLine start indent line = start ++ (dropIndent indent ds ++ [d]) := by
      rw [moveLine]
      split
      · rename_i none
        exact (blank none).elim
      · rw [split, dropIndent_append_cons (isIndent_of_not_isBlank solid)]
    rw [moved, ← List.append_assoc, moveLine_append_cons solid, dropIndent_append indents]
    rfl

/-! ### All lines -/

/-- A statement that is not blank ends with a line that is not, wherever it is moved. -/
theorem trimRight_joinWith_reindent (solid : trimRight text ≠ []) :
    trimRight (joinWith ['\n'] (reindent start indent text)) =
      joinWith ['\n'] (reindent start indent text) := by
  obtain ⟨ds, d, split, last⟩ :=
    Text.exists_of_trimRight_eq_self (Text.trimRight_trimRight text) solid
  have feed : '\n' ∉ [d] := by
    rw [List.mem_singleton]
    rintro rfl
    cases last
  obtain ⟨lines, line, whole⟩ := Text.exists_splitAt_append '\n' ds
  obtain ⟨before, move, moves, moved⟩ :=
    exists_reindent_split (split ▸ whole [d] feed : splitAt '\n' (trimRight text) = _)
  obtain ⟨opening, opened⟩ := exists_opening last moves line
  obtain ⟨front, joined⟩ :=
    Text.exists_joinWith_concat ['\n'] (opening ++ d :: trimRight []) before
  rw [moved, opened, List.map_nil, joined, ← List.append_assoc, Text.trimRight_append_cons last]
  rfl

theorem inLine_reindent (indents : ∀ c ∈ start, isIndent c = true) :
    ∀ moved ∈ reindent start indent text, '\n' ∉ moved := by
  obtain ⟨first, rest, moved, others, _, lines, carries, later⟩ :=
    isLaidOut_reindent indents indent text
  rw [lines]
  intro line hline
  rcases List.mem_cons.1 hline with rfl | hline
  · exact carries.inLine
  · obtain ⟨i, hi, found⟩ := List.getElem_of_mem hline
    have carried := later.get (later.length_eq ▸ hi) hi
    rw [List.get_eq_getElem, List.get_eq_getElem, found] at carried
    cases carried with
    | blank => exact List.not_mem_nil
    | solid _ carries => exact carries.inLine

/-- Moving the lines of a moved statement again changes none of them. -/
theorem reindent_reindent (indents : ∀ c ∈ start, isIndent c = true) :
    reindent start start.length (joinWith ['\n'] (reindent start indent text)) =
      reindent start indent text := by
  have blank := allBlank_of_indents indents
  by_cases none : trimRight text = []
  · -- of a blank statement the indentation is left
    have alone : reindent start indent text = [start] := by
      rw [reindent, none]
      exact congrArg ([·]) (List.append_nil start)
    rw [alone, reindent, show joinWith ['\n'] [start] = start from rfl,
      Text.trimRight_of_allBlank blank]
    exact congrArg ([·]) (List.append_nil start)
  · have whole := Text.splitAt_joinWith (reindent_ne_nil start indent text) (inLine_reindent indents)
    rw [reindent, trimRight_joinWith_reindent none, whole]
    obtain ⟨first, rest, split⟩ := Text.exists_splitAt_eq_cons '\n' (trimRight text)
    rw [reindent, split]
    dsimp only
    rw [Text.trim_append_of_allBlank blank, Text.trim_trim, List.map_map]
    exact congrArg (_ :: ·) (List.map_congr_left fun line _ => moveLine_moveLine indents line)

/-- Every line but the first that is not blank is moved. -/
theorem getElem?_reindent {i : Nat} (found : (splitAt '\n' text)[i + 1]? = some line)
    (solid : trimRight line ≠ []) :
    (reindent start indent text)[i + 1]? =
      some (start ++ (trimRight line).drop (min indent (indentWidth line))) := by
  obtain ⟨kept, here, same⟩ := Text.exists_line_of_trimRight found solid
  obtain ⟨first, rest, split⟩ := Text.exists_splitAt_eq_cons '\n' (trimRight text)
  rw [split, List.getElem?_cons_succ] at here
  rw [reindent, split]
  dsimp only
  rw [List.getElem?_cons_succ, List.getElem?_map, here, Option.map_some,
    moveLine_of_solid (same ▸ solid), same, ← indentWidth_trimRight (same ▸ solid), same,
    indentWidth_trimRight solid]

theorem indentWidth_drop {n : Nat} (h : n ≤ indentWidth line) :
    indentWidth (line.drop n) + n = indentWidth line := by
  unfold indentWidth at h ⊢
  induction line generalizing n with
  | nil => simpa using h
  | cons c cs ih =>
    cases n with
    | zero => rfl
    | succ n =>
      by_cases first : isIndent c = true
      · rw [List.takeWhile_cons_of_pos first, List.length_cons] at h ⊢
        rw [List.drop_succ_cons, ← Nat.add_assoc, ih (Nat.le_of_succ_le_succ h)]
      · rw [List.takeWhile_cons_of_neg first] at h
        cases h

/-- Moving the lines of a moved statement to the same place again changes none of them. Every line of a
statement but the first, if it is not blank, loses at its start just as many spaces and tabs as the
statement was indented by, or all it has if there are fewer. So the lines that are indented by no less
than the statement all move by the same width. -/
theorem moved_lines_are_stable (s : StatementText) (start : List Char)
    (indents : ∀ c ∈ start, isIndent c = true) :
    StatementText.lines ⟨String.ofList (joinWith ['\n'] (s.lines start)), start.length⟩ start =
        s.lines start ∧
      ∀ i line, (splitAt '\n' s.text.toList)[i + 1]? = some line → allBlank line = false →
        ∃ moved, (s.lines start)[i + 1]? = some moved ∧
          moved = start ++ (trimRight line).drop (min s.indent (indentWidth line)) ∧
          (s.indent ≤ indentWidth line →
            indentWidth moved + s.indent = start.length + indentWidth line) := by
  constructor
  · rw [StatementText.lines, String.toList_ofList]
    exact reindent_reindent indents
  · intro i line found notBlank
    have solid : trimRight line ≠ [] := fun none => by
      rw [Text.trimRight_eq_nil_iff, notBlank] at none
      cases none
    refine ⟨_, getElem?_reindent found solid, rfl, fun deep => ?_⟩
    have same := indentWidth_trimRight solid
    rw [Nat.min_eq_left deep, indentWidth_append indents, Nat.add_assoc,
      indentWidth_drop (same ▸ deep), same]

/-- A statement of five lines under tabs and spaces: one line is indented by less than the statement, one
is blank, and the first one begins with a space that is no indentation. -/
theorem moved_lines_are_stable_of_mixed :
    let s : StatementText := ⟨" f(a,\n      b, \n\n  c,\n    d); \n", 4⟩
    let start := ['\t', ' ']
    (∀ c ∈ start, isIndent c = true) ∧
      s.lines start = ["\t f(a,", "\t   b,", "", "\t c,", "\t d);"].map String.toList ∧
      StatementText.lines ⟨String.ofList (joinWith ['\n'] (s.lines start)), start.length⟩ start =
        s.lines start ∧
      allBlank "      b, ".toList = false ∧
      ∃ moved, (s.lines start)[1]? = some moved ∧ indentWidth moved + 4 = 2 + 6 := by
  intro s start
  have indents : ∀ c ∈ start, isIndent c = true := by simp [start, isIndent]
  have solid : allBlank "      b, ".toList = false := by decide
  obtain ⟨again, each⟩ := moved_lines_are_stable s start indents
  have found : (splitAt '\n' s.text.toList)[0 + 1]? = some "      b, ".toList := by decide +kernel
  obtain ⟨moved, here, _, width⟩ := each 0 _ found solid
  exact ⟨indents, by decide +kernel, again, solid, moved, here, width (by decide)⟩

end MonoTap.Listener
