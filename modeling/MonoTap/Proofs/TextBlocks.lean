import Mathlib.Algebra.Order.BigOperators.Group.List
import Mathlib.Algebra.Order.Group.Nat
import Mathlib.Algebra.Ring.Nat
import Mathlib.Data.List.DropRight
import Mathlib.Data.List.Forall2
import MonoTap.Proofs.Segments

/-!
# Text blocks

The value of a string literal. That of a text block is its lines after the opening one, without the
indentation that they share and without white space at their ends. Moving a text block to another
indentation keeps its value exactly if none of its lines is indented less than the statement, or if
its lines are indented alike.
-/

set_option autoImplicit false

namespace MonoTap.Java

open Listener (carriedThrough dropIndent indentWidth moveLine)
open Text (isBlank isIndent joinWith splitAt trimRight)

/-! ### White space -/

/-- Whether a character is white space in Java: blank, but neither the next-line character nor a space
that joins what is beside it. -/
def isWhite (c : Char) : Bool :=
  isBlank c && !([0x85, 0xA0, 0x2007, 0x202F].contains c.toNat)

/-- The white space that a line begins with. -/
def leading (line : List Char) : List Char :=
  line.takeWhile isWhite

/-- A line without white space at its end. -/
def stripEnd (line : List Char) : List Char :=
  line.rdropWhile isWhite

/-- A line without white space at its two ends. -/
def strip (line : List Char) : List Char :=
  stripEnd (line.dropWhile isWhite)

theorem isWhite_of_isIndent {c : Char} (h : isIndent c = true) : isWhite c = true := by
  rw [isIndent, Bool.or_eq_true, beq_iff_eq, beq_iff_eq] at h
  rcases h with rfl | rfl <;> rfl

theorem isBlank_of_isWhite {c : Char} (h : isWhite c = true) : isBlank c = true := by
  rw [isWhite, Bool.and_eq_true] at h
  exact h.1

/-! ### Lines -/

/-- The lines of a text. A line ends at a line feed, a carriage return, or the two together. -/
def linesOf : List Char → List (List Char)
  | [] => [[]]
  | '\r' :: '\n' :: cs => [] :: linesOf cs
  | c :: cs =>
    if c == '\n' || c == '\r' then [] :: linesOf cs
    else
      match linesOf cs with
      | [] => [[c]]
      | line :: lines => (c :: line) :: lines

/-- Whether a string literal is a text block. -/
def isTextBlock (literal : List Char) : Bool :=
  "\"\"\"".toList.isPrefixOf literal

/-- The lines of a text block after the opening one, without the closing quotes. -/
def contentLines (literal : List Char) : List (List Char) :=
  (linesOf (literal.take (literal.length - 3))).tail

/-- The lines whose indentation counts: those that are not blank, and the last one. -/
def countedLines (lines : List (List Char)) : List (List Char) :=
  lines.dropLast.filter (fun line => !line.all isWhite) ++ lines.getLast?.toList

/-- The number of characters of indentation that the lines of a text block share. -/
def margin (lines : List (List Char)) : Nat :=
  ((countedLines lines).map fun line => (leading line).length).min?.getD 0

/-- The lines of a text block without the indentation that they share, and without white space at
their ends. -/
def valueLines (lines : List (List Char)) : List (List Char) :=
  lines.map fun line => stripEnd (line.drop (margin lines))

/-- The value of a string literal, line by line, before escapes are read. -/
def literalValue (literal : List Char) : List (List Char) :=
  if isTextBlock literal then valueLines (contentLines literal) else [literal]

/-! ### The parts of a line -/

variable {line start : List Char} {indent n : Nat}

theorem leading_append_dropWhile (line : List Char) :
    leading line ++ line.dropWhile isWhite = line :=
  List.takeWhile_append_dropWhile

theorem isWhite_of_mem_leading {c : Char} (h : c ∈ leading line) : isWhite c = true :=
  List.all_eq_true.1 List.all_takeWhile c h

theorem exists_of_not_blank (h : line.all isWhite = false) :
    ∃ c cs, isWhite c = false ∧ line.dropWhile isWhite = c :: cs := by
  cases rest : line.dropWhile isWhite with
  | nil =>
    rw [List.dropWhile_eq_nil_iff] at rest
    rw [List.all_eq_true.2 rest] at h
    cases h
  | cons c cs =>
    have stops := List.head?_dropWhile_not isWhite line
    rw [rest] at stops
    exact ⟨c, cs, by simpa using stops, rfl⟩

theorem stripEnd_append {front back : List Char} (h : stripEnd back ≠ []) :
    stripEnd (front ++ back) = front ++ stripEnd back := by
  unfold stripEnd List.rdropWhile at h ⊢
  rw [List.reverse_append, List.dropWhile_append]
  have full : (back.reverse.dropWhile isWhite).isEmpty = false := by
    rw [List.isEmpty_eq_false_iff]
    exact fun none => h (by rw [none]; rfl)
  rw [full, if_neg Bool.false_ne_true, List.reverse_append, List.reverse_reverse]

theorem stripEnd_eq_nil_iff : stripEnd line = [] ↔ line.all isWhite = true := by
  rw [stripEnd, List.rdropWhile_eq_nil_iff, List.all_eq_true]

theorem strip_ne_nil (h : line.all isWhite = false) : strip line ≠ [] := by
  obtain ⟨c, cs, solid, rest⟩ := exists_of_not_blank h
  rw [strip, rest, Ne, stripEnd_eq_nil_iff, List.all_cons, solid]
  exact Bool.false_ne_true

/-- What is left of a line that is not blank, without some of the white space at its start. -/
theorem stripEnd_drop (h : line.all isWhite = false) (within : n ≤ (leading line).length) :
    stripEnd (line.drop n) = (leading line).drop n ++ strip line := by
  conv => lhs; rw [← leading_append_dropWhile line]
  rw [List.drop_append_of_le_length within, stripEnd_append (strip_ne_nil h), strip]

theorem stripEnd_of_not_blank (h : line.all isWhite = false) :
    stripEnd line = leading line ++ strip line :=
  stripEnd_drop h (Nat.zero_le _)

theorem exists_strip_eq_cons (h : line.all isWhite = false) :
    ∃ c cs, isWhite c = false ∧ strip line = c :: cs := by
  obtain ⟨c, cs, solid, rest⟩ := exists_of_not_blank h
  have kept := List.rdropWhile_prefix isWhite (l := c :: cs)
  have some := strip_ne_nil h
  rw [strip, rest] at some ⊢
  cases trimmed : stripEnd (c :: cs) with
  | nil => exact (some trimmed).elim
  | cons d ds =>
    have first : d :: ds <+: c :: cs := trimmed ▸ kept
    rw [List.cons_prefix_cons] at first
    exact ⟨d, ds, first.1 ▸ solid, rfl⟩

theorem stripEnd_strip (line : List Char) : stripEnd (strip line) = strip line :=
  List.rdropWhile_idempotent isWhite _

/-- White space before what is no white space. -/
theorem leading_append {white cs : List Char} {c : Char} (all : ∀ x ∈ white, isWhite x = true)
    (solid : isWhite c = false) : leading (white ++ c :: cs) = white := by
  rw [leading, List.takeWhile_append_of_pos all, List.takeWhile_cons, solid]
  exact List.append_nil _

theorem leading_of_all {white : List Char} (all : ∀ x ∈ white, isWhite x = true) :
    leading white = white :=
  List.takeWhile_eq_self_iff.2 all

/-! ### The margin -/

variable {body : List (List Char)} {last : List Char}

theorem countedLines_concat (body : List (List Char)) (last : List Char) :
    countedLines (body ++ [last]) = body.filter (fun line => !line.all isWhite) ++ [last] := by
  rw [countedLines, List.dropLast_concat, List.getLast?_concat]
  rfl

theorem margin_concat (body : List (List Char)) (last : List Char) :
    (((countedLines (body ++ [last])).map fun line => (leading line).length).min? =
      some (margin (body ++ [last]))) := by
  cases found : ((countedLines (body ++ [last])).map fun line => (leading line).length).min? with
  | none =>
    rw [List.min?_eq_none_iff, List.map_eq_nil_iff, countedLines_concat] at found
    cases List.append_ne_nil_of_right_ne_nil _ (List.cons_ne_nil last []) found
  | some m => rw [margin, found, Option.getD_some]

theorem margin_le (h : line ∈ countedLines (body ++ [last])) :
    margin (body ++ [last]) ≤ (leading line).length := by
  have least := (List.min?_eq_some_iff.1 (margin_concat body last)).2
  exact least _ (List.mem_map_of_mem h)

theorem exists_margin_eq (body : List (List Char)) (last : List Char) :
    ∃ line ∈ countedLines (body ++ [last]), (leading line).length = margin (body ++ [last]) :=
  List.mem_map.1 (List.min?_eq_some_iff.1 (margin_concat body last)).1

/-- Lines whose leading white space changes in one way, the more of it the more is left. -/
theorem margin_map {f : Nat → Nat} (mono : ∀ a b, a ≤ b → f a ≤ f b) {body' : List (List Char)}
    {last' : List Char}
    (leads : (countedLines (body' ++ [last'])).map (fun line => (leading line).length) =
      (countedLines (body ++ [last])).map fun line => f (leading line).length) :
    margin (body' ++ [last']) = f (margin (body ++ [last])) := by
  apply Nat.le_antisymm
  · obtain ⟨line, counted, least⟩ := exists_margin_eq body last
    have mem := List.mem_map_of_mem (f := fun line => f (leading line).length) counted
    rw [← leads] at mem
    obtain ⟨moved, counted', same⟩ := List.mem_map.1 mem
    rw [← least, ← show (leading moved).length = f (leading line).length from same]
    exact margin_le counted'
  · obtain ⟨moved, counted', least⟩ := exists_margin_eq body' last'
    have mem := List.mem_map_of_mem (f := fun line => (leading line).length) counted'
    rw [leads] at mem
    obtain ⟨line, counted, same⟩ := List.mem_map.1 mem
    rw [← least, ← show f (leading line).length = (leading moved).length from same]
    exact mono _ _ (margin_le counted)

/-! ### Shifted lines -/

/-- A line with `n` characters less of its leading white space, and without white space at its end. -/
def valueLine (n : Nat) (line : List Char) : List Char :=
  if line.all isWhite then [] else (leading line).drop n ++ strip line

/-- A line moved to another indentation. -/
def shifted (start : List Char) (indent : Nat) (line : List Char) : List Char :=
  if line.all isWhite then [] else start ++ (leading line).drop indent ++ strip line

/-- The last line of a text block, before the closing quotes, moved to another indentation. -/
def shiftedLast (start : List Char) (indent : Nat) (line : List Char) : List Char :=
  start ++ (leading line).drop indent ++ line.dropWhile isWhite

theorem mem_countedLines (h : line ∈ body ++ [last]) (solid : line.all isWhite = false) :
    line ∈ countedLines (body ++ [last]) := by
  rw [countedLines_concat]
  rcases List.mem_append.1 h with h | h
  · exact List.mem_append_left _ (List.mem_filter.2 ⟨h, by rw [solid]; rfl⟩)
  · exact List.mem_append_right _ h

theorem stripEnd_drop_eq_valueLine (within : line.all isWhite = false → n ≤ (leading line).length) :
    stripEnd (line.drop n) = valueLine n line := by
  rw [valueLine]
  split
  · rename_i blank
    rw [stripEnd_eq_nil_iff, List.all_eq_true]
    exact fun c hc => List.all_eq_true.1 blank c (List.mem_of_mem_drop hc)
  · rename_i solid
    rw [Bool.not_eq_true] at solid
    exact stripEnd_drop solid (within solid)

theorem valueLines_concat (body : List (List Char)) (last : List Char) :
    valueLines (body ++ [last]) = (body ++ [last]).map (valueLine (margin (body ++ [last]))) :=
  List.map_congr_left fun _ hline => stripEnd_drop_eq_valueLine fun solid =>
    margin_le (mem_countedLines hline solid)

section

variable (white : ∀ c ∈ start, isWhite c = true)
include white

theorem isWhite_of_mem_start {c : Char} (h : c ∈ start ++ (leading line).drop indent) :
    isWhite c = true := by
  rcases List.mem_append.1 h with h | h
  · exact white c h
  · exact isWhite_of_mem_leading (List.mem_of_mem_drop h)

theorem leading_shifted (solid : line.all isWhite = false) :
    (shifted start indent line).all isWhite = false ∧
      leading (shifted start indent line) = start ++ (leading line).drop indent ∧
      strip (shifted start indent line) = strip line := by
  obtain ⟨c, cs, first, rest⟩ := exists_strip_eq_cons solid
  have moved : shifted start indent line = start ++ (leading line).drop indent ++ c :: cs := by
    rw [shifted, solid, if_neg Bool.false_ne_true, rest]
  have before : ∀ x ∈ start ++ (leading line).drop indent, isWhite x = true :=
    fun x => isWhite_of_mem_start white
  refine ⟨?_, ?_, ?_⟩
  · rw [moved, List.all_append, List.all_cons, first, Bool.false_and, Bool.and_false]
  · rw [moved, leading_append before first]
  · rw [strip, moved, List.dropWhile_append_of_pos before, List.dropWhile_cons, first,
      if_neg Bool.false_ne_true, ← rest, stripEnd_strip]

theorem leading_shiftedLast :
    (shiftedLast start indent line).all isWhite = line.all isWhite ∧
      leading (shiftedLast start indent line) = start ++ (leading line).drop indent ∧
      strip (shiftedLast start indent line) = strip line := by
  have before : ∀ x ∈ start ++ (leading line).drop indent, isWhite x = true :=
    fun x => isWhite_of_mem_start white
  cases blank : line.all isWhite with
  | true =>
    have none : line.dropWhile isWhite = [] :=
      List.dropWhile_eq_nil_iff.2 (List.all_eq_true.1 blank)
    have moved : shiftedLast start indent line = start ++ (leading line).drop indent := by
      rw [shiftedLast, none, List.append_nil]
    rw [moved]
    refine ⟨List.all_eq_true.2 before, leading_of_all before, ?_⟩
    rw [strip, strip, none, List.dropWhile_eq_nil_iff.2 before]
  | false =>
    obtain ⟨c, cs, first, rest⟩ := exists_of_not_blank blank
    have moved : shiftedLast start indent line = start ++ (leading line).drop indent ++ c :: cs := by
      rw [shiftedLast, rest]
    rw [moved]
    refine ⟨?_, leading_append before first, ?_⟩
    · rw [List.all_append, List.all_cons, first, Bool.false_and, Bool.and_false]
    · rw [strip, strip, List.dropWhile_append_of_pos before, List.dropWhile_cons, first,
        if_neg Bool.false_ne_true, rest]

theorem margin_shifted (body : List (List Char)) (last : List Char) :
    margin (body.map (shifted start indent) ++ [shiftedLast start indent last]) =
      start.length + (margin (body ++ [last]) - indent) := by
  apply margin_map (f := fun n => start.length + (n - indent)) (fun a b le => by omega)
  have length (line : List Char) :
      (start ++ (leading line).drop indent).length = start.length + ((leading line).length - indent) := by
    rw [List.length_append, List.length_drop]
  rw [countedLines_concat, countedLines_concat, List.map_append, List.map_append, List.map_singleton,
    List.map_singleton, (leading_shiftedLast white).2.1, length]
  refine congrArg (· ++ _) ?_
  -- lines that are blank stay blank, and others do not become so
  induction body with
  | nil => rfl
  | cons line body ih =>
    rw [List.map_cons, List.filter_cons, List.filter_cons]
    cases blank : line.all isWhite with
    | true =>
      have none : shifted start indent line = [] := by rw [shifted, blank, if_pos rfl]
      rw [none]
      exact ih
    | false =>
      obtain ⟨solid, lead, _⟩ := leading_shifted white blank
      rw [solid, Bool.not_false, if_pos rfl, if_pos rfl, List.map_cons, List.map_cons, lead, length, ih]

/-- The value of moved lines: each loses the indentation that all share, and at least as much as the
statement had. -/
theorem valueLines_shifted (body : List (List Char)) (last : List Char) :
    valueLines (body.map (shifted start indent) ++ [shiftedLast start indent last]) =
      (body ++ [last]).map (valueLine (max indent (margin (body ++ [last])))) := by
  have drops (line : List Char) : (start ++ (leading line).drop indent).drop
      (start.length + (margin (body ++ [last]) - indent)) =
        (leading line).drop (max indent (margin (body ++ [last]))) := by
    rw [List.drop_append, List.drop_eq_nil_of_le (Nat.le_add_right _ _), List.nil_append,
      List.drop_drop, show indent + (start.length + (margin (body ++ [last]) - indent) -
        start.length) = max indent (margin (body ++ [last])) by omega]
  rw [valueLines_concat, margin_shifted white, List.map_append, List.map_append, List.map_map,
    List.map_singleton, List.map_singleton]
  congr 1
  · refine List.map_congr_left fun line hline => ?_
    show valueLine _ (shifted start indent line) = _
    cases blank : line.all isWhite with
    | true =>
      have none : shifted start indent line = [] := by rw [shifted, blank, if_pos rfl]
      rw [none, valueLine, valueLine, blank]
      rfl
    | false =>
      obtain ⟨solid, lead, core⟩ := leading_shifted white blank
      rw [valueLine, valueLine, solid, blank, if_neg Bool.false_ne_true, if_neg Bool.false_ne_true,
        lead, core, drops]
  · obtain ⟨same, lead, core⟩ := leading_shiftedLast white
    rw [valueLine, valueLine, same, lead, core, drops]

end

/-! ### When the value is kept -/

/-- Whether no line of a text block loses more of its indentation than all its lines share, when the
statement that it stands in had the given indentation. -/
def KeepsMargin (indent : Nat) (lines : List (List Char)) : Prop :=
  ∀ line ∈ lines, line.all isWhite = false → min indent (leading line).length ≤ margin lines

instance (indent : Nat) (lines : List (List Char)) : Decidable (KeepsMargin indent lines) :=
  inferInstanceAs (Decidable (∀ line ∈ lines, line.all isWhite = false → _ ≤ margin lines))

/-- The number of characters of indentation in a value. -/
def spread (lines : List (List Char)) : Nat :=
  (lines.map fun line => (leading line).length).sum

theorem length_leading_valueLine (n : Nat) (line : List Char) :
    (leading (valueLine n line)).length =
      if line.all isWhite then 0 else (leading line).length - n := by
  rw [valueLine]
  split
  · rfl
  · rename_i solid
    rw [Bool.not_eq_true] at solid
    obtain ⟨c, cs, first, rest⟩ := exists_strip_eq_cons solid
    rw [rest, leading_append (fun x hx => isWhite_of_mem_leading (List.mem_of_mem_drop hx)) first,
      List.length_drop]

theorem valueLine_max_eq (h : line.all isWhite = false → min indent (leading line).length ≤ n) :
    valueLine (max indent n) line = valueLine n line := by
  rw [valueLine, valueLine]
  split
  · rfl
  · rename_i solid
    rw [Bool.not_eq_true] at solid
    have least := h solid
    have either : indent ≤ n ∨ (leading line).length ≤ n := by omega
    rcases either with le | le
    · rw [Nat.max_eq_right le]
    · rw [List.drop_eq_nil_of_le le, List.drop_eq_nil_of_le (show _ ≤ max indent n by omega)]

/-- Sums of numbers that are at most as great, one by one, and are equal. -/
theorem eq_of_sum_eq {α : Type} {l : List α} {f g : α → Nat} (le : ∀ a ∈ l, f a ≤ g a)
    (same : (l.map f).sum = (l.map g).sum) : ∀ a ∈ l, f a = g a := by
  induction l with
  | nil => exact fun a ha => (List.not_mem_nil ha).elim
  | cons b l ih =>
    rw [List.forall_mem_cons] at le
    have others := List.sum_le_sum le.2
    rw [List.map_cons, List.map_cons, List.sum_cons, List.sum_cons] at same
    rw [List.forall_mem_cons]
    exact ⟨by omega, ih le.2 (by omega)⟩

theorem spread_map_valueLine_le (lines : List (List Char)) (indent n : Nat) :
    spread (lines.map (valueLine (max indent n))) ≤ spread (lines.map (valueLine n)) := by
  rw [spread, spread, List.map_map, List.map_map]
  refine List.sum_le_sum fun line _ => ?_
  rw [Function.comp, Function.comp, length_leading_valueLine, length_leading_valueLine]
  split <;> omega

/-- If as much indentation is left as before, no line has lost more than all share. -/
theorem keepsMargin_of_spread_eq {lines : List (List Char)}
    (same : spread (lines.map (valueLine (max indent (margin lines)))) =
      spread (lines.map (valueLine (margin lines)))) : KeepsMargin indent lines := by
  rw [spread, spread, List.map_map, List.map_map] at same
  have each := eq_of_sum_eq (fun line _ => by
    rw [Function.comp, Function.comp, length_leading_valueLine, length_leading_valueLine]
    split <;> omega) same
  intro line hline solid
  have one := each line hline
  rw [Function.comp, Function.comp, length_leading_valueLine, length_leading_valueLine, solid,
    if_neg Bool.false_ne_true, if_neg Bool.false_ne_true] at one
  omega

/-! ### Lines and line ends -/

theorem linesOf_ne_nil (cs : List Char) : linesOf cs ≠ [] := by
  fun_cases linesOf cs <;> simp_all

theorem inLine_of_mem_linesOf {cs : List Char} (h : line ∈ linesOf cs) :
    '\n' ∉ line ∧ '\r' ∉ line := by
  fun_induction linesOf cs generalizing line with
  | case1 =>
    cases List.mem_singleton.1 h
    exact ⟨List.not_mem_nil, List.not_mem_nil⟩
  | case2 cs ih =>
    rcases List.mem_cons.1 h with rfl | h
    · exact ⟨List.not_mem_nil, List.not_mem_nil⟩
    · exact ih h
  | case3 c cs _ ends ih =>
    rcases List.mem_cons.1 h with rfl | h
    · exact ⟨List.not_mem_nil, List.not_mem_nil⟩
    · exact ih h
  | case4 c cs _ _ none ih => exact (linesOf_ne_nil _ none).elim
  | case5 c cs _ inLine first lines found ih =>
    simp only [Bool.or_eq_true, beq_iff_eq, not_or] at inLine
    rcases List.mem_cons.1 h with rfl | h
    · obtain ⟨feed, carriage⟩ := ih (found ▸ List.mem_cons_self)
      simp only [List.mem_cons, not_or]
      exact ⟨⟨Ne.symm inLine.1, feed⟩, Ne.symm inLine.2, carriage⟩
    · exact ih (found ▸ List.mem_cons_of_mem _ h)

/-- The lines of lines that are joined. -/
theorem linesOf_joinWith {newline : List Char} (nl : newline = ['\n'] ∨ newline = ['\r', '\n'])
    {lines : List (List Char)} (some : lines ≠ [])
    (inLine : ∀ line ∈ lines, '\n' ∉ line ∧ '\r' ∉ line) :
    linesOf (joinWith newline lines) = lines := by
  have step (line : List Char) (inLine : '\n' ∉ line ∧ '\r' ∉ line) (first : List Char)
      (rest : List (List Char)) (cs : List Char) (split : linesOf cs = first :: rest) :
      linesOf (line ++ cs) = (line ++ first) :: rest := by
    induction line with
    | nil => exact split
    | cons c line ih =>
      simp only [List.mem_cons, not_or] at inLine
      have further := ih ⟨inLine.1.2, inLine.2.2⟩
      have plain : (c == '\n' || c == '\r') = false := by
        simp [Ne.symm inLine.1.1, Ne.symm inLine.2.1]
      rw [List.cons_append, linesOf, plain, if_neg Bool.false_ne_true, further]
      · rfl
      · rintro rest rfl
        exact (inLine.2.1 rfl).elim
  induction lines with
  | nil => exact (some rfl).elim
  | cons line lines ih =>
    rw [List.forall_mem_cons] at inLine
    cases lines with
    | nil =>
      have alone := step line inLine.1 [] [] [] rfl
      rwa [List.append_nil] at alone
    | cons next lines =>
      have rest := ih (List.cons_ne_nil _ _) inLine.2
      have feed : linesOf (newline ++ joinWith newline (next :: lines)) = [] :: next :: lines := by
        rcases nl with rfl | rfl
        · rw [List.cons_append, List.nil_append, linesOf, rest]
          · rfl
          · rintro _ ⟨⟩
        · rw [List.cons_append, List.cons_append, List.nil_append, linesOf, rest]
      rw [Text.joinWith_cons_cons, List.append_assoc, step line inLine.1 [] _ _ feed,
        List.append_nil]

/-- Whether each carriage return comes before a line feed. -/
def Paired (cs : List Char) : Prop :=
  ∀ front back, cs = front ++ '\r' :: back → ∃ rest, back = '\n' :: rest

theorem Paired.of_cons {c : Char} {cs : List Char} (h : Paired (c :: cs)) : Paired cs :=
  fun front back split => h (c :: front) back (by rw [split]; rfl)

theorem paired_of_not_mem {cs : List Char} (h : '\r' ∉ cs) : Paired cs := by
  rintro front back rfl
  exact (h (List.mem_append_right _ List.mem_cons_self)).elim

theorem Paired.of_append_left {front back : List Char} (h : Paired (front ++ back))
    (feed : '\n' ∉ back) : Paired front := by
  rintro before after rfl
  obtain ⟨rest, same⟩ := h before (after ++ back) (by simp)
  cases after with
  | nil =>
    rw [List.nil_append] at same
    exact (feed (same ▸ List.mem_cons_self)).elim
  | cons d after =>
    cases same
    exact ⟨_, rfl⟩

/-- The pieces between line feeds are the lines, but for carriage returns at their ends. -/
theorem forall₂_linesOf {cs : List Char} (h : Paired cs) :
    List.Forall₂ (fun piece line => piece = line ∨ piece = line ++ ['\r']) (splitAt '\n' cs)
      (linesOf cs) := by
  fun_induction linesOf cs with
  | case1 => exact .cons (Or.inl rfl) .nil
  | case2 cs ih =>
    have rest := ih h.of_cons.of_cons
    exact .cons (Or.inr rfl) rest
  | case3 c cs other ends ih =>
    rw [Bool.or_eq_true, beq_iff_eq, beq_iff_eq] at ends
    rcases ends with rfl | rfl
    · exact .cons (Or.inl rfl) (ih h.of_cons)
    · obtain ⟨rest, same⟩ := h [] cs rfl
      exact (other rest rfl same).elim
  | case4 c cs _ _ none ih => exact (linesOf_ne_nil _ none).elim
  | case5 c cs _ inLine first lines found ih =>
    simp only [Bool.or_eq_true, beq_iff_eq, not_or] at inLine
    have rest := ih h.of_cons
    rw [found] at rest
    have other : (c == '\n') = false := beq_false_of_ne inLine.1
    rw [splitAt, other, if_neg Bool.false_ne_true]
    cases split : splitAt '\n' cs with
    | nil => exact (Text.splitAt_ne_nil _ _ split).elim
    | cons piece pieces =>
      rw [split] at rest
      cases rest with
      | cons head tail =>
        refine .cons ?_ tail
        rcases head with rfl | rfl
        · exact Or.inl rfl
        · exact Or.inr rfl

/-! ### Text blocks that are moved -/

/-- Three quotes. -/
def quotes : List Char := ['"', '"', '"']

/-- A text as the layout of a file has it, if it is a text block: each carriage return comes before a
line feed, the lines whose indentation counts are indented by spaces and tabs, and no line ends with a
blank that is no white space. -/
structure Laid (literal : List Char) : Prop where
  paired : Paired literal
  indents : ∀ line ∈ countedLines (contentLines literal), ∀ c ∈ leading line, isIndent c = true
  ends : ∀ line ∈ (contentLines literal).dropLast, trimRight line = stripEnd line

/-- A text block as the layout of a file has it. -/
structure PlainBlock (literal : List Char) : Prop extends Laid literal where
  quoted : ∃ inside, literal = quotes ++ (inside ++ quotes)

theorem PlainBlock.isTextBlock {literal : List Char} (h : PlainBlock literal) :
    isTextBlock literal = true := by
  obtain ⟨inside, rfl⟩ := h.quoted
  rfl

theorem contentLines_eq (opened : List Char) :
    contentLines (opened ++ quotes) = (linesOf opened).tail := by
  rw [contentLines, List.length_append, show quotes.length = 3 from rfl, Nat.add_sub_cancel,
    List.take_left]

theorem dropIndent_of_indents {white : List Char} (all : ∀ c ∈ white, isIndent c = true) (n : Nat) :
    dropIndent n white = white.drop n := by
  rw [Listener.dropIndent_eq_drop, indentWidth, List.takeWhile_eq_self_iff.2 all]
  rcases Nat.le_total n white.length with le | le
  · rw [Nat.min_eq_left le]
  · rw [Nat.min_eq_right le, List.drop_length, List.drop_eq_nil_of_le le]

theorem isIndent_of_not_isWhite {c : Char} (solid : isWhite c = false) : isIndent c = false := by
  cases indent : isIndent c with
  | false => rfl
  | true =>
    rw [isWhite_of_isIndent indent] at solid
    cases solid

/-- A line of a text block is moved as a line of code, with or without a carriage return at its end. -/
theorem moveLine_eq_shifted {piece : List Char}
    (ends : piece = line ∨ piece = line ++ ['\r']) (stripped : trimRight line = stripEnd line)
    (indents : line.all isWhite = false → ∀ c ∈ leading line, isIndent c = true) :
    moveLine start indent piece = shifted start indent line := by
  have trimmed : trimRight piece = stripEnd line := by
    rcases ends with rfl | rfl
    · exact stripped
    · rw [Text.trimRight_append_of_allBlank _ (by decide), stripped]
  rw [moveLine, trimmed, shifted]
  split
  · rename_i none
    rw [if_pos (stripEnd_eq_nil_iff.1 none)]
  · rename_i some
    have solid : line.all isWhite = false :=
      Bool.eq_false_iff.2 fun blank => some (stripEnd_eq_nil_iff.2 blank)
    obtain ⟨c, cs, first, core⟩ := exists_strip_eq_cons solid
    rw [solid, if_neg Bool.false_ne_true, stripEnd_of_not_blank solid, core,
      Listener.dropIndent_append_cons (isIndent_of_not_isWhite first),
      dropIndent_of_indents (indents solid), List.append_assoc]

/-- The last line of a text block is moved up to the closing quotes. -/
theorem moveLine_append_quotes (indents : ∀ c ∈ leading line, isIndent c = true) :
    moveLine start indent (line ++ quotes) = shiftedLast start indent line ++ quotes := by
  have moved : moveLine start indent (line ++ quotes) =
      start ++ dropIndent indent line ++ quotes := Listener.moveLine_append_cons (by decide) line _
  have dropped : dropIndent indent line = (leading line).drop indent ++ line.dropWhile isWhite := by
    cases rest : line.dropWhile isWhite with
    | nil =>
      have all : leading line = line := by
        have whole := leading_append_dropWhile line
        rwa [rest, List.append_nil] at whole
      rw [all] at indents ⊢
      rw [dropIndent_of_indents indents, List.append_nil]
    | cons c cs =>
      have first := List.head?_dropWhile_not isWhite line
      rw [rest] at first
      conv => lhs; rw [← leading_append_dropWhile line, rest]
      rw [Listener.dropIndent_append_cons (isIndent_of_not_isWhite (by simpa using first)),
        dropIndent_of_indents indents]
  rw [moved, dropped, shiftedLast]
  simp only [List.append_assoc]

/-- The inner lines of a text block are moved one by one. -/
theorem map_moveLine_eq {pieces lines : List (List Char)}
    (ends : List.Forall₂ (fun piece line => piece = line ∨ piece = line ++ ['\r']) pieces lines)
    (stripped : ∀ line ∈ lines, trimRight line = stripEnd line)
    (indents : ∀ line ∈ lines, line.all isWhite = false → ∀ c ∈ leading line, isIndent c = true) :
    pieces.map (moveLine start indent) = lines.map (shifted start indent) := by
  induction ends with
  | nil => rfl
  | cons one _ ih =>
    rw [List.forall_mem_cons] at stripped indents
    rw [List.map_cons, List.map_cons, moveLine_eq_shifted one stripped.1 indents.1,
      ih stripped.2 indents.2]

theorem inLine_shifted (feed : '\n' ∉ start ∧ '\r' ∉ start)
    (inLine : '\n' ∉ line ∧ '\r' ∉ line) :
    ('\n' ∉ shifted start indent line ∧ '\r' ∉ shifted start indent line) ∧
      '\n' ∉ shiftedLast start indent line ∧ '\r' ∉ shiftedLast start indent line := by
  have lead (c : Char) (h : c ∈ (leading line).drop indent) : c ∈ line :=
    (List.takeWhile_prefix _).subset (List.mem_of_mem_drop h)
  have rest (c : Char) (h : c ∈ line.dropWhile isWhite) : c ∈ line :=
    (List.dropWhile_suffix _).subset h
  have core (c : Char) (h : c ∈ strip line) : c ∈ line :=
    rest c ((List.rdropWhile_prefix _ _).subset h)
  have outside {c : Char} (atStart : c ∉ start) (inLine : c ∉ line) :
      c ∉ shifted start indent line ∧ c ∉ shiftedLast start indent line := by
    rw [shifted, shiftedLast]
    refine ⟨?_, fun mem => ?_⟩
    · split
      · exact List.not_mem_nil
      · intro mem
        rcases List.mem_append.1 mem with mem | mem
        · exact (List.mem_append.1 mem).elim atStart fun mem => inLine (lead c mem)
        · exact inLine (core c mem)
    · rcases List.mem_append.1 mem with mem | mem
      · exact (List.mem_append.1 mem).elim atStart fun mem => inLine (lead c mem)
      · exact inLine (rest c mem)
  have one := outside feed.1 inLine.1
  have two := outside feed.2 inLine.2
  exact ⟨⟨one.1, two.1⟩, one.2, two.2⟩

/-- A moved line ends with what is neither blank nor white space. -/
theorem trimRight_shifted (white : ∀ c ∈ start, isWhite c = true)
    (stripped : trimRight line = stripEnd line) :
    trimRight (shifted start indent line) = stripEnd (shifted start indent line) := by
  cases blank : line.all isWhite with
  | true =>
    rw [shifted, blank, if_pos rfl]
    rfl
  | false =>
    obtain ⟨solid, lead, core⟩ := leading_shifted white blank
    have whole := stripEnd_of_not_blank solid
    rw [lead, core] at whole
    have moved : shifted start indent line = start ++ (leading line).drop indent ++ strip line := by
      rw [shifted, blank, if_neg Bool.false_ne_true]
    rw [whole, moved]
    -- the last character is that of the line without the blanks at its end
    have kept : trimRight (leading line ++ strip line) = leading line ++ strip line := by
      rw [← stripEnd_of_not_blank blank, ← stripped, Text.trimRight_trimRight]
    obtain ⟨c, cs, _, rest⟩ := exists_strip_eq_cons blank
    obtain ⟨ds, d, split, last⟩ := Text.exists_of_trimRight_eq_self kept
      (List.append_ne_nil_of_right_ne_nil _ (strip_ne_nil blank))
    obtain ⟨es, same⟩ : ∃ es, strip line = es ++ [d] := by
      obtain ⟨es, e, hes⟩ := List.eq_nil_or_concat (strip line) |>.resolve_left (strip_ne_nil blank)
      rw [List.concat_eq_append] at hes
      rw [hes, ← List.append_assoc] at split
      have ends := (List.append_inj' split rfl).2
      exact ⟨es, by rw [hes, List.cons.inj ends |>.1]⟩
    rw [same, ← List.append_assoc, Text.trimRight_append_cons last]
    rfl

theorem Paired.prepend {front back : List Char} (none : '\r' ∉ front) (h : Paired back) :
    Paired (front ++ back) := by
  intro before after split
  rcases List.append_eq_append_iff.1 split with ⟨middle, rfl, rfl⟩ | ⟨middle, rfl, same⟩
  · exact h middle after rfl
  · cases middle with
    | nil => exact h [] after same.symm
    | cons d middle =>
      cases same
      exact (none (List.mem_append_right _ List.mem_cons_self)).elim

theorem paired_joinWith {newline : List Char} (nl : newline = ['\n'] ∨ newline = ['\r', '\n'])
    {lines : List (List Char)} (inLine : ∀ line ∈ lines, '\r' ∉ line) :
    Paired (joinWith newline lines) := by
  induction lines with
  | nil => exact paired_of_not_mem List.not_mem_nil
  | cons line lines ih =>
    rw [List.forall_mem_cons] at inLine
    cases lines with
    | nil => exact paired_of_not_mem inLine.1
    | cons next lines =>
      have rest := ih inLine.2
      rw [Text.joinWith_cons_cons, List.append_assoc]
      refine Paired.prepend inLine.1 ?_
      rcases nl with rfl | rfl
      · exact Paired.prepend (by decide) rest
      · intro front back split
        cases front with
        | nil =>
          cases split
          exact ⟨_, rfl⟩
        | cons d front =>
          cases front with
          | nil =>
            have same := (List.cons.inj (List.cons.inj split).2).1
            cases same
          | cons e front => exact rest front back (List.cons.inj (List.cons.inj split).2).2

/-- The first line of a text block goes on after the quotes. -/
theorem exists_splitAt_quotes (inside : List Char) :
    ∃ first rest, splitAt '\n' (quotes ++ inside) = (quotes ++ first) :: rest := by
  obtain ⟨first, rest, split⟩ := Text.exists_splitAt_eq_cons '\n' inside
  exact ⟨first, rest, Text.splitAt_append (show splitAt '\n' quotes = [] ++ [quotes] from by decide) split⟩

theorem isWhite_of_indents (indents : ∀ c ∈ start, isIndent c = true) :
    ∀ c ∈ start, isWhite c = true :=
  fun c hc => isWhite_of_isIndent (indents c hc)

theorem inLine_of_indents (indents : ∀ c ∈ start, isIndent c = true) :
    '\n' ∉ start ∧ '\r' ∉ start := by
  refine ⟨fun mem => ?_, fun mem => ?_⟩
  · cases indents _ mem
  · cases indents _ mem

/-- The lines of a text block of more than one line. -/
theorem PlainBlock.exists_lines {literal : List Char} (h : PlainBlock literal)
    (lines : contentLines literal ≠ []) :
    ∃ first pieces body last, splitAt '\n' literal =
        (quotes ++ first) :: (pieces ++ [last ++ quotes]) ∧
      contentLines literal = body ++ [last] ∧
      List.Forall₂ (fun piece line => piece = line ∨ piece = line ++ ['\r']) pieces body ∧
      ('\r' ∉ trimRight (quotes ++ first) ∧ '\n' ∉ trimRight (quotes ++ first)) ∧
      ∀ line ∈ body ++ [last], '\n' ∉ line ∧ '\r' ∉ line := by
  obtain ⟨inside, rfl⟩ := h.quoted
  have whole : quotes ++ (inside ++ quotes) = quotes ++ inside ++ quotes :=
    (List.append_assoc ..).symm
  have paired : Paired (quotes ++ inside) := (whole ▸ h.paired).of_append_left (by decide)
  rw [whole, contentLines_eq] at lines ⊢
  have related := forall₂_linesOf paired
  have outside : ∀ line ∈ linesOf (quotes ++ inside), '\n' ∉ line ∧ '\r' ∉ line :=
    fun line => inLine_of_mem_linesOf
  obtain ⟨first, rest, split⟩ := exists_splitAt_quotes inside
  have firstPiece : '\n' ∉ quotes ++ first :=
    Text.not_mem_of_mem_splitAt (split ▸ List.mem_cons_self)
  rw [split] at related
  cases found : linesOf (quotes ++ inside) with
  | nil => exact (linesOf_ne_nil _ found).elim
  | cons line others =>
    rw [found] at related lines outside
    rw [List.tail_cons] at lines ⊢
    obtain ⟨one, related⟩ := List.forall₂_cons.1 related
    obtain ⟨body, last, rfl⟩ : ∃ body last, others = body ++ [last] :=
      ⟨_, _, (List.dropLast_concat_getLast lines).symm⟩
    have inner := List.forall₂_take_append _ _ _ related
    have ends := List.forall₂_drop_append _ _ _ related
    obtain ⟨lastPiece, more, lastOne, none, dropped⟩ := List.forall₂_cons_right_iff.1 ends
    have rest_eq : rest = rest.take body.length ++ [lastPiece] := by
      cases none
      rw [← dropped, List.take_append_drop]
    -- no carriage return is the last character
    have same : lastPiece = last := by
      rcases lastOne with same | same
      · exact same
      · obtain ⟨front, joined⟩ := Text.exists_joinWith_concat ['\n'] lastPiece
          ((quotes ++ first) :: rest.take body.length)
        rw [List.cons_append, ← rest_eq, ← split, Text.joinWith_splitAt, same,
          ← List.append_assoc] at joined
        obtain ⟨_, impossible⟩ := paired _ [] joined
        cases impossible
    rw [List.forall_mem_cons] at outside
    refine ⟨first, rest.take body.length, body, last, ?_, rfl, inner, ⟨fun mem => ?_, fun mem => ?_⟩,
      outside.2⟩
    · have split' : splitAt '\n' (quotes ++ inside) =
          ((quotes ++ first) :: rest.take body.length) ++ [lastPiece] := by
        rw [split, List.cons_append, ← rest_eq]
      rw [Text.splitAt_append split' (Text.splitAt_of_not_mem (by decide)), same]
      rfl
    · rcases one with same | same
      · rw [same] at mem
        exact outside.1.2 (Text.mem_of_mem_trimRight mem)
      · rw [same, Text.trimRight_append_of_allBlank _ (by decide)] at mem
        exact outside.1.2 (Text.mem_of_mem_trimRight mem)
    · exact firstPiece (Text.mem_of_mem_trimRight mem)

/-- A text block on one line stays as it is. -/
theorem PlainBlock.carried_eq_self {literal newline : List Char} (h : PlainBlock literal)
    (oneLine : contentLines literal = []) :
    Listener.carried start newline indent literal = literal := by
  obtain ⟨inside, rfl⟩ := h.quoted
  have whole : quotes ++ (inside ++ quotes) = quotes ++ inside ++ quotes :=
    (List.append_assoc ..).symm
  have paired : Paired (quotes ++ inside) := (whole ▸ h.paired).of_append_left (by decide)
  have related := forall₂_linesOf paired
  obtain ⟨first, rest, split⟩ := exists_splitAt_quotes inside
  have none : rest = [] := by
    rw [whole, contentLines_eq] at oneLine
    cases found : linesOf (quotes ++ inside) with
    | nil => exact (linesOf_ne_nil _ found).elim
    | cons line others =>
      rw [found, List.tail_cons] at oneLine
      rw [split, found, oneLine, List.forall₂_cons, List.forall₂_nil_right_iff] at related
      exact related.2
  have feed : '\n' ∉ quotes ++ inside := by
    have alone := Text.joinWith_splitAt '\n' (quotes ++ inside)
    rw [split, none] at alone
    rw [← alone]
    exact Text.not_mem_of_mem_splitAt (split ▸ List.mem_cons_self)
  have closing : quotes ++ (inside ++ quotes) = (quotes ++ inside ++ ['"', '"']) ++ ['"'] := by
    rw [whole]
    simp [quotes]
  rw [closing]
  refine Listener.carried_of_inLine (by decide) fun mem => ?_
  rcases List.mem_append.1 mem with mem | mem
  · exact feed mem
  · revert mem
    decide

/-- The lines of a text block that is moved. -/
theorem PlainBlock.exists_moved {literal : List Char} (h : PlainBlock literal)
    (lines : contentLines literal ≠ []) (newline : List Char) (indent : Nat)
    (indents : ∀ c ∈ start, isIndent c = true) :
    ∃ first body last, contentLines literal = body ++ [last] ∧
      Listener.carried start newline indent literal = joinWith newline ((quotes ++ first) ::
        (body.map (shifted start indent) ++ [shiftedLast start indent last ++ quotes])) ∧
      ∀ line ∈ (quotes ++ first) ::
        (body.map (shifted start indent) ++ [shiftedLast start indent last]),
          '\n' ∉ line ∧ '\r' ∉ line := by
  obtain ⟨first, pieces, body, last, split, content, ends, opened, inLine⟩ := h.exists_lines lines
  have feed := inLine_of_indents indents
  have counted : ∀ line ∈ body, line.all isWhite = false → ∀ c ∈ leading line, isIndent c = true :=
    fun line hline solid => h.indents line
      (content ▸ mem_countedLines (List.mem_append_left _ hline) solid)
  have lastCounted : ∀ c ∈ leading last, isIndent c = true := h.indents last (by
    rw [content, countedLines_concat]
    exact List.mem_append_right _ List.mem_cons_self)
  have stripped : ∀ line ∈ body, trimRight line = stripEnd line := by
    have ends := h.ends
    rwa [content, List.dropLast_concat] at ends
  have quoted : trimRight (quotes ++ first) = quotes ++ trimRight first :=
    Text.trimRight_append_cons (c := '"') (by decide) ['"', '"'] first
  refine ⟨trimRight first, body, last, content, ?_, fun line hline => ?_⟩
  · rw [Listener.carried_eq split, List.map_append, List.map_singleton,
      map_moveLine_eq ends stripped counted, moveLine_append_quotes lastCounted, quoted]
  · rcases List.mem_cons.1 hline with rfl | hline
    · exact quoted ▸ opened.symm
    · rcases List.mem_append.1 hline with hline | hline
      · obtain ⟨old, hold, rfl⟩ := List.mem_map.1 hline
        exact (inLine_shifted feed (inLine old (List.mem_append_left _ hold))).1
      · cases List.mem_singleton.1 hline
        exact (inLine_shifted feed (inLine last (List.mem_append_right _ List.mem_cons_self))).2

/-- What a text block becomes when it is moved: a text block, of which the lines are moved one by one.
-/
theorem PlainBlock.carried {literal newline : List Char} (h : PlainBlock literal)
    (nl : newline = ['\n'] ∨ newline = ['\r', '\n'])
    (indents : ∀ c ∈ start, isIndent c = true) (indent : Nat) :
    PlainBlock (Listener.carried start newline indent literal) ∧
      ((contentLines literal = [] ∧ Listener.carried start newline indent literal = literal) ∨
        ∃ body last, contentLines literal = body ++ [last] ∧
          contentLines (Listener.carried start newline indent literal) =
            body.map (shifted start indent) ++ [shiftedLast start indent last]) := by
  by_cases lines : contentLines literal = []
  · have kept : Listener.carried start newline indent literal = literal := h.carried_eq_self lines
    rw [kept]
    exact ⟨h, Or.inl ⟨lines, rfl⟩⟩
  · obtain ⟨first, body, last, content, moved, plain⟩ := h.exists_moved lines newline indent indents
    have white := isWhite_of_indents indents
    have closed : Listener.carried start newline indent literal = joinWith newline ((quotes ++ first) ::
        (body.map (shifted start indent) ++ [shiftedLast start indent last])) ++ quotes := by
      rw [moved, ← List.cons_append, Text.joinWith_append_cons]
      rfl
    have now : contentLines (Listener.carried start newline indent literal) =
        body.map (shifted start indent) ++ [shiftedLast start indent last] := by
      rw [closed, contentLines_eq, linesOf_joinWith nl (List.cons_ne_nil _ _) plain, List.tail_cons]
    have spaces : ∀ line ∈ countedLines (contentLines literal),
        ∀ c ∈ start ++ (leading line).drop indent, isIndent c = true := by
      intro line counted c hc
      rcases List.mem_append.1 hc with hc | hc
      · exact indents c hc
      · exact h.indents line counted c (List.mem_of_mem_drop hc)
    refine ⟨⟨⟨?_, ?_, ?_⟩, ?_⟩, Or.inr ⟨body, last, content, now⟩⟩
    · rw [moved]
      refine paired_joinWith nl fun line hline => ?_
      rw [← List.cons_append] at hline
      rcases List.mem_append.1 hline with hline | hline
      · exact (plain line (by rw [← List.cons_append]; exact List.mem_append_left _ hline)).2
      · cases List.mem_singleton.1 hline
        rw [List.mem_append, not_or]
        refine ⟨(plain _ ?_).2, by decide⟩
        rw [← List.cons_append]
        exact List.mem_append_right _ List.mem_cons_self
    · rw [now, countedLines_concat]
      intro line counted
      rcases List.mem_append.1 counted with counted | counted
      · obtain ⟨mem, solid⟩ := List.mem_filter.1 counted
        obtain ⟨old, hold, rfl⟩ := List.mem_map.1 mem
        cases blank : old.all isWhite with
        | true =>
          rw [shifted, blank, if_pos rfl] at solid
          cases solid
        | false =>
          rw [(leading_shifted white blank).2.1]
          exact spaces old (content ▸ mem_countedLines (List.mem_append_left _ hold) blank)
      · cases List.mem_singleton.1 counted
        rw [(leading_shiftedLast white).2.1]
        refine spaces last ?_
        rw [content, countedLines_concat]
        exact List.mem_append_right _ List.mem_cons_self
    · rw [now, List.dropLast_concat]
      intro line hline
      obtain ⟨old, hold, rfl⟩ := List.mem_map.1 hline
      have ends := h.ends
      rw [content, List.dropLast_concat] at ends
      exact trimRight_shifted white (ends old hold)
    · refine ⟨joinWith newline (first ::
        (body.map (shifted start indent) ++ [shiftedLast start indent last])), ?_⟩
      rw [closed, Text.joinWith_cons_append, List.append_assoc]

/-- Moving a text block takes nothing but indentation from its value, and keeps the value exactly if no
line loses more than all lines share. -/
theorem PlainBlock.value_carried {literal newline : List Char} (h : PlainBlock literal)
    (nl : newline = ['\n'] ∨ newline = ['\r', '\n'])
    (indents : ∀ c ∈ start, isIndent c = true) (indent : Nat) :
    spread (literalValue (Listener.carried start newline indent literal)) ≤
        spread (literalValue literal) ∧
      (spread (literalValue (Listener.carried start newline indent literal)) =
        spread (literalValue literal) → KeepsMargin indent (contentLines literal)) ∧
      (KeepsMargin indent (contentLines literal) →
        literalValue (Listener.carried start newline indent literal) = literalValue literal) := by
  obtain ⟨plain, moved⟩ := h.carried nl indents indent
  rcases moved with ⟨none, same⟩ | ⟨body, last, content, moved⟩
  · rw [same, none]
    exact ⟨Nat.le_refl _, fun _ line hline => (List.not_mem_nil hline).elim, fun _ => rfl⟩
  · rw [literalValue, literalValue, plain.isTextBlock, h.isTextBlock, if_pos rfl, if_pos rfl, moved,
      valueLines_shifted (isWhite_of_indents indents), content, valueLines_concat]
    refine ⟨spread_map_valueLine_le _ _ _, keepsMargin_of_spread_eq, fun keeps => ?_⟩
    exact List.map_congr_left fun line hline => valueLine_max_eq (keeps line hline)

/-! ### Several moves -/

/-- Whether a text block loses no more than the indentation that its lines share in any of some
moves. -/
def KeepsMargins (newline : List Char) : List (List Char × Nat) → List Char → Prop
  | [], _ => True
  | (start, indent) :: moves, part =>
    KeepsMargin indent (contentLines part) ∧
      KeepsMargins newline moves (Listener.carried start newline indent part)

variable {newline literal : List Char} {moves : List (List Char × Nat)}

theorem PlainBlock.spread_carriedThrough_le (h : PlainBlock literal)
    (nl : newline = ['\n'] ∨ newline = ['\r', '\n'])
    (indents : ∀ move ∈ moves, ∀ c ∈ move.1, isIndent c = true) :
    spread (literalValue (carriedThrough newline moves literal)) ≤
      spread (literalValue literal) := by
  induction moves generalizing literal with
  | nil => exact Nat.le_refl _
  | cons move moves ih =>
    rw [List.forall_mem_cons] at indents
    have first := (h.value_carried nl indents.1 move.2).1
    exact Nat.le_trans (ih (h.carried nl indents.1 move.2).1 indents.2) first

/-- A text block keeps its value through some moves exactly if it does so in each of them: what one
move takes, no other gives back. -/
theorem PlainBlock.literalValue_carriedThrough_iff (h : PlainBlock literal)
    (nl : newline = ['\n'] ∨ newline = ['\r', '\n'])
    (indents : ∀ move ∈ moves, ∀ c ∈ move.1, isIndent c = true) :
    literalValue (carriedThrough newline moves literal) = literalValue literal ↔
      KeepsMargins newline moves literal := by
  induction moves generalizing literal with
  | nil => exact ⟨fun _ => trivial, fun _ => rfl⟩
  | cons move moves ih =>
    rw [List.forall_mem_cons] at indents
    have moved := (h.carried nl indents.1 move.2).1
    obtain ⟨less, kept, keeps⟩ := h.value_carried nl indents.1 move.2
    have further := ih moved indents.2
    have later := moved.spread_carriedThrough_le nl indents.2
    constructor
    · intro same
      have spreads := congrArg spread same
      have here : spread (literalValue (carriedThrough newline (move :: moves) literal)) ≤
          spread (literalValue (Listener.carried move.1 newline move.2 literal)) := later
      have margin := kept (by omega)
      exact ⟨margin, further.1 (same.trans (keeps margin).symm)⟩
    · rintro ⟨margin, margins⟩
      exact (further.2 margins).trans (keeps margin)

/-- A text block of which the lines are indented alike keeps its value wherever it is moved. -/
theorem PlainBlock.keepsMargins_of_spread_eq_zero (h : PlainBlock literal)
    (nl : newline = ['\n'] ∨ newline = ['\r', '\n'])
    (indents : ∀ move ∈ moves, ∀ c ∈ move.1, isIndent c = true)
    (flat : spread (literalValue literal) = 0) : KeepsMargins newline moves literal := by
  induction moves generalizing literal with
  | nil => trivial
  | cons move moves ih =>
    rw [List.forall_mem_cons] at indents
    obtain ⟨less, kept, _⟩ := h.value_carried nl indents.1 move.2
    exact ⟨kept (by omega), ih (h.carried nl indents.1 move.2).1 indents.2 (by omega)⟩

end MonoTap.Java
