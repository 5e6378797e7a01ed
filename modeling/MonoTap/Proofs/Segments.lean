import MonoTap.Proofs.Emission

/-!
# Parts of a statement

What becomes of a part of a statement when the statement is moved to another indentation. If the part
begins and ends with a character that is no blank, it stays together: its lines are moved one by one,
and what stands before it and after it does not matter.
-/

set_option autoImplicit false

namespace MonoTap.Text

/-! ### Splitting and joining -/

/-- The lines of a text after which another one is added: the last line goes on with the first line of
that one. -/
theorem splitAt_append {sep : Char} {front back last first : List Char}
    {lines rest : List (List Char)} (before : splitAt sep front = lines ++ [last])
    (after : splitAt sep back = first :: rest) :
    splitAt sep (front ++ back) = lines ++ (last ++ first) :: rest := by
  induction front generalizing lines last with
  | nil =>
    cases lines with
    | nil =>
      cases before
      exact after
    | cons line lines =>
      have none := congrArg List.length before
      simp [splitAt] at none
  | cons c front ih =>
    rw [splitAt] at before
    rw [List.cons_append, splitAt]
    split at before
    · rename_i same
      cases lines with
      | nil => exact (splitAt_ne_nil _ _ (List.cons.inj before).2).elim
      | cons line lines =>
        obtain ⟨rfl, others⟩ := List.cons.inj before
        rw [if_pos same, ih others]
        rfl
    · rename_i other
      rw [if_neg other]
      split at before
      · rename_i none
        exact (splitAt_ne_nil _ _ none).elim
      · rename_i piece pieces found
        cases lines with
        | nil =>
          obtain ⟨rfl, rfl⟩ := List.cons.inj before
          rw [ih (show splitAt sep front = [] ++ [piece] from found)]
          rfl
        | cons line lines =>
          obtain ⟨rfl, rfl⟩ := List.cons.inj before
          rw [ih (show splitAt sep front = (piece :: lines) ++ [last] from found)]
          rfl

theorem exists_splitAt_eq_cons (sep : Char) (cs : List Char) :
    ∃ first rest, splitAt sep cs = first :: rest := by
  cases split : splitAt sep cs with
  | nil => exact (splitAt_ne_nil _ _ split).elim
  | cons first rest => exact ⟨first, rest, rfl⟩

theorem exists_splitAt_eq_concat (sep : Char) (cs : List Char) :
    ∃ lines last, splitAt sep cs = lines ++ [last] := by
  exact ⟨_, _, (List.dropLast_concat_getLast (splitAt_ne_nil sep cs)).symm⟩

theorem joinWith_cons_cons (sep piece next : List Char) (pieces : List (List Char)) :
    joinWith sep (piece :: next :: pieces) = piece ++ sep ++ joinWith sep (next :: pieces) := rfl

theorem joinWith_cons_append (sep front line : List Char) (lines : List (List Char)) :
    joinWith sep ((front ++ line) :: lines) = front ++ joinWith sep (line :: lines) := by
  cases lines with
  | nil => rfl
  | cons next lines => simp only [joinWith_cons_cons, List.append_assoc]

/-- What comes before some lines. -/
theorem exists_joinWith_before (sep : List Char) (lines : List (List Char)) :
    ∃ front, ∀ line rest, joinWith sep (lines ++ line :: rest) = front ++ joinWith sep (line :: rest) := by
  induction lines with
  | nil => exact ⟨[], fun line rest => rfl⟩
  | cons first lines ih =>
    obtain ⟨front, joined⟩ := ih
    refine ⟨first ++ sep ++ front, fun line rest => ?_⟩
    have step : joinWith sep (first :: (lines ++ line :: rest)) =
        first ++ sep ++ joinWith sep (lines ++ line :: rest) := by
      cases lines <;> rfl
    rw [List.cons_append, step, joined, List.append_assoc _ front]

/-- What comes after some lines, the last of which goes on. -/
theorem joinWith_append_cons (sep last back : List Char) (lines rest : List (List Char)) :
    joinWith sep (lines ++ (last ++ back) :: rest) =
      joinWith sep (lines ++ [last]) ++ joinWith sep (back :: rest) := by
  obtain ⟨front, joined⟩ := exists_joinWith_before sep lines
  rw [joined, joined, joinWith_cons_append, List.append_assoc]
  rfl

/-- Some of several lines. -/
theorem exists_joinWith_append (sep : List Char) {lines : List (List Char)} (some : lines ≠ [])
    (front back : List (List Char)) :
    ∃ before after, joinWith sep (front ++ (lines ++ back)) =
      before ++ (joinWith sep lines ++ after) := by
  obtain ⟨before, joined⟩ := exists_joinWith_before sep front
  obtain ⟨init, last, rfl⟩ : ∃ init last, lines = init ++ [last] :=
    ⟨_, _, (List.dropLast_concat_getLast some).symm⟩
  refine ⟨before, joinWith sep ([] :: back), ?_⟩
  have whole : joinWith sep (init ++ [last] ++ back) =
      joinWith sep (init ++ [last]) ++ joinWith sep ([] :: back) := by
    rw [← joinWith_append_cons, List.append_nil, List.append_assoc]
    rfl
  cases init with
  | nil => rw [← whole]; exact joined _ _
  | cons line init => rw [← whole]; exact joined _ _

/-! ### Blanks at the ends -/

theorem trimLeft_append_cons {c : Char} (solid : isBlank c = false) (front cs : List Char) :
    trimLeft (front ++ c :: cs) = trimLeft front ++ c :: cs := by
  induction front with
  | nil => exact trimLeft_cons_of_not_blank solid cs
  | cons d front ih =>
    cases blank : isBlank d with
    | true => rw [List.cons_append, trimLeft_cons_of_blank blank, trimLeft_cons_of_blank blank, ih]
    | false =>
      rw [List.cons_append, trimLeft_cons_of_not_blank blank, trimLeft_cons_of_not_blank blank,
        List.cons_append]

theorem trimRight_of_allBlank {cs : List Char} (h : allBlank cs = true) : trimRight cs = [] := by
  induction cs with
  | nil => rfl
  | cons c cs ih =>
    rw [allBlank, List.all_cons, Bool.and_eq_true] at h
    rw [trimRight, ih h.2, h.1]
    rfl

/-- Blanks at the end go. -/
theorem trimRight_append_of_allBlank (cs : List Char) {back : List Char}
    (h : allBlank back = true) : trimRight (cs ++ back) = trimRight cs := by
  induction cs with
  | nil => exact trimRight_of_allBlank h
  | cons c cs ih => rw [List.cons_append, trimRight, trimRight, ih]

/-- A text without blanks at its end ends with a character that is none. -/
theorem exists_of_trimRight_eq_self {cs : List Char} (h : trimRight cs = cs) (some : cs ≠ []) :
    ∃ ds d, cs = ds ++ [d] ∧ isBlank d = false := by
  obtain ⟨ds, d, rfl⟩ := List.eq_nil_or_concat cs |>.resolve_left some
  rw [List.concat_eq_append] at h ⊢
  refine ⟨ds, d, rfl, ?_⟩
  cases blank : isBlank d with
  | false => rfl
  | true =>
    have less := congrArg List.length h
    rw [trimRight_append_of_allBlank ds (by rw [allBlank, List.all_cons, blank]; rfl)]
      at less
    have prefixed := (prefix_trimRight ds).length_le
    rw [List.length_append, List.length_singleton] at less
    omega

end MonoTap.Text

namespace MonoTap.Listener

open Text (allBlank isBlank isIndent joinWith splitAt trim trimLeft trimRight)

/-- A part of a statement, moved with it: its lines are moved one by one, and the first of them stays
in its line. -/
def carried (start newline : List Char) (indent : Nat) (part : List Char) : List Char :=
  match splitAt '\n' part with
  | [] => []
  | first :: rest => joinWith newline (trimRight first :: rest.map (moveLine start indent))

variable {start newline : List Char} {indent : Nat}

theorem carried_eq {part first : List Char} {rest : List (List Char)}
    (split : splitAt '\n' part = first :: rest) :
    carried start newline indent part =
      joinWith newline (trimRight first :: rest.map (moveLine start indent)) := by
  rw [carried, split]

/-- What is on one line and does not end with a blank stays as it is. -/
theorem carried_of_inLine {cs : List Char} {c : Char} (solid : isBlank c = false)
    (inLine : '\n' ∉ cs) : carried start newline indent (cs ++ [c]) = cs ++ [c] := by
  have feed : '\n' ∉ cs ++ [c] := by
    rw [List.mem_append, List.mem_singleton]
    rintro (mem | rfl)
    · exact inLine mem
    · cases solid
  rw [carried_eq (Text.splitAt_of_not_mem feed)]
  exact Text.trimRight_append_cons solid cs []

/-- Indentation goes before a character that is none, and no further. -/
theorem dropIndent_append_cons {c : Char} (solid : isIndent c = false) (n : Nat)
    (front cs : List Char) : dropIndent n (front ++ c :: cs) = dropIndent n front ++ c :: cs := by
  induction front generalizing n with
  | nil => cases n <;> simp [dropIndent, solid]
  | cons d front ih =>
    cases n with
    | zero => simp [dropIndent]
    | succ n =>
      by_cases h : isIndent d
      · simp [dropIndent, h, ih]
      · simp [dropIndent, h]

theorem isIndent_of_not_isBlank {c : Char} (solid : isBlank c = false) : isIndent c = false := by
  cases indent : isIndent c with
  | false => rfl
  | true =>
    rw [Text.isBlank_of_isIndent indent] at solid
    cases solid

theorem moveLine_append_cons {c : Char} (solid : isBlank c = false) (front cs : List Char) :
    moveLine start indent (front ++ c :: cs) =
      start ++ dropIndent indent front ++ c :: trimRight cs := by
  have trimmed := Text.trimRight_append_cons solid front cs
  unfold moveLine
  split
  · rename_i none
    rw [trimmed] at none
    cases front <;> cases none
  · rw [trimmed, dropIndent_append_cons (isIndent_of_not_isBlank solid), List.append_assoc]

/-- A line of a moved statement from a character on that is no blank. -/
theorem exists_opening {move : List Char → List Char} {c : Char} (solid : isBlank c = false)
    (moves : move = moveLine start indent ∨ move = fun line => start ++ trim line)
    (front : List Char) :
    ∃ before, ∀ cs, move (front ++ c :: cs) = before ++ c :: trimRight cs := by
  rcases moves with rfl | rfl
  · exact ⟨_, fun cs => moveLine_append_cons solid front cs⟩
  · refine ⟨start ++ trimLeft front, fun cs => ?_⟩
    show start ++ trim (front ++ c :: cs) = _
    rw [trim, Text.trimLeft_append_cons solid, Text.trimRight_append_cons solid, List.append_assoc]

/-- A line of a moved statement up to a character that is no blank. -/
theorem moveLine_concat_append {d : Char} (solid : isBlank d = false) (line back : List Char) :
    moveLine start indent (line ++ d :: back) =
      moveLine start indent (line ++ [d]) ++ trimRight back := by
  rw [moveLine_append_cons solid, moveLine_append_cons solid]
  simp [trimRight]

/-- The first line of a statement is moved in its own way, the others alike. -/
theorem exists_reindent_split {lines : List (List Char)} {line : List Char} {rest : List (List Char)}
    {text : List Char} (split : splitAt '\n' (trimRight text) = lines ++ line :: rest) :
    ∃ before move, (move = moveLine start indent ∨ move = fun line => start ++ trim line) ∧
      reindent start indent text = before ++ move line :: rest.map (moveLine start indent) := by
  rw [reindent, split]
  cases lines with
  | nil => exact ⟨[], _, Or.inr rfl, rfl⟩
  | cons first lines =>
    refine ⟨(start ++ trim first) :: lines.map (moveLine start indent), _, Or.inl rfl, ?_⟩
    simp

/-- A part of a text that begins and ends with a character that is no blank. -/
structure Tight (part : List Char) : Prop where
  opens : ∃ c cs, part = c :: cs ∧ isBlank c = false
  closes : ∃ ds d, part = ds ++ [d] ∧ isBlank d = false

variable {part : List Char}

/-- The lines of a part that begins and ends with a character that is no blank: the part is on one
line, or its first line begins so and its last line ends so. -/
theorem Tight.lines_cases (h : Tight part) :
    (splitAt '\n' part = [part] ∧ ∃ ds d, part = ds ++ [d] ∧ isBlank d = false) ∨
      ∃ c tail lines line d, splitAt '\n' part = (c :: tail) :: (lines ++ [line ++ [d]]) ∧
        isBlank c = false ∧ isBlank d = false := by
  obtain ⟨c, cs, first, opens⟩ := h.opens
  obtain ⟨ds, d, last, closes⟩ := h.closes
  obtain ⟨lines, line, dsSplit⟩ := Text.exists_splitAt_eq_concat '\n' ds
  have feed : '\n' ∉ [d] := by
    rw [List.mem_singleton]
    rintro rfl
    cases closes
  have split : splitAt '\n' part = lines ++ [line ++ [d]] := by
    rw [last, Text.splitAt_append dsSplit (Text.splitAt_of_not_mem feed)]
  cases lines with
  | nil =>
    left
    have alone := Text.joinWith_splitAt '\n' part
    rw [split] at alone
    exact ⟨by rw [split, show line ++ [d] = part from alone]; rfl, ds, d, last, closes⟩
  | cons firstLine lines =>
    right
    obtain ⟨tail, rfl⟩ : ∃ tail, firstLine = c :: tail := by
      rw [first, splitAt] at split
      split at split
      · rename_i same
        rw [beq_iff_eq] at same
        subst same
        cases opens
      · split at split
        · exact ⟨[], (List.cons.inj split).1.symm⟩
        · exact ⟨_, (List.cons.inj split).1.symm⟩
    exact ⟨c, tail, lines, line, d, split, opens, closes⟩

/-- A part of a statement that begins and ends with a character that is no blank is carried as it
would be alone. -/
theorem Tight.exists_reindent_eq (h : Tight part) (front back : List Char) :
    ∃ before after, joinWith newline (reindent start indent (front ++ (part ++ back))) =
      before ++ (carried start newline indent part ++ after) := by
  -- blanks at the end of the statement are not in the part
  have trimmed : trimRight (front ++ (part ++ back)) = front ++ (part ++ trimRight back) := by
    obtain ⟨ds, d, rfl, closes⟩ := h.closes
    have whole : front ++ (ds ++ [d] ++ back) = (front ++ ds) ++ d :: back := by simp
    rw [whole, Text.trimRight_append_cons closes]
    simp
  obtain ⟨lines, frontLast, frontSplit⟩ := Text.exists_splitAt_eq_concat '\n' front
  obtain ⟨backFirst, backRest, backSplit⟩ := Text.exists_splitAt_eq_cons '\n' (trimRight back)
  rcases h.lines_cases with
    ⟨partSplit, ds, d, last, closes⟩ | ⟨c, tail, partLines, partLast, d, partSplit, opens, closes⟩
  · have tailSplit := Text.splitAt_append (show splitAt '\n' part = [] ++ [part] from partSplit)
      backSplit
    have split := Text.splitAt_append frontSplit tailSplit
    rw [← trimmed] at split
    obtain ⟨before, move, moves, moved⟩ := exists_reindent_split split
    obtain ⟨c, cs, first, opens⟩ := h.opens
    obtain ⟨opening, opened⟩ := exists_opening opens moves frontLast
    obtain ⟨joined, whole⟩ := Text.exists_joinWith_before newline before
    have kept : trimRight part = part := last ▸ Text.trimRight_append_cons closes ds []
    have line : move (frontLast ++ (part ++ backFirst)) =
        opening ++ (part ++ trimRight backFirst) := by
      rw [first, List.cons_append, opened, ← Text.trimRight_cons_of_not_blank opens,
        ← List.cons_append, ← first, last, List.append_assoc]
      simp [Text.trimRight_append_cons closes]
    refine ⟨joined ++ opening, joinWith newline (trimRight backFirst ::
      backRest.map (moveLine start indent)), ?_⟩
    rw [moved, whole, line, carried_eq partSplit, kept, Text.joinWith_cons_append,
      Text.joinWith_cons_append, List.append_assoc]
    rfl
  · have tailSplit := Text.splitAt_append
      (show splitAt '\n' part = ((c :: tail) :: partLines) ++ [partLast ++ [d]] from partSplit)
      backSplit
    rw [List.cons_append] at tailSplit
    have split := Text.splitAt_append frontSplit tailSplit
    rw [← trimmed] at split
    obtain ⟨before, move, moves, moved⟩ := exists_reindent_split split
    obtain ⟨opening, opened⟩ := exists_opening opens moves frontLast
    obtain ⟨joined, whole⟩ := Text.exists_joinWith_before newline before
    refine ⟨joined ++ opening, joinWith newline (trimRight backFirst ::
      backRest.map (moveLine start indent)), ?_⟩
    rw [List.append_assoc, List.singleton_append] at moved
    rw [moved, whole, opened, Text.joinWith_cons_append, carried_eq partSplit, List.append_assoc,
      List.map_append, List.map_cons, moveLine_concat_append closes,
      ← Text.trimRight_cons_of_not_blank opens, ← List.cons_append, Text.joinWith_append_cons,
      List.map_append]
    rfl

/-- What is carried begins and ends as before. -/
theorem Tight.carried (h : Tight part) : Tight (carried start newline indent part) := by
  rcases h.lines_cases with
    ⟨split, ds, d, last, closes⟩ | ⟨c, tail, lines, line, d, split, opens, closes⟩
  · have kept : trimRight part = part := last ▸ Text.trimRight_append_cons closes ds []
    rw [carried_eq split, kept]
    exact h
  · rw [carried_eq split, List.map_append, List.map_singleton, moveLine_append_cons closes,
      Text.trimRight_cons_of_not_blank opens, ← List.cons_append]
    constructor
    · have first := Text.joinWith_cons_append newline [c] (trimRight tail)
        (lines.map (moveLine start indent) ++ [start ++ dropIndent indent line ++ d :: trimRight []])
      exact ⟨c, _, first, opens⟩
    · obtain ⟨front, joined⟩ := Text.exists_joinWith_concat newline
        (start ++ dropIndent indent line ++ d :: trimRight [])
        ((c :: trimRight tail) :: lines.map (moveLine start indent))
      exact ⟨front ++ (start ++ dropIndent indent line), d, by rw [joined]; simp [trimRight], closes⟩

/-! ### Parts of a listener -/

theorem reindent_ne_nil (start : List Char) (indent : Nat) (text : List Char) :
    reindent start indent text ≠ [] := by
  rw [reindent]
  split
  · rename_i none
    exact (Text.splitAt_ne_nil _ _ none).elim
  · exact List.cons_ne_nil _ _

section

open Callback (Bucket)

variable {layout : Layout} {names : Names} {bodies : Bucket → List StatementText}

theorem exists_membersLines_eq {order : List Bucket} {b : Bucket} (hb : b ∈ order) :
    ∃ front back, membersLines layout names bodies order =
      front ++ (methodLines layout names (bodies b) b ++ back) := by
  induction order with
  | nil => cases hb
  | cons c order ih =>
    cases order with
    | nil =>
      cases List.mem_singleton.1 hb
      exact ⟨[], [], by simp [membersLines]⟩
    | cons d order =>
      rcases List.mem_cons.1 hb with rfl | later
      · exact ⟨[], [] :: membersLines layout names bodies (d :: order), rfl⟩
      · obtain ⟨front, back, same⟩ := ih later
        refine ⟨methodLines layout names (bodies c) c ++ [] :: front, back, ?_⟩
        rw [membersLines, same, List.append_assoc, List.cons_append]
        exact fun none => by cases none

/-- A listener holds each statement of its methods, laid out in lines. -/
theorem exists_render_eq {b : Bucket} {s : StatementText} (hb : b ∈ layout.order)
    (hs : s ∈ bodies b) : ∃ before after, (render layout names bodies).toList =
      before ++ (joinWith layout.newline (s.lines layout.body) ++ after) := by
  obtain ⟨front, back, members⟩ := exists_membersLines_eq hb
  obtain ⟨before, after, statements⟩ := List.append_of_mem hs
  rw [render, String.toList_ofList, callLines, members, methodLines, statements,
    List.flatMap_append, List.flatMap_cons]
  have some : s.lines layout.body ≠ [] := reindent_ne_nil _ _ _
  obtain ⟨first, last, joined⟩ := Text.exists_joinWith_append layout.newline some
    ("tap(() -> new DefaultSignalListener<>() \x7b".toList :: front ++
      ((if layout.override then [layout.member ++ "@Override".toList] else []) ++
        [layout.member ++ ("public void " ++ b.method ++ "(" ++ names.parameter b ++
          ") \x7b").toList] ++ before.flatMap (·.lines layout.body)))
    (after.flatMap (·.lines layout.body) ++ [layout.member ++ ['}']] ++ back ++
      [layout.base ++ "\x7d)".toList])
  refine ⟨first, last, ?_⟩
  rw [← joined]
  simp only [List.append_assoc, List.cons_append]

end

/-! ### The lines of a part -/

/-- Without the blanks at its end, a part that begins with a character that is no blank ends with one
too. -/
theorem tight_trimRight {c : Char} (solid : isBlank c = false) (cs : List Char) :
    Tight (trimRight (c :: cs)) := by
  have first := Text.trimRight_cons_of_not_blank solid cs
  refine ⟨⟨c, trimRight cs, first, solid⟩, ?_⟩
  exact Text.exists_of_trimRight_eq_self (Text.trimRight_trimRight _)
    (first ▸ List.cons_ne_nil _ _)

theorem trim_append_of_allBlank (cs : List Char) {back : List Char} (h : allBlank back = true) :
    trim (cs ++ back) = trim cs := by
  rw [← Text.trim_trimRight, Text.trimRight_append_of_allBlank cs h, Text.trim_trimRight]

/-- Lines put together are the lines again, but for the blanks at their ends. -/
theorem map_trim_splitAt_joinWith (nl : newline = ['\n'] ∨ newline = ['\r', '\n'])
    {lines : List (List Char)} (some : lines ≠ []) (inLine : ∀ line ∈ lines, '\n' ∉ line) :
    (splitAt '\n' (joinWith newline lines)).map trim = lines.map trim := by
  induction lines with
  | nil => exact (some rfl).elim
  | cons line lines ih =>
    rw [List.forall_mem_cons] at inLine
    cases lines with
    | nil =>
      show (splitAt '\n' line).map trim = _
      rw [Text.splitAt_of_not_mem inLine.1]
    | cons next lines =>
      have rest := ih (List.cons_ne_nil _ _) inLine.2
      obtain ⟨back, plain, whole⟩ : ∃ back, allBlank back = true ∧ '\n' ∉ back ∧
          newline = back ++ ['\n'] := by
        rcases nl with rfl | rfl
        · exact ⟨[], rfl, List.not_mem_nil, rfl⟩
        · exact ⟨['\r'], rfl, by decide, rfl⟩
      have closed : '\n' ∉ line ++ back := fun mem =>
        (List.mem_append.1 mem).elim inLine.1 whole.1
      have split : splitAt '\n' (line ++ back ++ '\n' :: joinWith newline (next :: lines)) =
          (line ++ back) :: splitAt '\n' (joinWith newline (next :: lines)) := by
        have after : splitAt '\n' ('\n' :: joinWith newline (next :: lines)) =
            [] :: splitAt '\n' (joinWith newline (next :: lines)) := rfl
        have first : splitAt '\n' (line ++ back) = [] ++ [line ++ back] :=
          Text.splitAt_of_not_mem closed
        rw [Text.splitAt_append first after,
          List.append_nil]
        rfl
      have joined : joinWith newline (line :: next :: lines) =
          line ++ back ++ '\n' :: joinWith newline (next :: lines) := by
        have feed : line ++ newline = line ++ back ++ ['\n'] := by
          rw [List.append_assoc, ← whole.2]
        rw [Text.joinWith_cons_cons, feed, List.append_assoc _ ['\n']]
        rfl
      rw [joined, split, List.map_cons, rest, trim_append_of_allBlank line plain]
      rfl

theorem inLine_moveLine {line : List Char} (feed : '\n' ∉ start) (inLine : '\n' ∉ line) :
    '\n' ∉ moveLine start indent line := by
  unfold moveLine
  split
  · exact List.not_mem_nil
  · rename_i kept
    rw [List.mem_append, not_or, dropIndent_eq_drop]
    exact ⟨feed, fun mem => inLine (Text.mem_of_mem_trimRight (List.mem_of_mem_drop mem))⟩

/-- A part that is moved keeps its lines, but for the blanks at their ends. -/
theorem map_trim_carried (nl : newline = ['\n'] ∨ newline = ['\r', '\n'])
    (blank : allBlank start = true) (feed : '\n' ∉ start) (part : List Char) :
    (splitAt '\n' (carried start newline indent part)).map trim = (splitAt '\n' part).map trim := by
  obtain ⟨first, rest, split⟩ := Text.exists_splitAt_eq_cons '\n' part
  have inLine : ∀ line ∈ first :: rest, '\n' ∉ line := fun line hline =>
    Text.not_mem_of_mem_splitAt (split ▸ hline)
  rw [List.forall_mem_cons] at inLine
  rw [carried_eq split, map_trim_splitAt_joinWith nl (List.cons_ne_nil _ _), split, List.map_cons,
    List.map_cons, Text.trim_trimRight, List.map_map]
  · exact congrArg (_ :: ·) (List.map_congr_left fun line _ => trim_moveLine blank indent line)
  · refine List.forall_mem_cons.2 ⟨fun mem => inLine.1 (Text.mem_of_mem_trimRight mem), ?_⟩
    intro moved hmoved
    obtain ⟨line, hline, rfl⟩ := List.mem_map.1 hmoved
    exact inLine_moveLine feed (inLine.2 line hline)

/-! ### Several moves -/

/-- A part of a statement that is moved several times, each time to another text at the start of its
lines and from another indentation. -/
def carriedThrough (newline : List Char) : List (List Char × Nat) → List Char → List Char
  | [], part => part
  | (start, indent) :: moves, part =>
    carriedThrough newline moves (carried start newline indent part)

theorem carriedThrough_concat (newline : List Char) (moves : List (List Char × Nat))
    (start : List Char) (indent : Nat) (part : List Char) :
    carriedThrough newline (moves ++ [(start, indent)]) part =
      carried start newline indent (carriedThrough newline moves part) := by
  induction moves generalizing part with
  | nil => rfl
  | cons move moves ih => exact ih _

variable {moves : List (List Char × Nat)}

/-- What is on one line and does not end with a blank stays as it is, however often it is moved. -/
theorem carriedThrough_of_inLine {cs : List Char} {c : Char} (solid : isBlank c = false)
    (inLine : '\n' ∉ cs) : carriedThrough newline moves (cs ++ [c]) = cs ++ [c] := by
  induction moves with
  | nil => rfl
  | cons move moves ih => rw [carriedThrough, carried_of_inLine solid inLine, ih]

/-- A part that is moved several times keeps its lines, but for the blanks at their ends. -/
theorem map_trim_carriedThrough (nl : newline = ['\n'] ∨ newline = ['\r', '\n'])
    (plain : ∀ move ∈ moves, allBlank move.1 = true ∧ '\n' ∉ move.1) (part : List Char) :
    (splitAt '\n' (carriedThrough newline moves part)).map trim =
      (splitAt '\n' part).map trim := by
  induction moves generalizing part with
  | nil => rfl
  | cons move moves ih =>
    rw [List.forall_mem_cons] at plain
    rw [carriedThrough, ih plain.2, map_trim_carried nl plain.1.1 plain.1.2]

theorem Tight.carriedThrough (h : Tight part) : Tight (carriedThrough newline moves part) := by
  induction moves generalizing part with
  | nil => exact h
  | cons move moves ih => exact ih h.carried

end MonoTap.Listener
