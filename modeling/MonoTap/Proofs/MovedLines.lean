import Mathlib.Data.List.Forall2
import MonoTap.Proofs.Returns
import MonoTap.Proofs.Segments

/-!
# Listeners and carriage returns

The lines of a listener do not depend on how the lines of its statements end: what a carriage return
adds to a line goes with the blanks at its end. So a listener laid out in lines that end in both has a
carriage return before each line feed, and is otherwise the one laid out in lines that end in line feeds.
-/

set_option autoImplicit false

namespace MonoTap.Text

/-! ### Lines with carriage returns -/

theorem trimRight_crlf (cs : List Char) : trimRight (crlf cs) = crlf (trimRight cs) := by
  induction cs with
  | nil => rfl
  | cons c cs ih =>
    by_cases feed : c = '\n'
    · subst feed
      rw [crlf_cons_lineFeed, trimRight, trimRight, ih, trimRight]
      cases trimRight cs with
      | nil => rfl
      | cons d ds =>
        rw [crlf_cons_lineFeed]
        by_cases next : d = '\n'
        · rw [next, crlf_cons_lineFeed]
        · rw [crlf_cons next]
    · rw [crlf_cons feed, trimRight, ih, trimRight]
      cases trimRight cs with
      | nil =>
        show (if isBlank c then [] else [c]) = crlf (if isBlank c then [] else [c])
        split
        · rfl
        · rw [crlf_cons feed, crlf_nil]
      | cons d ds =>
        rw [crlf_cons feed]
        by_cases next : d = '\n'
        · rw [next, crlf_cons_lineFeed]
        · rw [crlf_cons next]

/-- Each line but the last ends in a carriage return. -/
theorem exists_splitAt_crlf (cs : List Char) :
    ∃ lines last, splitAt '\n' cs = lines ++ [last] ∧
      splitAt '\n' (crlf cs) = lines.map (· ++ ['\r']) ++ [last] := by
  induction cs with
  | nil => exact ⟨[], [], rfl, rfl⟩
  | cons c cs ih =>
    obtain ⟨lines, last, split, moved⟩ := ih
    by_cases feed : c = '\n'
    · subst feed
      refine ⟨[] :: lines, last, ?_, ?_⟩
      · rw [splitAt, if_pos (beq_self_eq_true _), split]
        rfl
      · rw [crlf_cons_lineFeed, splitAt, if_neg (by decide), splitAt,
          if_pos (beq_self_eq_true _), moved]
        rfl
    · have other : ¬ (c == '\n') = true := fun same => feed (beq_iff_eq.1 same)
      rw [crlf_cons feed, splitAt, if_neg other, splitAt, if_neg other, split, moved]
      cases lines with
      | nil => exact ⟨[], c :: last, rfl, rfl⟩
      | cons line lines => exact ⟨(c :: line) :: lines, last, rfl, rfl⟩

theorem trimRight_concat_return (line : List Char) : trimRight (line ++ ['\r']) = trimRight line :=
  trimRight_append_of_allBlank line (by decide)

theorem trim_concat_return (line : List Char) : trim (line ++ ['\r']) = trim line := by
  rw [← trim_trimRight, trimRight_concat_return, trim_trimRight]

/-- Lines joined by line feeds get carriage returns, or are joined by both. -/
theorem joinWith_crlf (lines : List (List Char)) :
    joinWith ['\r', '\n'] (lines.map crlf) = crlf (joinWith ['\n'] lines) := by
  induction lines with
  | nil => rfl
  | cons line lines ih =>
    cases lines with
    | nil => rfl
    | cons next lines =>
      rw [List.map_cons] at ih
      rw [List.map_cons, List.map_cons, joinWith_cons_cons, ih, joinWith_cons_cons, crlf_append,
        crlf_append]
      rfl

end MonoTap.Text

namespace MonoTap.Listener

open Callback (Bucket)
open Text (crlf crlfText joinWith splitAt trimRight)

/-! ### Statements -/

/-- A statement with a carriage return before each line feed, and possibly one at its end. -/
structure StatementText.Returned (before after : StatementText) : Prop where
  text : ∃ tail, after.text = crlfText before.text ++ tail ∧ (tail = "" ∨ tail = "\r")
  indent : after.indent = before.indent

theorem moveLine_concat_return (start : List Char) (indent : Nat) (line : List Char) :
    moveLine start indent (line ++ ['\r']) = moveLine start indent line := by
  rw [moveLine, Text.trimRight_concat_return, moveLine]

/-- The lines that a statement is laid out in have no carriage returns. -/
theorem reindent_crlf (start : List Char) (indent : Nat) (text : List Char) :
    reindent start indent (crlf text) = reindent start indent text := by
  obtain ⟨lines, last, split, moved⟩ := Text.exists_splitAt_crlf (trimRight text)
  rw [reindent, Text.trimRight_crlf, moved, reindent, split]
  cases lines with
  | nil => rfl
  | cons line lines =>
    show _ :: (lines.map (· ++ ['\r']) ++ [last]).map (moveLine start indent) =
      _ :: (lines ++ [last]).map (moveLine start indent)
    rw [Text.trim_concat_return, List.map_append, List.map_append, List.map_map]
    congr 2
    exact List.map_congr_left fun line _ => moveLine_concat_return start indent line

theorem StatementText.Returned.lines {before after : StatementText} (h : before.Returned after)
    (start : List Char) : after.lines start = before.lines start := by
  obtain ⟨tail, text, ends⟩ := h.text
  rw [StatementText.lines, h.indent, text, StatementText.lines, String.toList_append,
    Text.toList_crlfText]
  rcases ends with rfl | rfl
  · rw [String.toList_empty, List.append_nil, reindent_crlf]
  · have trimmed : reindent start before.indent (crlf before.text.toList ++ "\r".toList) =
        reindent start before.indent (crlf before.text.toList) := by
      rw [reindent, show "\r".toList = ['\r'] from rfl, Text.trimRight_concat_return, reindent]
    rw [trimmed, reindent_crlf]

/-- No line of a statement holds a line feed. -/
theorem inLine_of_mem_lines {s : StatementText} {start line : List Char} (feed : '\n' ∉ start)
    (h : line ∈ s.lines start) : '\n' ∉ line := by
  rw [StatementText.lines, reindent] at h
  split at h
  · cases h
  · rename_i first rest split
    have inLine : ∀ piece ∈ first :: rest, '\n' ∉ piece := fun piece hp =>
      Text.not_mem_of_mem_splitAt (split ▸ hp)
    rcases List.mem_cons.1 h with rfl | h
    · rw [List.mem_append, not_or]
      refine ⟨feed, fun mem => inLine first List.mem_cons_self ?_⟩
      exact (List.dropWhile_suffix _).subset (Text.mem_of_mem_trimRight mem)
    · obtain ⟨piece, hp, rfl⟩ := List.mem_map.1 h
      exact inLine_moveLine feed (inLine piece (List.mem_cons_of_mem _ hp))

/-! ### Listeners -/

/-- The names with a carriage return before each line feed: a type may go over several lines. -/
def Names.crlf (names : Names) : Names :=
  ⟨crlfText names.elementType, crlfText names.value, crlfText names.error,
    crlfText names.termination⟩

/-- The layout in lines that end in a carriage return and a line feed. -/
def Layout.crlf (layout : Layout) : Layout :=
  { layout with newline := ['\r', '\n'] }

theorem Names.parameter_crlf (names : Names) (b : Bucket) :
    names.crlf.parameter b = crlfText (names.parameter b) := by
  cases b <;> simp only [parameter, crlf, Text.crlfText_append] <;> rfl

variable {layout : Layout} {names : Names} {before after : Bucket → List StatementText}

/-- The lines of a method but for the type of its parameter hold no line feeds. -/
theorem methodLines_crlf (member : '\n' ∉ layout.member) (body : '\n' ∉ layout.body) {b : Bucket}
    (statements : (after b).flatMap (·.lines layout.body) = (before b).flatMap (·.lines layout.body)) :
    methodLines layout.crlf names.crlf (after b) b =
      (methodLines layout names (before b) b).map crlf := by
  have inLine : ∀ line ∈ (before b).flatMap (·.lines layout.body), crlf line = line := by
    intro line h
    obtain ⟨s, _, hline⟩ := List.mem_flatMap.1 h
    exact Text.crlf_of_not_mem (inLine_of_mem_lines body hline)
  have plain (line : List Char) (h : '\n' ∉ line) :
      crlf (layout.member ++ line) = layout.member ++ line :=
    Text.crlf_of_not_mem fun mem => (List.mem_append.1 mem).elim member h
  have head : crlf (layout.member ++ ("public void " ++ b.method ++ "(" ++ names.parameter b ++
      ") \x7b").toList) = layout.member ++ ("public void " ++ b.method ++ "(" ++
        names.crlf.parameter b ++ ") \x7b").toList := by
    rw [Text.crlf_append, Text.crlf_of_not_mem member, ← Text.toList_crlfText,
      Text.crlfText_append, Text.crlfText_append, Text.crlfText_append, Text.crlfText_append,
      ← Names.parameter_crlf]
    cases b <;> rfl
  have marks : (if layout.override then [layout.member ++ "@Override".toList] else []).map crlf =
      if layout.override then [layout.member ++ "@Override".toList] else [] := by
    split
    · rw [List.map_singleton, plain _ (by decide)]
    · rfl
  rw [methodLines, methodLines, List.map_append, List.map_append, List.map_append, marks,
    List.map_singleton, head, List.map_singleton, plain _ (by decide), List.map_congr_left inLine,
    List.map_id', ← statements]
  rfl

theorem membersLines_crlf (member : '\n' ∉ layout.member) (body : '\n' ∉ layout.body)
    (statements : ∀ b,
      (after b).flatMap (·.lines layout.body) = (before b).flatMap (·.lines layout.body))
    (order : List Bucket) :
    membersLines layout.crlf names.crlf after order =
      (membersLines layout names before order).map crlf := by
  induction order with
  | nil => rfl
  | cons b order ih =>
    cases order with
    | nil => exact methodLines_crlf member body (statements b)
    | cons c order =>
      have split (layout : Layout) (names : Names) (bodies : Bucket → List StatementText) :
          membersLines layout names bodies (b :: c :: order) =
            methodLines layout names (bodies b) b ++
              [] :: membersLines layout names bodies (c :: order) := rfl
      rw [split, split, List.map_append, List.map_cons, ← ih,
        methodLines_crlf member body (statements b)]
      rfl

/-- A listener in lines that end in both is the one in lines that end in line feeds with a carriage
return before each of them. -/
theorem render_crlf (newline : layout.newline = ['\n']) (base : '\n' ∉ layout.base)
    (step : '\n' ∉ layout.step)
    (statements : ∀ b, List.Forall₂ StatementText.Returned (before b) (after b)) :
    render layout.crlf names.crlf after = crlfText (render layout names before) := by
  have member : '\n' ∉ layout.member := fun mem => (List.mem_append.1 mem).elim base step
  have body : '\n' ∉ layout.body := fun mem => (List.mem_append.1 mem).elim member step
  have lines (b : Bucket) : (after b).flatMap (·.lines layout.body) =
      (before b).flatMap (·.lines layout.body) := by
    have related := statements b
    generalize before b = one, after b = other at related
    induction related with
    | nil => rfl
    | cons own _ ih => rw [List.flatMap_cons, List.flatMap_cons, own.lines, ih]
  have last : crlf (layout.base ++ "\x7d)".toList) = layout.base ++ "\x7d)".toList :=
    Text.crlf_of_not_mem fun mem => (List.mem_append.1 mem).elim base (by decide)
  have whole : callLines layout.crlf names.crlf after =
      (callLines layout names before).map crlf := by
    rw [callLines, callLines, List.map_append, List.map_cons, List.map_singleton, last,
      ← membersLines_crlf member body lines]
    rfl
  rw [render, whole, render, newline, Text.crlfText, String.toList_ofList, ← Text.joinWith_crlf]
  rfl

end MonoTap.Listener
