import MonoTap.Listener.Skeleton
import MonoTap.Proofs.Endings

/-!
# The lines of a listener

The lines that a statement is laid out in are the lines of its text, but for the blanks at their two
ends. A listener holds the methods for its buckets one after the other, and nothing beside them.
-/

set_option autoImplicit false

namespace MonoTap.Text

/-! ### Trimming -/

theorem trimRight_cons_of_not_blank {c : Char} (h : isBlank c = false) (cs : List Char) :
    trimRight (c :: cs) = c :: trimRight cs := by
  rw [trimRight]
  split
  · rename_i empty
    rw [h, empty]
    rfl
  · rfl

theorem trimRight_trimRight (cs : List Char) : trimRight (trimRight cs) = trimRight cs := by
  induction cs with
  | nil => rfl
  | cons c cs ih =>
    rw [trimRight]
    split
    · split
      · rfl
      · rename_i notBlank
        rw [trimRight_cons_of_not_blank (Bool.eq_false_iff.2 notBlank)]
        rfl
    · rename_i full
      rw [trimRight, ih]
      split
      · rename_i empty
        exact (full empty).elim
      · rfl

theorem trimLeft_cons_of_blank {c : Char} (h : isBlank c = true) (cs : List Char) :
    trimLeft (c :: cs) = trimLeft cs :=
  List.dropWhile_cons_of_pos h

theorem trimLeft_cons_of_not_blank {c : Char} (h : isBlank c = false) (cs : List Char) :
    trimLeft (c :: cs) = c :: cs :=
  List.dropWhile_cons_of_neg (by rw [h]; exact Bool.false_ne_true)

theorem trimLeft_trimLeft (cs : List Char) : trimLeft (trimLeft cs) = trimLeft cs := by
  induction cs with
  | nil => rfl
  | cons c cs ih =>
    cases blank : isBlank c with
    | true => rw [trimLeft_cons_of_blank blank, ih]
    | false => rw [trimLeft_cons_of_not_blank blank, trimLeft_cons_of_not_blank blank]

/-- It does not matter at which end blanks are taken away first. -/
theorem trim_trimRight (cs : List Char) : trim (trimRight cs) = trim cs := by
  induction cs with
  | nil => rfl
  | cons c cs ih =>
    unfold trim at ih ⊢
    cases blank : isBlank c with
    | true =>
      rw [trimLeft_cons_of_blank blank, ← ih, trimRight]
      split
      · rename_i empty
        rw [blank, if_pos rfl, empty]
      · rw [trimLeft_cons_of_blank blank]
    | false =>
      rw [trimLeft_cons_of_not_blank blank, trimRight_cons_of_not_blank blank,
        trimLeft_cons_of_not_blank blank, trimRight_cons_of_not_blank blank, trimRight_trimRight]

theorem trim_trim (cs : List Char) : trim (trim cs) = trim cs := by
  have inner := trim_trimRight (trimLeft cs)
  rw [← trim] at inner
  rw [inner, trim, trimLeft_trimLeft, ← trim]

/-- Blanks are taken away after the last character that is none. -/
theorem trimRight_append_cons {c : Char} (solid : isBlank c = false) (front back : List Char) :
    trimRight (front ++ c :: back) = front ++ c :: trimRight back := by
  induction front with
  | nil => exact trimRight_cons_of_not_blank solid back
  | cons d front ih =>
    rw [List.cons_append, trimRight, ih]
    cases front <;> rfl

theorem mem_of_mem_trimRight {c : Char} {cs : List Char} (h : c ∈ trimRight cs) : c ∈ cs := by
  induction cs with
  | nil => cases h
  | cons d cs ih =>
    rw [trimRight] at h
    split at h
    · rename_i empty
      split at h
      · cases h
      · cases List.mem_singleton.1 h
        exact List.mem_cons_self
    · rcases List.mem_cons.1 h with rfl | h
      · exact List.mem_cons_self
      · exact List.mem_cons_of_mem d (ih h)

theorem prefix_trimRight (cs : List Char) : trimRight cs <+: cs := by
  induction cs with
  | nil => exact List.prefix_refl []
  | cons c cs ih =>
    rw [trimRight]
    split
    · split
      · exact List.nil_prefix
      · exact List.prefix_append [c] cs
    · exact List.cons_prefix_cons.2 ⟨rfl, ih⟩

theorem trim_append_of_allBlank {cs : List Char} (h : allBlank cs = true) (ds : List Char) :
    trim (cs ++ ds) = trim ds := by
  unfold trim trimLeft
  rw [List.dropWhile_append_of_pos (List.all_eq_true.1 h)]

/-! ### Lines -/

theorem splitAt_of_not_mem {sep : Char} {cs : List Char} (h : sep ∉ cs) : splitAt sep cs = [cs] := by
  induction cs with
  | nil => rfl
  | cons c cs ih =>
    rw [List.mem_cons, not_or] at h
    have other : (c == sep) = false := beq_false_of_ne (Ne.symm h.1)
    rw [splitAt, ih h.2, other]
    rfl

/-- What is added to a text on its last line is added to the last piece. -/
theorem exists_splitAt_append (sep : Char) (front : List Char) :
    ∃ pieces last, ∀ line, sep ∉ line →
      splitAt sep (front ++ line) = pieces ++ [last ++ line] := by
  induction front with
  | nil => exact ⟨[], [], fun line h => splitAt_of_not_mem h⟩
  | cons c front ih =>
    obtain ⟨pieces, last, split⟩ := ih
    by_cases same : c = sep
    · refine ⟨[] :: pieces, last, fun line h => ?_⟩
      rw [List.cons_append, splitAt, split line h, same]
      simp
    · have other : (c == sep) = false := beq_false_of_ne same
      cases pieces with
      | nil =>
        refine ⟨[], c :: last, fun line h => ?_⟩
        rw [List.cons_append, splitAt, split line h, other]
        rfl
      | cons piece pieces =>
        refine ⟨(c :: piece) :: pieces, last, fun line h => ?_⟩
        rw [List.cons_append, splitAt, split line h, other]
        rfl

/-- If the last line of a text is not blank, no line goes with the blanks at its end. -/
theorem EndsSolid.map_trim_trimRight {cs : List Char} (h : EndsSolid cs) :
    (splitAt '\n' (trimRight cs)).map trim = (splitAt '\n' cs).map trim := by
  obtain ⟨front, c, back, rfl, solid, inLine⟩ := h
  have feed : '\n' ≠ c := by
    rintro rfl
    cases solid
  have outside {line : List Char} (h : '\n' ∉ line) : '\n' ∉ c :: line :=
    fun mem => (List.mem_cons.1 mem).elim feed h
  obtain ⟨pieces, last, split⟩ := exists_splitAt_append '\n' front
  rw [trimRight_append_cons solid, split _ (outside fun mem => inLine (mem_of_mem_trimRight mem)),
    split _ (outside inLine), List.map_append, List.map_append, List.map_singleton,
    List.map_singleton, ← trimRight_append_cons solid, trim_trimRight]

theorem exists_joinWith_concat (sep last : List Char) (pieces : List (List Char)) :
    ∃ front, joinWith sep (pieces ++ [last]) = front ++ last := by
  induction pieces with
  | nil => exact ⟨[], rfl⟩
  | cons piece pieces ih =>
    obtain ⟨front, joined⟩ := ih
    refine ⟨piece ++ sep ++ front, ?_⟩
    have more : joinWith sep (piece :: pieces ++ [last]) =
        piece ++ sep ++ joinWith sep (pieces ++ [last]) := by
      cases pieces <;> rfl
    simp only [more, joined, List.append_assoc]

/-! ### Indentation -/

theorem isBlank_of_isIndent {c : Char} (h : isIndent c = true) : isBlank c = true := by
  rw [isIndent, Bool.or_eq_true, beq_iff_eq, beq_iff_eq] at h
  rcases h with rfl | rfl <;> rfl

theorem Source.isIndent_of_mem_lineIndent {source : Source} {offset : Nat} {c : Char}
    (h : c ∈ source.lineIndent offset) : isIndent c = true := by
  obtain ⟨b, hb, rfl⟩ := List.mem_map.1 h
  have indents := List.all_eq_true.1 (List.all_takeWhile ..) b hb
  rw [Bool.or_eq_true, beq_iff_eq, beq_iff_eq] at indents
  rcases indents with rfl | rfl <;> rfl

theorem Source.allBlank_lineIndent (source : Source) (offset : Nat) :
    allBlank (source.lineIndent offset) = true :=
  List.all_eq_true.2 fun _ hc => isBlank_of_isIndent (isIndent_of_mem_lineIndent hc)

end MonoTap.Text

namespace MonoTap.Listener

open Callback (Bucket)
open Text (EndsSolid allBlank isBlank isBlank_of_isIndent isIndent splitAt trim trimLeft trimRight)

/-! ### The lines of a statement -/

theorem trim_dropIndent (n : Nat) (line : List Char) : trim (dropIndent n line) = trim line := by
  fun_induction dropIndent n line with
  | case1 n c cs indent ih =>
    rw [ih, trim, trim, Text.trimLeft_cons_of_blank (isBlank_of_isIndent indent)]
  | case2 | case3 => rfl

theorem trim_moveLine {start : List Char} (blank : allBlank start = true) (indent : Nat)
    (line : List Char) : trim (moveLine start indent line) = trim line := by
  rw [← Text.trim_trimRight line, moveLine]
  split
  · rename_i empty
    rw [empty]
  · rw [Text.trim_append_of_allBlank blank, trim_dropIndent]

/-- Moving a statement to another indentation keeps its lines, but for the blanks at their ends. -/
theorem map_trim_reindent {start text : List Char} (blank : allBlank start = true) (indent : Nat)
    (solid : EndsSolid text) :
    (reindent start indent text).map trim = (splitAt '\n' text).map trim := by
  rw [← solid.map_trim_trimRight, reindent]
  split
  · rename_i none
    exact (Text.splitAt_ne_nil _ _ none).elim
  · rename_i first rest split
    rw [split, List.map_cons, List.map_cons, Text.trim_append_of_allBlank blank, Text.trim_trim,
      List.map_map]
    exact congrArg (_ :: ·) (List.map_congr_left fun line _ => trim_moveLine blank indent line)

/-! ### The lines of a call -/

variable (layout : Layout) (names : Names) (bodies : Bucket → List StatementText)

/-- Between the methods stands one empty line. -/
theorem membersLines_eq (order : List Bucket) :
    membersLines layout names bodies order =
      List.intercalate [[]] (order.map fun b => methodLines layout names (bodies b) b) := by
  fun_induction membersLines layout names bodies order with
  | case1 => rfl
  | case2 b =>
    rw [List.map_cons, List.map_nil, List.intercalate_singleton]
  | case3 b buckets more ih =>
    cases buckets with
    | nil => exact (more rfl).elim
    | cons c buckets =>
      simp only [ih, List.map_cons, List.intercalate_cons_cons, List.append_assoc]
      rfl

theorem endsSolid_render : EndsSolid (render layout names bodies).toList := by
  have closing : EndsSolid (layout.base ++ "\x7d)".toList) :=
    ((Text.endsSolid_cons (c := ')') (by decide) List.not_mem_nil).prepend ['}']).prepend layout.base
  obtain ⟨front, joined⟩ := Text.exists_joinWith_concat layout.newline (layout.base ++ "\x7d)".toList)
    ("tap(() -> new DefaultSignalListener<>() \x7b".toList ::
      membersLines layout names bodies layout.order)
  rw [render, callLines, String.toList_ofList, joined]
  exact closing.prepend front

end MonoTap.Listener
