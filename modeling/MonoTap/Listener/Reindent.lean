import MonoTap.Text.Blank

/-!
# Re-indentation

Moving a statement to another indentation. The first line starts at the statement itself; every
other line loses at most the indentation that the statement had, so that it keeps its place relative
to the statement. Lines of blanks become empty, and blanks at the ends of lines go.
-/

set_option autoImplicit false

namespace MonoTap.Listener

open Text (isIndent trim trimRight splitAt)

/-- The line without its first `n` spaces and tabs, or without all it starts with if it has fewer.
-/
def dropIndent : Nat → List Char → List Char
  | n + 1, c :: cs => if isIndent c then dropIndent n cs else c :: cs
  | _, cs => cs

/-- A line after the first, moved from the indentation `indent` to the text `start`. -/
def moveLine (start : List Char) (indent : Nat) (line : List Char) : List Char :=
  match trimRight line with
  | [] => []
  | cs => start ++ dropIndent indent cs

/-- The lines of a statement, moved from the indentation `indent` to the text `start`. -/
def reindent (start : List Char) (indent : Nat) (text : List Char) : List (List Char) :=
  match splitAt '\n' (trimRight text) with
  | [] => []
  | first :: rest => (start ++ trim first) :: rest.map (moveLine start indent)

/-- The number of spaces and tabs at the start. -/
def indentWidth (line : List Char) : Nat :=
  (line.takeWhile isIndent).length

/-- Exactly the indentation goes, and no more than there is. -/
theorem dropIndent_eq_drop (n : Nat) (line : List Char) :
    dropIndent n line = line.drop (min n (indentWidth line)) := by
  induction line generalizing n with
  | nil => cases n <;> simp [dropIndent]
  | cons c cs ih =>
    cases n with
    | zero => simp [dropIndent]
    | succ n =>
      by_cases h : isIndent c
      · simp [dropIndent, indentWidth, h, ih, Nat.succ_min_succ]
      · simp [dropIndent, indentWidth, h]

/-- There are as many lines as before. -/
theorem length_reindent (start : List Char) (indent : Nat) (text : List Char) :
    (reindent start indent text).length = (splitAt '\n' (trimRight text)).length := by
  unfold reindent
  split <;> simp_all

end MonoTap.Listener
