import MonoTap.Text.Blank

/-!
# Lines

Splitting a text into lines that keep their terminators. A line ends at a line feed, a carriage
return, the two together, a vertical tab, a form feed, one of three information separators, the
next-line character, or a Unicode line or paragraph separator.
-/

set_option autoImplicit false

namespace MonoTap.Text

/-- Whether a character ends a line. -/
def isLineEnd (c : Char) : Bool :=
  let n := c.toNat
  (10 ≤ n && n ≤ 13) || (28 ≤ n && n ≤ 30) || n == 0x85 || n == 0x2028 || n == 0x2029

/-- The lines of a text, each with its terminator; only the last may lack one. -/
def lines : List Char → List (List Char)
  | [] => []
  | '\r' :: '\n' :: cs => ['\r', '\n'] :: lines cs
  | c :: cs =>
    if isLineEnd c then [c] :: lines cs
    else
      match lines cs with
      | [] => [[c]]
      | line :: rest => (c :: line) :: rest

/-- The lines of a text make up the text. -/
theorem flatten_lines (cs : List Char) : (lines cs).flatten = cs := by
  fun_induction lines cs with
  | case1 => rfl
  | case2 cs ih => simp [ih]
  | case3 c cs _ _ ih => simp [ih]
  | case4 c cs _ _ heq ih => rw [heq] at ih; simp at ih; simp [← ih]
  | case5 c cs _ _ line rest heq ih => rw [heq] at ih; simp at ih; simp [← ih]

/-- The number of line feeds in a text. -/
def countLineFeeds (cs : List Char) : Nat :=
  cs.count '\n'

end MonoTap.Text
