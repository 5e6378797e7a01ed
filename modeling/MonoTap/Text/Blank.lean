/-!
# Blanks

The blank characters of a text and the operations that cut a text at them: trimming at either end
and splitting into words. All of them work on lists of characters.
-/

set_option autoImplicit false

namespace MonoTap.Text

/-- Whether a character separates words: the ASCII and Unicode spaces, and the line and information
separators. -/
def isBlank (c : Char) : Bool :=
  let n := c.toNat
  (9 ≤ n && n ≤ 13) || (28 ≤ n && n ≤ 32) || n == 0x85 || n == 0xA0 || n == 0x1680 ||
    (0x2000 ≤ n && n ≤ 0x200A) || n == 0x2028 || n == 0x2029 || n == 0x202F || n == 0x205F ||
    n == 0x3000

/-- Whether a character is a space or a tab, the two that indent a line. -/
def isIndent (c : Char) : Bool :=
  c == ' ' || c == '\t'

/-- The text without its leading blanks. -/
def trimLeft (cs : List Char) : List Char :=
  cs.dropWhile isBlank

/-- The text without its trailing blanks. -/
def trimRight : List Char → List Char
  | [] => []
  | c :: cs =>
    match trimRight cs with
    | [] => if isBlank c then [] else [c]
    | rest => c :: rest

/-- The text without blanks at its two ends. -/
def trim (cs : List Char) : List Char :=
  trimRight (trimLeft cs)

/-- Whether every character is blank; true of the empty text. -/
def allBlank (cs : List Char) : Bool :=
  cs.all isBlank

/-- The maximal runs of characters other than blanks. -/
def words (cs : List Char) : List (List Char) :=
  go [] cs
where
  /-- Collects words, with the current one reversed in `current`. -/
  go (current : List Char) : List Char → List (List Char)
    | [] => if current.isEmpty then [] else [current.reverse]
    | c :: cs =>
      if isBlank c then
        if current.isEmpty then go [] cs else current.reverse :: go [] cs
      else go (c :: current) cs

/-- Splits at each occurrence of `sep`; there is one piece more than there are separators. -/
def splitAt (sep : Char) : List Char → List (List Char)
  | [] => [[]]
  | c :: cs =>
    if c == sep then [] :: splitAt sep cs
    else
      match splitAt sep cs with
      | [] => [[c]]
      | piece :: pieces => (c :: piece) :: pieces

/-- Joins the pieces with `sep` between neighbours. -/
def joinWith (sep : List Char) : List (List Char) → List Char
  | [] => []
  | [piece] => piece
  | piece :: pieces => piece ++ sep ++ joinWith sep pieces

/-- Every blank that the standard class of ASCII whitespace holds is a blank here. -/
theorem isBlank_of_isWhitespace {c : Char} (h : c.isWhitespace = true) : isBlank c = true := by
  simp only [Char.isWhitespace, Bool.or_eq_true, decide_eq_true_eq] at h
  rcases h with ((h | h) | h) | h <;> subst h <;> decide

theorem splitAt_ne_nil (sep : Char) (cs : List Char) : splitAt sep cs ≠ [] := by
  cases cs with
  | nil => simp [splitAt]
  | cons c cs =>
    simp only [splitAt]
    split
    · simp
    · split <;> simp

/-- Joining the pieces of a split with its separator gives the text back. -/
theorem joinWith_splitAt (sep : Char) (cs : List Char) : joinWith [sep] (splitAt sep cs) = cs := by
  induction cs with
  | nil => rfl
  | cons c cs ih =>
    simp only [splitAt]
    cases hs : splitAt sep cs with
    | nil => exact absurd hs (splitAt_ne_nil sep cs)
    | cons piece pieces =>
      rw [hs] at ih
      split
      · rename_i heq
        simp only [beq_iff_eq] at heq
        simp [joinWith, ih, heq]
      · cases pieces with
        | nil => simp only [joinWith] at ih; simp [joinWith, ih]
        | cons p ps => simp only [joinWith] at ih; simp [joinWith, ← ih]

/-- No piece of a split holds the separator. -/
theorem not_mem_of_mem_splitAt {sep : Char} {cs piece : List Char} (h : piece ∈ splitAt sep cs) :
    sep ∉ piece := by
  induction cs generalizing piece with
  | nil => simp [splitAt] at h; simp [h]
  | cons c cs ih =>
    simp only [splitAt] at h
    split at h
    · rcases List.mem_cons.1 h with rfl | h
      · simp
      · exact ih h
    · rename_i hc
      simp only [beq_iff_eq] at hc
      split at h
      · simp at h; subst h; simp; exact fun e => hc e.symm
      · rename_i p ps heq
        rcases List.mem_cons.1 h with rfl | h
        · simp only [List.mem_cons, not_or]
          exact ⟨fun e => hc e.symm, ih (by simp [heq])⟩
        · exact ih (by rw [heq]; exact List.mem_cons_of_mem _ h)

end MonoTap.Text
