import MonoTap.Java.Token
import MonoTap.Text.Blank

/-!
# The last line

The last line of a token is not blank, and neither is that of a comment: a token on one line begins
with a character that is no blank, and what may go over several lines ends with its closing mark.
-/

set_option autoImplicit false

namespace MonoTap.Text

/-- Whether the last line of a text holds a character that is no blank. -/
def EndsSolid (cs : List Char) : Prop :=
  ∃ front c back, cs = front ++ c :: back ∧ isBlank c = false ∧ '\n' ∉ back

theorem EndsSolid.prepend (front : List Char) {cs : List Char} (h : EndsSolid cs) :
    EndsSolid (front ++ cs) := by
  obtain ⟨first, c, back, rfl, solid, inLine⟩ := h
  exact ⟨front ++ first, c, back, by simp, solid, inLine⟩

theorem EndsSolid.append {cs back : List Char} (h : EndsSolid cs) (inLine : '\n' ∉ back) :
    EndsSolid (cs ++ back) := by
  obtain ⟨front, c, rest, rfl, solid, restInLine⟩ := h
  refine ⟨front, c, rest ++ back, by simp, solid, ?_⟩
  simp [restInLine, inLine]

theorem endsSolid_cons {c : Char} {cs : List Char} (solid : isBlank c = false)
    (inLine : '\n' ∉ cs) : EndsSolid (c :: cs) :=
  ⟨[], c, cs, rfl, solid, inLine⟩

/-- Either the last line of a back part is solid, or it is the end of the last line of the whole. -/
theorem EndsSolid.of_append {front back : List Char} (h : EndsSolid (front ++ back)) :
    EndsSolid back ∨ '\n' ∉ back := by
  obtain ⟨first, c, rest, split, solid, inLine⟩ := h
  rcases List.append_eq_append_iff.1 split with ⟨middle, rfl, rfl⟩ | ⟨middle, rfl, same⟩
  · exact Or.inl ⟨middle, c, rest, rfl, solid, inLine⟩
  · cases middle with
    | nil =>
      left
      rw [List.nil_append] at same
      exact ⟨[], c, rest, same.symm, solid, inLine⟩
    | cons d middle =>
      right
      rw [List.cons_append] at same
      obtain ⟨_, rfl⟩ := List.cons.inj same
      exact fun mem => inLine (List.mem_append_right _ mem)

end MonoTap.Text

namespace MonoTap.Java

open Text (EndsSolid isBlank)

variable {c : Char} {cs : List Char} {n m : Nat}

/-! ### Tokens on one line -/

/-- Whether the first characters of a text are on one line. -/
def OneLine (n : Nat) (cs : List Char) : Prop :=
  '\n' ∉ cs.take n

theorem OneLine.add (first : OneLine n cs) (second : OneLine m (cs.drop n)) :
    OneLine (n + m) cs := by
  unfold OneLine at *
  rw [List.take_add, List.mem_append]
  exact fun mem => mem.elim first second

theorem OneLine.tail (h : OneLine n (c :: cs)) : OneLine (n - 1) cs := by
  cases n with
  | zero => simp [OneLine]
  | succ n =>
    rw [OneLine, List.take_succ_cons] at h
    exact fun mem => h (List.mem_cons_of_mem c mem)

theorem OneLine.cons (h : OneLine n cs) (feed : c ≠ '\n') : OneLine (1 + n) (c :: cs) := by
  rw [OneLine, Nat.add_comm, List.take_succ_cons, List.mem_cons]
  exact fun mem => mem.elim (fun same => feed same.symm) h

theorem oneLine_run {p : Char → Bool} (feed : p '\n' = false) (cs : List Char) :
    OneLine (runLength p cs) cs := by
  rw [OneLine, runLength, ← List.prefix_iff_eq_take.1 (List.takeWhile_prefix p)]
  intro mem
  have holds := List.all_eq_true.1 List.all_takeWhile _ mem
  rw [feed] at holds
  cases holds

theorem oneLine_suffix (letters : List Char) (feed : '\n' ∉ letters) (cs : List Char) :
    OneLine (suffixLength letters cs) cs := by
  cases cs with
  | nil => simp [OneLine]
  | cons c cs =>
    rw [suffixLength]
    split
    · rename_i letter
      have other : c ≠ '\n' := by
        rintro rfl
        exact feed (List.contains_iff_mem.1 letter)
      exact OneLine.cons (n := 0) (by simp [OneLine]) other
    · simp [OneLine]

/-- A fraction after the whole part of a number. -/
theorem oneLine_fraction {p : Char → Bool} (feed : p '\n' = false) (cs : List Char)
    (whole : Nat) :
    OneLine (if (cs.drop whole).head? == some '.' then 1 + runLength p (cs.drop (whole + 1)) else 0)
      (cs.drop whole) := by
  split
  · rename_i dotted
    rw [← List.drop_drop]
    cases rest : cs.drop whole with
    | nil =>
      rw [rest] at dotted
      cases dotted
    | cons d ds =>
      rw [rest] at dotted
      have dot : d = '.' := by simpa using dotted
      have other : d ≠ '\n' := by
        rw [dot]
        decide
      exact (oneLine_run feed ds).cons other
  · simp [OneLine]

theorem oneLine_exponent (marks : List Char) (feed : '\n' ∉ marks) (cs : List Char) :
    OneLine (exponentLength marks cs) cs := by
  unfold exponentLength
  split
  · rename_i e sign cs
    split
    · rename_i mark
      have other : e ≠ '\n' := by
        rintro rfl
        exact feed (List.contains_iff_mem.1 mark)
      have parts (ds : List Char) := oneLine_run (p := isDecimalPart) rfl ds
      cases signed : sign == '+' || sign == '-' with
      | true =>
        have other' : sign ≠ '\n' := by
          rintro rfl
          cases signed
        simp only [if_true]
        split
        · simp [OneLine]
        · rw [Nat.add_assoc]
          exact ((parts cs).cons other').cons other
      | false =>
        simp only [Bool.false_eq_true, if_false]
        split
        · simp [OneLine]
        · exact (parts (sign :: cs)).cons other
    · simp [OneLine]
  · simp [OneLine]

theorem oneLine_scanHex (cs : List Char) : OneLine (scanHex cs).2 cs := by
  have whole := oneLine_run (p := fun c => isHexDigit c || c == '_') (by decide) cs
  have fraction := oneLine_fraction (p := fun c => isHexDigit c || c == '_') (by decide) cs
    (runLength (fun c => isHexDigit c || c == '_') cs)
  have exponent := oneLine_exponent ['p', 'P'] (by decide)
  have long := oneLine_suffix ['l', 'L'] (by decide)
  have float := oneLine_suffix ['f', 'F', 'd', 'D'] (by decide)
  unfold scanHex
  extract_lets n dotted f e all
  split
  · split
    · simp [OneLine]
    · exact whole.add (long _)
  · exact ((whole.add fraction).add (exponent _)).add (float _)

theorem oneLine_scanDecimal (cs : List Char) : OneLine (scanDecimal cs).2 cs := by
  have whole := oneLine_run (p := isDecimalPart) (by decide) cs
  have fraction := oneLine_fraction (p := isDecimalPart) (by decide) cs (runLength isDecimalPart cs)
  have exponent := oneLine_exponent ['e', 'E'] (by decide)
  have long := oneLine_suffix ['l', 'L'] (by decide)
  have float := oneLine_suffix ['f', 'F', 'd', 'D'] (by decide)
  unfold scanDecimal
  extract_lets n dotted f e all suffix long'
  split
  · exact ((whole.add fraction).add (exponent _)).add (float _)
  · split
    · exact whole.add (long _)
    · split
      · exact whole.add (long _)
      · exact whole

theorem oneLine_scanMark (c : Char) (cs : List Char) : OneLine (scanMark c cs).2 cs := by
  unfold scanMark
  split
  · rename_i mark found
    have begins := List.find?_some found
    have chars := List.prefix_iff_eq_take.1 (List.isPrefixOf_iff_prefix.1 begins)
    have feed : ∀ m ∈ longMarks, '\n' ∉ m.toList := by decide
    refine OneLine.tail (c := c) ?_
    rw [OneLine, ← String.length_toList, ← chars]
    exact feed mark (List.mem_of_find?_eq_some found)
  · simp [OneLine]

theorem oneLine_scan_number (c : Char) (cs : List Char) : OneLine (scan.number c cs).2 cs :=
  (oneLine_scanDecimal (c :: cs)).tail

/-! ### Closed tokens -/

/-- Whether the first characters of a text end with a closing mark. -/
def Closes (mark : Char) (n : Nat) (cs : List Char) : Prop :=
  ∃ front, cs.take n = front ++ [mark]

section

variable {mark : Char}

theorem Closes.cons (h : Closes mark n cs) (c : Char) : Closes mark (n + 1) (c :: cs) := by
  obtain ⟨front, split⟩ := h
  exact ⟨c :: front, by rw [List.take_succ_cons, split]; rfl⟩

/-- Characters that are passed over come before the closing mark. -/
theorem Closes.of_drop {k : Nat} (h : Closes mark n (cs.drop k)) : Closes mark (n + k) cs := by
  obtain ⟨front, split⟩ := h
  refine ⟨cs.take k ++ front, ?_⟩
  rw [Nat.add_comm, List.take_add, split, List.append_assoc]

theorem Closes.endsSolid (h : Closes mark n cs) (solid : isBlank mark = false)
    (before : List Char) : EndsSolid (before ++ cs.take n) := by
  obtain ⟨front, split⟩ := h
  rw [split]
  exact ((Text.endsSolid_cons solid List.not_mem_nil).prepend front).prepend before

end

theorem closes_blockComment (h : blockCommentLength? cs = some n) : Closes '/' n cs := by
  fun_induction blockCommentLength? cs generalizing n with
  | case1 => cases h
  | case2 =>
    cases h
    exact ⟨['*'], rfl⟩
  | case3 => cases h
  | case4 c cs _ _ ih =>
    obtain ⟨m, found, rfl⟩ := Option.map_eq_some_iff.1 h
    exact (ih found).cons c

theorem closes_string (h : stringLength? cs = some n) : Closes '"' n cs := by
  fun_induction stringLength? cs generalizing n with
  | case1 => cases h
  | case2 =>
    cases h
    exact ⟨[], rfl⟩
  | case3 rest ih =>
    obtain ⟨k, _, h⟩ := Option.bind_eq_some_iff.1 h
    obtain ⟨m, found, h⟩ := Option.bind_eq_some_iff.1 h
    cases h
    exact (ih k found).of_drop.cons '\\'
  | case4 => cases h
  | case5 c rest _ _ _ ih =>
    obtain ⟨m, found, h⟩ := Option.bind_eq_some_iff.1 h
    cases h
    exact (ih found).cons c

theorem closes_textBlock (h : textBlockLength? cs = some n) : Closes '"' n cs := by
  fun_induction textBlockLength? cs generalizing n with
  | case1 => cases h
  | case2 =>
    cases h
    exact ⟨['"', '"'], rfl⟩
  | case3 rest ih =>
    obtain ⟨k, _, h⟩ := Option.bind_eq_some_iff.1 h
    obtain ⟨m, found, h⟩ := Option.bind_eq_some_iff.1 h
    cases h
    exact (ih k found).of_drop.cons '\\'
  | case4 => cases h
  | case5 c rest _ _ _ ih =>
    obtain ⟨m, found, h⟩ := Option.bind_eq_some_iff.1 h
    cases h
    exact (ih found).cons c

theorem closes_character_tail (h : characterLength?.tail cs = some n) : Closes '\'' n cs := by
  fun_induction characterLength?.tail cs generalizing n with
  | case1 =>
    cases h
    exact ⟨[], rfl⟩
  | case2 => cases h
  | case3 c rest _ ih =>
    obtain ⟨m, found, rfl⟩ := Option.map_eq_some_iff.1 h
    exact ((ih found).cons c).cons '\\'
  | case4 => cases h
  | case5 c rest _ _ _ ih =>
    obtain ⟨m, found, rfl⟩ := Option.map_eq_some_iff.1 h
    exact (ih found).cons c
  | case6 => cases h

theorem closes_character (h : characterLength? cs = some n) : Closes '\'' n cs := by
  unfold characterLength? at h
  split at h
  · rename_i c rest
    split at h
    · cases h
    · obtain ⟨m, found, rfl⟩ := Option.map_eq_some_iff.1 h
      exact ((closes_character_tail found).cons c).cons '\\'
  · rename_i c rest _
    split at h
    · cases h
    · obtain ⟨m, found, rfl⟩ := Option.map_eq_some_iff.1 h
      exact (closes_character_tail found).cons c
  · cases h

/-! ### Every token -/

/-- A blank that does not separate tokens begins none. -/
theorem stray_of_isBlank (space : isSpace c = false) (blank : isBlank c = true) (cs : List Char) :
    (scan c cs).1 = .token .stray := by
  have range : 28 ≤ c.toNat ∧ c.toNat ≤ 31 := by
    simp [isSpace] at space
    simp [isBlank] at blank
    omega
  have code : c.toNat = 28 ∨ c.toNat = 29 ∨ c.toNat = 30 ∨ c.toNat = 31 := by omega
  rw [← Char.ofNat_toNat c]
  rcases code with h | h | h | h <;> rw [h] <;> rfl

/-- The last line of what stands at some place of a text is not blank, unless it begins no token. -/
theorem endsSolid_scan (space : isSpace c = false) (cs : List Char)
    (genuine : (scan c cs).1 ≠ .token .stray) : EndsSolid (c :: cs.take (scan c cs).2) := by
  have solid : isBlank c = false := by
    cases blank : isBlank c with
    | false => rfl
    | true => exact (genuine (stray_of_isBlank space blank cs)).elim
  have inLine {n : Nat} {cs : List Char} (h : OneLine n cs) : EndsSolid (c :: cs.take n) :=
    Text.endsSolid_cons solid h
  have number := inLine (oneLine_scan_number c cs)
  have mark := inLine (oneLine_scanMark c cs)
  revert genuine
  unfold scan
  split
  · rename_i rest
    intro _
    exact inLine ((oneLine_run (by decide) rest).cons (by decide))
  · rename_i rest
    split
    · rename_i n found
      intro _
      rw [Nat.add_comm, List.take_succ_cons]
      exact (closes_blockComment found).endsSolid (by decide) ['/', '*']
    · exact fun genuine => (genuine rfl).elim
  · rename_i rest
    split
    · rename_i n found
      intro _
      rw [Nat.add_comm, List.take_succ_cons, List.take_succ_cons]
      exact (closes_textBlock found).endsSolid (by decide) ['"', '"', '"']
    · exact fun genuine => (genuine rfl).elim
  · split
    · rename_i n found
      intro _
      exact (closes_string found).endsSolid (by decide) ['"']
    · exact fun genuine => (genuine rfl).elim
  · split
    · rename_i n found
      intro _
      exact (closes_character found).endsSolid (by decide) ['\'']
    · exact fun genuine => (genuine rfl).elim
  · rename_i x rest
    split
    · rename_i hex
      intro _
      have other : x ≠ '\n' := by
        rintro rfl
        cases hex
      exact inLine ((oneLine_scanHex rest).cons other)
    · split
      · rename_i binary
        intro _
        have other : x ≠ '\n' := by
          rintro rfl
          cases binary
        have digits := oneLine_run (p := fun d => d == '0' || d == '1' || d == '_') (by decide) rest
        have whole := (digits.add (oneLine_suffix ['l', 'L'] (by decide) _)).cons other
        rw [← Nat.add_assoc] at whole
        exact inLine whole
      · exact fun _ => number
  · split
    · exact fun _ => number
    · exact fun _ => mark
  · split
    · intro _
      exact inLine (oneLine_run (by decide) cs)
    · split
      · exact fun _ => number
      · exact fun _ => mark

end MonoTap.Java
