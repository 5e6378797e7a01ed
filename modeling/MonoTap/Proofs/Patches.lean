import MonoTap.Migration.FileMigration
import MonoTap.Number.Digits
import MonoTap.Proofs.CommonLines

/-!
# Patches

A reader of unified diffs that is made apart from the writing of them: it takes a text line by line, checks
that it has the two header lines and then hunks of as many lines as their headers say, and applies it to
another text. The diff of a migration is read like this, and applied to the old text it gives the new one,
if every line up to the last one that it shows ends in a line feed.
-/

set_option autoImplicit false

namespace MonoTap.Patch

open Diff (Line)
open Number (digitsOf digitsValue)

/-! ### The reader -/

/-- The lines of a text of which each ends at a line feed; only the last may lack one. -/
def physicalLines : List Char → List Line
  | [] => []
  | c :: cs =>
    if c == '\n' then ['\n'] :: physicalLines cs
    else
      match physicalLines cs with
      | [] => [[c]]
      | line :: rest => (c :: line) :: rest

/-- A range of lines: its first line, counted from one, or the line before it if it is empty, and how many
they are. -/
structure Range where
  start : Nat
  count : Nat

/-- The number of lines before a range. -/
def Range.before (r : Range) : Nat :=
  if r.count = 0 then r.start else r.start - 1

/-- Reads a given text. -/
def readWord (word cs : List Char) : Option (List Char) :=
  if word.isPrefixOf cs then some (cs.drop word.length) else none

/-- Reads a decimal number. -/
def readNumber (cs : List Char) : Option (Nat × List Char) :=
  let digits := digitsOf cs
  if digits.isEmpty then none else some (digitsValue digits, cs.drop digits.length)

/-- Reads a range of lines, which is one line if it does not say how many. -/
def readRange (cs : List Char) : Option (Range × List Char) := do
  let (start, rest) ← readNumber cs
  match rest with
  | ',' :: more =>
    let (count, rest) ← readNumber more
    return (⟨start, count⟩, rest)
  | _ => return (⟨start, 1⟩, rest)

/-- Reads the header of a hunk. -/
def readHeader (line : Line) : Option (Range × Range) := do
  let rest ← readWord "@@ -".toList line
  let (old, rest) ← readRange rest
  let rest ← readWord " +".toList rest
  let (new, rest) ← readRange rest
  if rest = " @@\n".toList then some (old, new) else none

/-- How far a patch has been applied: the lines of the new text, the number of lines of the old text
that are behind and those that are to come, and how many lines of either the hunk has left. -/
structure Progress where
  done : List Line
  taken : Nat
  rest : List Line
  oldLeft : Nat
  newLeft : Nat

/-- Enters a hunk. The lines before it stay. -/
def Progress.enter (s : Progress) (old new : Range) : Option Progress :=
  let gap := old.before - s.taken
  if s.taken ≤ old.before ∧ gap ≤ s.rest.length ∧ s.done.length + gap = new.before then
    some ⟨s.done ++ s.rest.take gap, old.before, s.rest.drop gap, old.count, new.count⟩
  else none

/-- Applies a line of a hunk: one that stays, one that goes or one that comes. -/
def Progress.body (s : Progress) : Line → Option Progress
  | ' ' :: text =>
    match s with
    | ⟨done, taken, x :: rest, p + 1, q + 1⟩ =>
      if x = text then some ⟨done ++ [x], taken + 1, rest, p, q⟩ else none
    | _ => none
  | '-' :: text =>
    match s with
    | ⟨done, taken, x :: rest, p + 1, q⟩ =>
      if x = text then some ⟨done, taken + 1, rest, p, q⟩ else none
    | _ => none
  | '+' :: text =>
    match s with
    | ⟨done, taken, rest, p, q + 1⟩ => some ⟨done ++ [text], taken, rest, p, q⟩
    | _ => none
  | _ => none

/-- Whether no hunk is open. -/
def Progress.between (s : Progress) : Bool :=
  s.oldLeft == 0 && s.newLeft == 0

/-- Applies a line of a patch. -/
def Progress.step (s : Progress) (line : Line) : Option Progress :=
  if line.getLast? = some '\n' then
    if s.between then do
      let (old, new) ← readHeader line
      s.enter old new
    else s.body line
  else none

/-- Applies a patch to a text. Nothing if it is no patch, or none for this text. -/
def apply (patch text : List Char) : Option (List Char) :=
  match physicalLines patch with
  | source :: target :: hunk :: more =>
    if "--- ".toList.isPrefixOf source && "+++ ".toList.isPrefixOf target then do
      let s ← (hunk :: more).foldlM Progress.step ⟨[], 0, physicalLines text, 0, 0⟩
      if s.between then some (s.done ++ s.rest).flatten else none
    else none
  | _ => none

/-! ### Lines -/

variable {cs : List Char} {line : Line} {ls : List Line}

/-- Whether a line has a line feed at its end and nowhere else. -/
def IsLine (line : Line) : Prop :=
  ∃ front, line = front ++ ['\n'] ∧ '\n' ∉ front

theorem flatten_physicalLines (cs : List Char) : (physicalLines cs).flatten = cs := by
  induction cs with
  | nil => rfl
  | cons c cs ih =>
    rw [physicalLines]
    split
    · rename_i feed
      rw [List.flatten_cons, ih, beq_iff_eq.1 feed]
      rfl
    · split <;> rename_i pieces <;> rw [pieces] at ih
      · rw [← ih]
        rfl
      · rw [← ih]
        rfl

theorem physicalLines_append (h : IsLine line) (cs : List Char) :
    physicalLines (line ++ cs) = line :: physicalLines cs := by
  obtain ⟨front, rfl, none⟩ := h
  induction front with
  | nil => rfl
  | cons c front ih =>
    rw [List.mem_cons, not_or] at none
    have other : (c == '\n') = false := beq_eq_false_iff_ne.2 (Ne.symm none.1)
    rw [List.cons_append, List.cons_append, physicalLines, other, if_neg Bool.false_ne_true, ih none.2]

theorem physicalLines_flatten_append (h : ∀ line ∈ ls, IsLine line) (cs : List Char) :
    physicalLines (ls.flatten ++ cs) = ls ++ physicalLines cs := by
  induction ls with
  | nil => rfl
  | cons line ls ih =>
    rw [List.flatten_cons, List.append_assoc, physicalLines_append (h line List.mem_cons_self),
      ih fun l hl => h l (List.mem_cons_of_mem _ hl)]
    rfl

/-- Only at its end has a line of a text a line feed. -/
theorem isLine_of_mem_lines (mem : line ∈ Text.lines cs) (feed : line.getLast? = some '\n') :
    IsLine line := by
  fun_induction Text.lines cs generalizing line with
  | case1 => cases mem
  | case2 cs ih =>
    rcases List.mem_cons.1 mem with rfl | mem
    · exact ⟨['\r'], rfl, by decide⟩
    · exact ih mem feed
  | case3 c cs _ _ ih =>
    rcases List.mem_cons.1 mem with rfl | mem
    · rw [List.getLast?_singleton, Option.some.injEq] at feed
      exact ⟨[], by rw [feed]; rfl, List.not_mem_nil⟩
    · exact ih mem feed
  | case4 c cs _ other none ih =>
    rw [List.mem_singleton.1 mem, List.getLast?_singleton, Option.some.injEq] at feed
    rw [feed] at other
    exact absurd rfl other
  | case5 c cs _ other first more pieces ih =>
    rcases List.mem_cons.1 mem with rfl | mem
    · cases first with
      | nil =>
        rw [List.getLast?_singleton, Option.some.injEq] at feed
        rw [feed] at other
        exact absurd rfl other
      | cons d first =>
        rw [List.getLast?_cons_cons] at feed
        obtain ⟨front, whole, none⟩ := ih (pieces ▸ List.mem_cons_self) feed
        refine ⟨c :: front, by rw [whole]; rfl, ?_⟩
        rw [List.mem_cons, not_or]
        refine ⟨?_, none⟩
        rintro rfl
        exact other rfl
    · exact ih (pieces ▸ List.mem_cons_of_mem _ mem) feed

/-! ### Headers -/

/-- A number that is written in digits is read. -/
theorem readNumber_toString (n : Nat) (h : cs.head?.all (!·.isDigit)) :
    readNumber ((toString n).toList ++ cs) = some (n, cs) := by
  have written : (toString n).toList = Nat.toDigits 10 n := Nat.toList_repr
  have digits : ∀ c ∈ Nat.toDigits 10 n, c.isDigit = true := fun c hc =>
    Nat.isDigit_of_mem_toDigits (by decide) (by decide) hc
  have taken : digitsOf (Nat.toDigits 10 n ++ cs) = Nat.toDigits 10 n := by
    rw [digitsOf, List.takeWhile_append_of_pos digits]
    cases cs with
    | nil => rw [List.takeWhile_nil, List.append_nil]
    | cons c cs =>
      rw [List.head?_cons, Option.all_some, Bool.not_eq_true'] at h
      rw [List.takeWhile_cons_of_neg (by rw [h]; exact Bool.false_ne_true), List.append_nil]
  have value : digitsValue (Nat.toDigits 10 n) = n :=
    Nat.ofDigitChars_toDigits (by decide) (by decide)
  rw [written, readNumber, taken, value, List.isEmpty_eq_false_iff.2 Nat.toDigits_ne_nil,
    if_neg Bool.false_ne_true, List.drop_left]

theorem readWord_append (word cs : List Char) : readWord word (word ++ cs) = some cs := by
  rw [readWord, if_pos (List.isPrefixOf_iff_prefix.2 (List.prefix_append word cs)), List.drop_left]

/-- The range of a hunk is read. -/
theorem readRange_rangeText (start stop : Nat) (rest : List Char) :
    ∃ r, readRange ((Diff.rangeText start stop).toList ++ ' ' :: rest) = some (r, ' ' :: rest) ∧
      r.before = start ∧ r.count = stop - start := by
  have plain : (' ' :: rest).head?.all (!·.isDigit) := by rfl
  rw [Diff.rangeText]
  split
  · rename_i one
    rw [beq_iff_eq] at one
    refine ⟨⟨start + 1, 1⟩, ?_, rfl, one.symm⟩
    rw [readRange, readNumber_toString _ plain]
    rfl
  · rename_i other
    have comma (n m : Nat) : readRange ((toString n ++ "," ++ toString m).toList ++ ' ' :: rest) =
        some (⟨n, m⟩, ' ' :: rest) := by
      have apart : (',' :: ((toString m).toList ++ ' ' :: rest)).head?.all (!·.isDigit) := by rfl
      rw [String.toList_append, String.toList_append, List.append_assoc, List.append_assoc, readRange]
      show (readNumber ((toString n).toList ++ ',' :: ((toString m).toList ++ ' ' :: rest)) >>= _) = _
      rw [readNumber_toString _ apart]
      show (readNumber ((toString m).toList ++ ' ' :: rest) >>= _) = _
      rw [readNumber_toString _ plain]
      rfl
    refine ⟨⟨_, _⟩, comma _ _, ?_, rfl⟩
    rw [Range.before]
    dsimp only
    by_cases empty : stop - start = 0
    · rw [if_pos empty, empty]
      rfl
    · rw [if_neg empty, if_neg (by rw [beq_iff_eq]; exact empty)]
      rfl

/-- The header of a hunk is read. -/
theorem readHeader_rangeText (start stop start' stop' : Nat) :
    ∃ r r', readHeader ("@@ -" ++ Diff.rangeText start stop ++ " +" ++ Diff.rangeText start' stop' ++
        " @@\n").toList = some (r, r') ∧
      r.before = start ∧ r.count = stop - start ∧ r'.before = start' ∧ r'.count = stop' - start' := by
  obtain ⟨after, hafter⟩ : ∃ after, after = (Diff.rangeText start' stop').toList ++ " @@\n".toList :=
    ⟨_, rfl⟩
  obtain ⟨r, read, before, count⟩ := readRange_rangeText start stop ('+' :: after)
  obtain ⟨r', read', before', count'⟩ := readRange_rangeText start' stop' "@@\n".toList
  have read : readRange ((Diff.rangeText start stop).toList ++ (" +".toList ++ after)) =
      some (r, " +".toList ++ after) := read
  have read' : readRange after = some (r', " @@\n".toList) := hafter ▸ read'
  refine ⟨r, r', ?_, before, count, before', count'⟩
  simp only [String.toList_append, List.append_assoc]
  rw [← hafter, readHeader, readWord_append]
  simp only [Option.bind_eq_bind, Option.bind_some, read, readWord_append, read', if_pos]

/-! ### Applying hunks -/

open Diff (Chain Grouped Operation Same)

variable {old new : Array Line} {pieces : List Line} {a b c d k p q stop : Nat} {o : Operation}
  {os group : List Operation} {gs : List (List Operation)}

/-- How far a patch has been applied when `a` lines of the old text and `b` lines of the new one are
behind. -/
def progress (pieces : List Line) (new : Array Line) (a b p q : Nat) : Progress :=
  ⟨new.toList.take b, a, pieces.drop a, p, q⟩

theorem getLast?_cons_of_isLine (h : IsLine line) (c : Char) : (c :: line).getLast? = some '\n' := by
  obtain ⟨front, rfl, _⟩ := h
  rw [← List.cons_append, List.getLast?_concat]

theorem step_body {s : Progress} (h : IsLine line) (mark : Char) (inside : s.between = false) :
    s.step (mark :: line) = s.body (mark :: line) := by
  rw [Progress.step, if_pos (getLast?_cons_of_isLine h mark), inside, if_neg Bool.false_ne_true]

variable {done rest ls : List Line} {taken : Nat}

theorem step_kept (h : IsLine line) :
    Progress.step ⟨done, taken, line :: rest, p + 1, q + 1⟩ (' ' :: line) =
      some ⟨done ++ [line], taken + 1, rest, p, q⟩ := by
  rw [step_body h ' ' rfl]
  exact if_pos rfl

theorem step_deleted (h : IsLine line) :
    Progress.step ⟨done, taken, line :: rest, p + 1, q⟩ ('-' :: line) =
      some ⟨done, taken + 1, rest, p, q⟩ := by
  rw [step_body h '-' rfl]
  exact if_pos rfl

theorem step_inserted (h : IsLine line) :
    Progress.step ⟨done, taken, rest, p, q + 1⟩ ('+' :: line) =
      some ⟨done ++ [line], taken, rest, p, q⟩ := by
  rw [step_body h '+' (Bool.and_eq_false_iff.2 (.inr rfl))]
  rfl

/-- Lines that stay go from the old text to the new one. -/
theorem run_kept (lines : ∀ line ∈ ls, IsLine line) :
    (ls.map (' ' :: ·)).foldlM Progress.step ⟨done, taken, ls ++ rest, ls.length + p, ls.length + q⟩ =
      some ⟨done ++ ls, taken + ls.length, rest, p, q⟩ := by
  induction ls generalizing done taken with
  | nil =>
    rw [List.append_nil, List.length_nil, Nat.zero_add, Nat.zero_add, Nat.add_zero]
    rfl
  | cons line ls ih =>
    rw [List.map_cons, List.foldlM_cons, List.length_cons, List.cons_append,
      Nat.add_right_comm ls.length 1 p, Nat.add_right_comm ls.length 1 q,
      step_kept (lines line List.mem_cons_self)]
    refine (ih fun l hl => lines l (List.mem_cons_of_mem line hl)).trans ?_
    rw [List.append_assoc, Nat.add_assoc, Nat.add_comm 1 ls.length]
    rfl

/-- Lines that go are lines of the old text. -/
theorem run_deleted (lines : ∀ line ∈ ls, IsLine line) :
    (ls.map ('-' :: ·)).foldlM Progress.step ⟨done, taken, ls ++ rest, ls.length + p, q⟩ =
      some ⟨done, taken + ls.length, rest, p, q⟩ := by
  induction ls generalizing taken with
  | nil =>
    rw [List.length_nil, Nat.zero_add, Nat.add_zero]
    rfl
  | cons line ls ih =>
    rw [List.map_cons, List.foldlM_cons, List.length_cons, List.cons_append,
      Nat.add_right_comm ls.length 1 p, step_deleted (lines line List.mem_cons_self)]
    refine (ih fun l hl => lines l (List.mem_cons_of_mem line hl)).trans ?_
    rw [Nat.add_assoc, Nat.add_comm 1 ls.length]

/-- Lines that come are lines of the new text. -/
theorem run_inserted (lines : ∀ line ∈ ls, IsLine line) :
    (ls.map ('+' :: ·)).foldlM Progress.step ⟨done, taken, rest, p, ls.length + q⟩ =
      some ⟨done ++ ls, taken, rest, p, q⟩ := by
  induction ls generalizing done with
  | nil =>
    rw [List.append_nil, List.length_nil, Nat.zero_add]
    rfl
  | cons line ls ih =>
    rw [List.map_cons, List.foldlM_cons, List.length_cons, Nat.add_right_comm ls.length 1 q,
      step_inserted (lines line List.mem_cons_self)]
    refine (ih fun l hl => lines l (List.mem_cons_of_mem line hl)).trans ?_
    rw [List.append_assoc]
    rfl

/-- Whether a text is cut into pieces of which the first ones are its lines up to a number of them, which
all end in a line feed. -/
structure Lined (text : Array Line) (pieces : List Line) (stop : Nat) : Prop where
  same : pieces.take stop = text.toList.take stop
  rest : (pieces.drop stop).flatten = (text.toList.drop stop).flatten
  lines : ∀ line ∈ text.toList.take stop, IsLine line

variable {text : Array Line} {stop' : Nat}

theorem toList_extract_eq (text : Array Line) (i j : Nat) :
    (text.extract i j).toList = (text.toList.take j).drop i := by
  rw [Array.toList_extract, List.drop_take]

/-- The lines of a text before a line. -/
theorem isLine_of_mem_extract (lines : ∀ line ∈ text.toList.take stop, IsLine line) (h : b ≤ stop) :
    ∀ line ∈ (text.extract a b).toList, IsLine line := by
  intro line mem
  rw [toList_extract_eq] at mem
  exact lines line (List.take_subset_take_left _ h (List.mem_of_mem_drop mem))

/-- A piece of a text comes after the lines before it. -/
theorem take_append_extract (h : a ≤ b) :
    text.toList.take a ++ (text.extract a b).toList = text.toList.take b := by
  have whole := List.take_append_drop a (text.toList.take b)
  rwa [List.take_take, Nat.min_eq_left h, ← toList_extract_eq] at whole

/-- The pieces of a text before a line are its lines. -/
theorem Lined.drop (h : Lined text pieces stop) (hab : a ≤ b) (hb : b ≤ stop) :
    pieces.drop a = (text.extract a b).toList ++ pieces.drop b := by
  have first : pieces.take b = text.toList.take b := by
    have same := congrArg (List.take b) h.same
    rwa [List.take_take, List.take_take, Nat.min_eq_left hb] at same
  have split := List.take_append_drop (b - a) (pieces.drop a)
  rwa [← List.drop_take, first, ← toList_extract_eq, List.drop_drop, Nat.add_sub_cancel' hab,
    eq_comm] at split

/-- The lines that show an operation do what it says. -/
theorem run_operation (sound : o.Sound old new) (lined : Lined old pieces stop) (h : o.oldStop ≤ stop)
    (lines : ∀ line ∈ new.toList.take stop', IsLine line) (h' : o.newStop ≤ stop') :
    (o.lines old new).foldlM Progress.step
        (progress pieces new o.oldStart o.newStart (o.oldStop - o.oldStart + p)
          (o.newStop - o.newStart + q)) =
      some (progress pieces new o.oldStop o.newStop p q) := by
  have going := isLine_of_mem_extract (a := o.oldStart) lined.lines h
  have coming := isLine_of_mem_extract (a := o.newStart) lines h'
  have behind := lined.drop sound.ordered h
  have before : new.toList.take o.newStart ++ (new.extract o.newStart o.newStop).toList =
      new.toList.take o.newStop := take_append_extract sound.ordered'
  have count := Diff.length_piece (i := o.oldStart) sound.fits
  have count' := Diff.length_piece (i := o.newStart) sound.fits'
  have ordered := sound.ordered
  rw [progress, progress, behind, Operation.lines]
  cases tag : o.tag with
  | keep =>
    obtain ⟨even, same⟩ := sound.keep tag
    have equal : (old.extract o.oldStart o.oldStop).toList = (new.extract o.newStart o.newStop).toList := by
      have equal := same.extract_eq
      have ordered' := sound.ordered'
      rwa [show o.oldStart + (o.oldStop - o.oldStart) = o.oldStop by omega,
        show o.newStart + (o.oldStop - o.oldStart) = o.newStop by omega] at equal
    dsimp only [Diff.marked]
    rw [← even, ← count]
    refine (run_kept going).trans ?_
    rw [count, show o.oldStart + (o.oldStop - o.oldStart) = o.oldStop by omega, equal, before]
  | delete =>
    have none := sound.delete tag
    dsimp only [Diff.marked]
    rw [none, Nat.sub_self, Nat.zero_add, ← count]
    refine (run_deleted going).trans ?_
    rw [count, show o.oldStart + (o.oldStop - o.oldStart) = o.oldStop by omega]
  | insert =>
    have none := sound.insert tag
    dsimp only [Diff.marked]
    rw [← behind, none, Nat.sub_self, Nat.zero_add, ← count']
    refine (run_inserted coming).trans ?_
    rw [before]
  | replace =>
    dsimp only [Diff.marked]
    rw [List.foldlM_append, ← count, ← count']
    refine Option.bind_eq_some_iff.2 ⟨_, run_deleted going, (run_inserted coming).trans ?_⟩
    rw [count, show o.oldStart + (o.oldStop - o.oldStart) = o.oldStop by omega, before]

theorem run_chain (chain : Chain old new a b os c d) (lined : Lined old pieces stop) (h : c ≤ stop)
    (lines : ∀ line ∈ new.toList.take stop', IsLine line) (h' : d ≤ stop') :
    (os.flatMap (·.lines old new)).foldlM Progress.step
        (progress pieces new a b (c - a) (d - b)) = some (progress pieces new c d 0 0) := by
  induction chain with
  | nil =>
    rw [Nat.sub_self, Nat.sub_self]
    rfl
  | @cons a b c d o os sound ha hb rest ih =>
    subst ha hb
    obtain ⟨more, more'⟩ := rest.le
    have ordered := sound.ordered
    have ordered' := sound.ordered'
    rw [List.flatMap_cons, List.foldlM_append,
      show c - o.oldStart = o.oldStop - o.oldStart + (c - o.oldStop) by omega,
      show d - o.newStart = o.newStop - o.newStart + (d - o.newStop) by omega]
    exact Option.bind_eq_some_iff.2 ⟨_, run_operation sound lined (Nat.le_trans more h) lines
      (Nat.le_trans more' h'), ih h h'⟩

theorem getLast?_hunkHeader (group : List Operation) : (Diff.hunkHeader group).getLast? = some '\n' := by
  rw [Diff.hunkHeader, String.toList_append, List.getLast?_append]
  rfl

/-- Entering a hunk takes over the lines before it. -/
theorem enter_eq {s : Progress} {r r' : Range} (h : r.before = s.taken + k) (room : k ≤ s.rest.length)
    (h' : r'.before = s.done.length + k) : s.enter r r' =
      some ⟨s.done ++ s.rest.take k, s.taken + k, s.rest.drop k, r.count, r'.count⟩ := by
  have gap : r.before - s.taken = k := by omega
  rw [Progress.enter, gap, if_pos ⟨by omega, room, h'.symm⟩, h]

/-- A hunk leads over the lines before it and the lines that it shows. -/
theorem run_hunk (same : Same old new a b k) (chain : Chain old new (a + k) (b + k) group c d)
    (some : group ≠ []) (lined : Lined old pieces stop) (h : c ≤ stop)
    (lines : ∀ line ∈ new.toList.take stop', IsLine line) (h' : d ≤ stop') :
    (Diff.hunk old new group).foldlM Progress.step (progress pieces new a b 0 0) =
      Option.some (progress pieces new c d 0 0) := by
  obtain ⟨more, more'⟩ := chain.le
  obtain ⟨first, last, hfirst, hlast, starts⟩ := chain.ends some
  obtain ⟨r, r', read, before, count, before', count'⟩ := readHeader_rangeText (a + k) c (b + k) d
  have header : readHeader (Diff.hunkHeader group) = Option.some (r, r') := by
    rw [Diff.hunkHeader, hfirst, hlast]
    dsimp only [Option.map_some, Option.getD_some]
    rw [starts.1, starts.2.1, starts.2.2.1, starts.2.2.2]
    exact read
  have piece := lined.drop (Nat.le_add_right a k) (Nat.le_trans more h)
  have size : (old.extract a (a + k)).toList.length = k := by
    rw [Diff.length_piece same.fits, Nat.add_sub_cancel_left]
  have entered : Progress.enter (progress pieces new a b 0 0) r r' =
      Option.some (progress pieces new (a + k) (b + k) (c - (a + k)) (d - (b + k))) := by
    have room : k ≤ (pieces.drop a).length := by
      rw [piece, List.length_append, size]
      exact Nat.le_add_right _ _
    have fits := same.fits'
    have behind : b + k = (new.toList.take b).length + k := by
      rw [List.length_take, Array.length_toList, Nat.min_eq_left (by omega)]
    refine (enter_eq before room (before'.trans behind)).trans ?_
    rw [progress, progress, count, count']
    dsimp only
    rw [piece, List.take_left' size, List.drop_left' size, same.extract_eq,
      take_append_extract (Nat.le_add_right b k)]
  have stepped : Progress.step (progress pieces new a b 0 0) (Diff.hunkHeader group) =
      Option.some (progress pieces new (a + k) (b + k) (c - (a + k)) (d - (b + k))) := by
    rw [Progress.step, if_pos (getLast?_hunkHeader group)]
    show (readHeader (Diff.hunkHeader group) >>= _) = _
    rw [header]
    exact entered
  rw [Diff.hunk, List.foldlM_cons, stepped]
  exact run_chain chain lined h lines h'

/-- The numbers of lines of the old and of the new text up to the last one that groups show; those given
if they show none. -/
def shownUpTo (a b : Nat) (gs : List (List Operation)) : Nat × Nat :=
  match gs.getLast?.bind List.getLast? with
  | some o => (o.oldStop, o.newStop)
  | none => (a, b)

theorem shownUpTo_cons (chain : Chain old new a b group c d) (some : group ≠ [])
    (all : ∀ g ∈ gs, g ≠ []) (i j : Nat) : shownUpTo i j (group :: gs) = shownUpTo c d gs := by
  rw [shownUpTo, shownUpTo]
  cases gs with
  | nil =>
    obtain ⟨_, last, _, hlast, _, _, stop, stop'⟩ := chain.ends some
    rw [List.getLast?_singleton, Option.bind_some, hlast, List.getLast?_nil, Option.bind_none]
    dsimp only
    rw [stop, stop']
  | cons g gs =>
    rw [List.getLast?_cons_cons]
    have filled := all _ (List.getLast_mem (List.cons_ne_nil g gs))
    rw [List.getLast?_eq_some_getLast (List.cons_ne_nil g gs), Option.bind_some,
      List.getLast?_eq_some_getLast filled]

theorem le_shownUpTo (grouped : Grouped old new a b gs) (all : ∀ g ∈ gs, g ≠ []) :
    a ≤ (shownUpTo a b gs).1 ∧ b ≤ (shownUpTo a b gs).2 := by
  induction grouped with
  | nil => exact ⟨Nat.le_refl _, Nat.le_refl _⟩
  | @cons a b c d k group gs same chain rest ih =>
    have later : ∀ g ∈ gs, g ≠ [] := fun g hg => all g (List.mem_cons_of_mem group hg)
    rw [shownUpTo_cons chain (all group List.mem_cons_self) later]
    obtain ⟨more, more'⟩ := chain.le
    obtain ⟨further, further'⟩ := ih later
    exact ⟨by omega, by omega⟩

/-- The hunks of groups lead up to the last line that they show, and what follows is the same in both
texts. -/
theorem run_groups (grouped : Grouped old new a b gs) (all : ∀ g ∈ gs, g ≠ [])
    (lined : Lined old pieces (shownUpTo a b gs).1)
    (lines : ∀ line ∈ new.toList.take (shownUpTo a b gs).2, IsLine line) :
    (gs.flatMap (Diff.hunk old new)).foldlM Progress.step (progress pieces new a b 0 0) =
        some (progress pieces new (shownUpTo a b gs).1 (shownUpTo a b gs).2 0 0) ∧
      ∃ k, Same old new (shownUpTo a b gs).1 (shownUpTo a b gs).2 k ∧
        (shownUpTo a b gs).1 + k = old.size ∧ (shownUpTo a b gs).2 + k = new.size := by
  induction grouped with
  | nil same ha hb => exact ⟨rfl, _, same, ha, hb⟩
  | @cons a b c d k group gs same chain rest ih =>
    have later : ∀ g ∈ gs, g ≠ [] := fun g hg => all g (List.mem_cons_of_mem group hg)
    have filled := all group List.mem_cons_self
    rw [shownUpTo_cons chain filled later] at lined lines ⊢
    obtain ⟨more, more'⟩ := le_shownUpTo rest later
    obtain ⟨run, tail⟩ := ih later lined lines
    refine ⟨?_, tail⟩
    rw [List.flatMap_cons, List.foldlM_append]
    exact Option.bind_eq_some_iff.2 ⟨_, run_hunk same chain filled lined more lines more', run⟩

/-! ### Diffs -/

theorem isLine_cons (h : IsLine line) {c : Char} (other : c ≠ '\n') : IsLine (c :: line) := by
  obtain ⟨front, rfl, none⟩ := h
  refine ⟨c :: front, rfl, ?_⟩
  rw [List.mem_cons, not_or]
  exact ⟨other.symm, none⟩

theorem lineFeed_not_mem_toString (n : Nat) : '\n' ∉ (toString n).toList := by
  have written : (toString n).toList = Nat.toDigits 10 n := Nat.toList_repr
  intro mem
  rw [written] at mem
  exact absurd (Nat.isDigit_of_mem_toDigits (by decide) (by decide) mem) (by decide)

theorem isLine_hunkHeader (group : List Operation) : IsLine (Diff.hunkHeader group) := by
  have range (i j : Nat) : '\n' ∉ (Diff.rangeText i j).toList := by
    rw [Diff.rangeText]
    split
    · exact lineFeed_not_mem_toString _
    · simp only [String.toList_append, List.mem_append, not_or]
      exact ⟨⟨lineFeed_not_mem_toString _, by decide⟩, lineFeed_not_mem_toString _⟩
  rw [Diff.hunkHeader]
  generalize hold : Diff.rangeText _ _ = old
  generalize hnew : Diff.rangeText _ _ = new
  refine ⟨("@@ -" ++ old ++ " +" ++ new ++ " @@").toList, ?_, ?_⟩
  · simp only [String.toList_append, List.append_assoc]
    rfl
  · simp only [String.toList_append, List.mem_append, not_or]
    exact ⟨⟨⟨⟨by decide, hold ▸ range _ _⟩, by decide⟩, hnew ▸ range _ _⟩, by decide⟩

/-- The lines that an operation shows are lines. -/
theorem isLine_of_mem_operation (lines : ∀ line ∈ old.toList.take stop, IsLine line)
    (h : o.oldStop ≤ stop) (lines' : ∀ line ∈ new.toList.take stop', IsLine line)
    (h' : o.newStop ≤ stop') : ∀ line ∈ o.lines old new, IsLine line := by
  have going (mark : Char) (other : mark ≠ '\n') :
      ∀ line ∈ Diff.marked mark old o.oldStart o.oldStop, IsLine line := by
    intro line mem
    obtain ⟨own, hown, rfl⟩ := List.mem_map.1 mem
    exact isLine_cons (isLine_of_mem_extract lines h own hown) other
  have coming (mark : Char) (other : mark ≠ '\n') :
      ∀ line ∈ Diff.marked mark new o.newStart o.newStop, IsLine line := by
    intro line mem
    obtain ⟨own, hown, rfl⟩ := List.mem_map.1 mem
    exact isLine_cons (isLine_of_mem_extract lines' h' own hown) other
  intro line mem
  rw [Operation.lines] at mem
  split at mem
  · exact going ' ' (by decide) line mem
  · exact going '-' (by decide) line mem
  · exact coming '+' (by decide) line mem
  · rcases List.mem_append.1 mem with mem | mem
    · exact going '-' (by decide) line mem
    · exact coming '+' (by decide) line mem

/-- The lines of the hunks of groups are lines. -/
theorem isLine_of_mem_hunks (grouped : Grouped old new a b gs) (all : ∀ g ∈ gs, g ≠ [])
    (lines : ∀ line ∈ old.toList.take (shownUpTo a b gs).1, IsLine line)
    (lines' : ∀ line ∈ new.toList.take (shownUpTo a b gs).2, IsLine line) :
    ∀ line ∈ gs.flatMap (Diff.hunk old new), IsLine line := by
  induction grouped with
  | nil => exact fun line mem => absurd mem List.not_mem_nil
  | @cons a b c d k group gs same chain rest ih =>
    have later : ∀ g ∈ gs, g ≠ [] := fun g hg => all g (List.mem_cons_of_mem group hg)
    rw [shownUpTo_cons chain (all group List.mem_cons_self) later] at lines lines'
    obtain ⟨more, more'⟩ := le_shownUpTo rest later
    intro line mem
    rw [List.flatMap_cons, List.mem_append] at mem
    rcases mem with mem | mem
    · rcases List.mem_cons.1 mem with rfl | mem
      · exact isLine_hunkHeader group
      · obtain ⟨o, ho, mem⟩ := List.mem_flatMap.1 mem
        obtain ⟨stop, stop'⟩ := chain.stop_le o ho
        exact isLine_of_mem_operation lines (Nat.le_trans stop more) lines' (Nat.le_trans stop' more') line
          mem
    · exact ih later lines lines' line mem

/-- The pieces that a text has between its line feeds are its lines as far as those end in line feeds. -/
theorem lined_physicalLines
    (feeds : ∀ line ∈ (Text.lines cs).take stop, line.getLast? = some '\n') :
    Lined (Text.lines cs).toArray (physicalLines cs) stop := by
  have lines : ∀ line ∈ (Text.lines cs).take stop, IsLine line := fun line mem =>
    isLine_of_mem_lines (List.mem_of_mem_take mem) (feeds line mem)
  have split : physicalLines cs =
      (Text.lines cs).take stop ++ physicalLines ((Text.lines cs).drop stop).flatten := by
    rw [← physicalLines_flatten_append lines, ← List.flatten_append, List.take_append_drop,
      Text.flatten_lines]
  have few := List.length_take_le stop (Text.lines cs)
  by_cases short : (Text.lines cs).length ≤ stop
  · -- All lines are taken.
    have none : (Text.lines cs).drop stop = [] := List.drop_eq_nil_of_le short
    have all : physicalLines cs = Text.lines cs := by
      rw [split, none, List.take_of_length_le short]
      exact List.append_nil _
    exact ⟨by rw [all], by rw [all], lines⟩
  · have full : ((Text.lines cs).take stop).length = stop := by
      rw [List.length_take, Nat.min_eq_left (by omega)]
    exact ⟨by rw [split, List.take_left' full], by
      rw [split, List.drop_left' full, flatten_physicalLines], lines⟩

theorem isLine_fileLine {word name : String} (plain : '\n' ∉ word.toList) (h : '\n' ∉ name.toList) :
    IsLine (word ++ name ++ "\n").toList :=
  ⟨(word ++ name).toList, by rw [String.toList_append]; rfl, by
    rw [String.toList_append, List.mem_append, not_or]
    exact ⟨plain, h⟩⟩

/-- The lines of a diff of two different texts are a patch that leads from the one to the other. -/
theorem apply_unifiedLines {file : String} {n : Nat} {before after : List Char} (differ : before ≠ after)
    (plain : '\n' ∉ file.toList) :
    let old := (Text.lines before).toArray
    let new := (Text.lines after).toArray
    let shown := shownUpTo 0 0 (Diff.groups n old new)
    (∀ line ∈ (Text.lines before).take shown.1, line.getLast? = some '\n') →
    (∀ line ∈ (Text.lines after).take shown.2, line.getLast? = some '\n') →
    apply (Diff.unifiedLines ("a/" ++ file) ("b/" ++ file) n old new).flatten before = some after := by
  intro old new shown feeds feeds'
  have grouped := Diff.grouped_groups n old new
  have filled : ∀ g ∈ Diff.groups n old new, g ≠ [] := by
    rintro g mem rfl
    exact absurd (List.mem_filter.1 mem).2 Bool.false_ne_true
  have lined : Lined old (physicalLines before) shown.1 := lined_physicalLines feeds
  have lines : ∀ line ∈ new.toList.take shown.2, IsLine line := (lined_physicalLines feeds').lines
  obtain ⟨run, k, same, ends, ends'⟩ := run_groups grouped filled lined lines
  have hunks := isLine_of_mem_hunks grouped filled lined.lines lines
  have result : ((new.toList.take shown.2) ++ (physicalLines before).drop shown.1).flatten = after := by
    have tail := same.extract_eq
    rw [ends, ends', toList_extract_eq, toList_extract_eq, ← Array.length_toList, ← Array.length_toList,
      List.take_length, List.take_length] at tail
    rw [List.flatten_append, lined.rest, tail, ← List.flatten_append, List.take_append_drop]
    exact Text.flatten_lines after
  cases groups : Diff.groups n old new with
  | nil =>
    rw [groups] at grouped
    cases grouped with
    | nil same ends ends' =>
      have whole := same.extract_eq
      rw [ends, Array.extract_size, ends.symm.trans ends', Array.extract_size] at whole
      have equal : Text.lines before = Text.lines after := whole
      rw [← Text.flatten_lines before, equal, Text.flatten_lines] at differ
      exact absurd rfl differ
  | cons g gs =>
    obtain ⟨first, more, hmore⟩ : ∃ first more,
        (Diff.groups n old new).flatMap (Diff.hunk old new) = first :: more :=
      ⟨_, _, by rw [groups, List.flatMap_cons]; rfl⟩
    obtain ⟨source, hsource⟩ : ∃ source, source = ("--- " ++ ("a/" ++ file) ++ "\n").toList := ⟨_, rfl⟩
    obtain ⟨target, htarget⟩ : ∃ target, target = ("+++ " ++ ("b/" ++ file) ++ "\n").toList := ⟨_, rfl⟩
    have written : Diff.unifiedLines ("a/" ++ file) ("b/" ++ file) n old new =
        source :: target :: first :: more := by
      rw [Diff.unifiedLines, ← hmore, groups, hsource, htarget]
    have named (front : String) (h : '\n' ∉ front.toList) : '\n' ∉ (front ++ file).toList := by
      rw [String.toList_append, List.mem_append, not_or]
      exact ⟨h, plain⟩
    have whole : ∀ line ∈ source :: target :: first :: more, IsLine line := by
      rw [hmore] at hunks
      refine List.forall_mem_cons.2 ⟨?_, List.forall_mem_cons.2 ⟨?_, hunks⟩⟩
      · rw [hsource]
        exact isLine_fileLine (by decide) (named "a/" (by decide))
      · rw [htarget]
        exact isLine_fileLine (by decide) (named "b/" (by decide))
    have pieces : physicalLines (source :: target :: first :: more).flatten =
        source :: target :: first :: more := by
      have cut := physicalLines_flatten_append whole []
      rwa [List.append_nil, physicalLines, List.append_nil] at cut
    have headed : ("--- ".toList.isPrefixOf source && "+++ ".toList.isPrefixOf target) = true := by
      rw [hsource, htarget, Bool.and_eq_true, List.isPrefixOf_iff_prefix, List.isPrefixOf_iff_prefix]
      simp only [String.toList_append, List.append_assoc]
      exact ⟨List.prefix_append _ _, List.prefix_append _ _⟩
    rw [hmore] at run
    rw [written, apply, pieces]
    dsimp only
    rw [if_pos headed]
    exact Option.bind_eq_some_iff.2 ⟨_, run, (if_pos rfl).trans (congrArg some result)⟩

end MonoTap.Patch

namespace MonoTap

open Patch (apply shownUpTo)

/-- The diff of a file that did not change is empty. The diff of one that did is a patch that leads from its
old text to its new one, if the name of the file has no line feed and every line of the two texts up to the
last one that the diff shows ends in one. -/
theorem diff_is_patch (m : FileMigration) (n : Nat) :
    (m.changed = false → m.diff n = "") ∧
    (m.changed = true →
      let old := Text.lines m.result.before.toList
      let new := Text.lines m.result.text.toList
      let shown := shownUpTo 0 0 (Diff.groups n old.toArray new.toArray)
      '\n' ∉ m.file.toList →
      (∀ line ∈ old.take shown.1, line.getLast? = some '\n') →
      (∀ line ∈ new.take shown.2, line.getLast? = some '\n') →
      apply (m.diff n).toList m.result.before.toList = some m.result.text.toList) := by
  constructor
  · intro unchanged
    rw [FileMigration.diff, unchanged, if_neg Bool.false_ne_true]
  · intro changed old new shown plain feeds feeds'
    have differ : m.result.before.toList ≠ m.result.text.toList := by
      rw [FileMigration.changed, Conversion.changed, bne_iff_ne] at changed
      exact fun same => changed (String.toList_inj.1 same).symm
    rw [FileMigration.diff, changed, if_pos rfl, Diff.unified, String.toList_ofList]
    exact Patch.apply_unifiedLines differ plain feeds feeds'

theorem diff_is_patch_of_one_line :
    apply (FileMigration.diff ⟨"A.java", ⟨"A.java", "a\nb\n", "a\nc\n", [], []⟩, false⟩ 3).toList
      "a\nb\n".toList = some "a\nc\n".toList := by
  have feeds (text : String) (h : (Text.lines text.toList).all (·.getLast? == some '\n') = true) (k : Nat) :
      ∀ line ∈ (Text.lines text.toList).take k, line.getLast? = some '\n' := fun line mem =>
    beq_iff_eq.1 (List.all_eq_true.1 h line (List.mem_of_mem_take mem))
  exact (diff_is_patch ⟨"A.java", ⟨"A.java", "a\nb\n", "a\nc\n", [], []⟩, false⟩ 3).2 (by decide)
    (by decide) (feeds "a\nb\n" (by decide +kernel) _) (feeds "a\nc\n" (by decide +kernel) _)

end MonoTap
