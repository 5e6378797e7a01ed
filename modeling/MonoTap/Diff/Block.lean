/-!
# Common blocks

The runs of lines that two texts have in common, in order. The longest run is taken first, the
earliest of equally long ones, and then the parts before and after it are searched in turn. In a
long text the lines that occur often start no run, they only extend one.
-/

set_option autoImplicit false

namespace MonoTap.Diff

/-- A line of a text. -/
abbrev Line := List Char

/-- A run of `size` lines that stands at `old` in one text and at `new` in the other. -/
structure Block where
  old : Nat
  new : Nat
  size : Nat
  deriving DecidableEq, Repr

/-- The number of lines from which on a text is long. -/
def longText : Nat := 200

/-- Whether a line of a text of `count` lines that occurs `times` times occurs often. -/
def isPopular (count times : Nat) : Bool :=
  longText ≤ count && count / 100 + 1 < times

/-- The positions of a line in a text, if it does not occur often. -/
def positionsOf (text : Array Line) (line : Line) : List Nat :=
  let places := (List.range text.size).filter fun j => text[j]? == some line
  if isPopular text.size places.length then [] else places

/-- For each line of the old text its positions in the new one. -/
def placesIn (old new : Array Line) : Array (List Nat) :=
  old.map (positionsOf new)

/-- The parts of the two texts that are searched. -/
structure Window where
  oldStart : Nat
  oldStop : Nat
  newStart : Nat
  newStop : Nat
  deriving DecidableEq, Repr

/-- The lengths of the runs that end at a line of the old text, by their ends in the new one, from
those that end one line earlier. -/
def runsAt (window : Window) (earlier : List (Nat × Nat)) (places : List Nat) : List (Nat × Nat) :=
  (places.filter fun j => window.newStart ≤ j && j < window.newStop).map fun j =>
    (j, ((earlier.find? fun (k, _) => k + 1 == j).map Prod.snd).getD 0 + 1)

/-- The longer of a run and the runs that end at line `i` of the old text. -/
def longerRun (i : Nat) (best : Block) (runs : List (Nat × Nat)) : Block :=
  runs.foldl (fun best (j, size) =>
    if best.size < size then ⟨i + 1 - size, j + 1 - size, size⟩ else best) best

/-- The longest run that starts with no frequent line. -/
def longestRun (places : Array (List Nat)) (window : Window) : Block :=
  let rows := List.range' window.oldStart (window.oldStop - window.oldStart)
  (rows.foldl (fun (best, earlier) i =>
    let runs := runsAt window earlier ((places[i]?).getD [])
    (longerRun i best runs, runs)) (⟨window.oldStart, window.newStart, 0⟩, [])).1

/-- The number of equal lines at the starts of two lists. -/
def commonLength : List Line → List Line → Nat
  | x :: xs, y :: ys => if x == y then commonLength xs ys + 1 else 0
  | _, _ => 0

/-- A run with the equal lines just before and after it. -/
def extend (old new : Array Line) (window : Window) (run : Block) : Block :=
  let before := commonLength (old.extract window.oldStart run.old).toList.reverse
    (new.extract window.newStart run.new).toList.reverse
  let after := commonLength (old.extract (run.old + run.size) window.oldStop).toList
    (new.extract (run.new + run.size) window.newStop).toList
  ⟨run.old - before, run.new - before, before + run.size + after⟩

/-- The common blocks of the parts in a window, in order. -/
def blocksIn (old new : Array Line) (places : Array (List Nat)) (window : Window) : List Block :=
  let b := extend old new window (longestRun places window)
  if _inside : 0 < b.size ∧ window.oldStart ≤ b.old ∧ b.old + b.size ≤ window.oldStop then
    let left :=
      if window.oldStart < b.old && window.newStart < b.new then
        blocksIn old new places { window with oldStop := b.old, newStop := b.new }
      else []
    let right :=
      if b.old + b.size < window.oldStop && b.new + b.size < window.newStop then
        blocksIn old new places
          { window with oldStart := b.old + b.size, newStart := b.new + b.size }
      else []
    left ++ b :: right
  else []
termination_by window.oldStop - window.oldStart
decreasing_by
  · show b.old - window.oldStart < window.oldStop - window.oldStart
    omega
  · show window.oldStop - (b.old + b.size) < window.oldStop - window.oldStart
    omega

/-- Blocks without two that touch: such two become one. -/
def joinTouching : List Block → List Block
  | [] => []
  | b :: bs =>
    match joinTouching bs with
    | [] => [b]
    | c :: cs =>
      if b.old + b.size == c.old && b.new + b.size == c.new then
        ⟨b.old, b.new, b.size + c.size⟩ :: cs
      else b :: c :: cs

/-- The common blocks of two texts, in order. -/
def commonBlocks (old new : Array Line) : List Block :=
  joinTouching (blocksIn old new (placesIn old new) ⟨0, old.size, 0, new.size⟩)

/-- The counted lines are equal. -/
theorem take_commonLength (xs ys : List Line) :
    xs.take (commonLength xs ys) = ys.take (commonLength xs ys) := by
  induction xs generalizing ys with
  | nil => simp [commonLength]
  | cons x xs ih =>
    cases ys with
    | nil => simp [commonLength]
    | cons y ys =>
      by_cases h : x = y
      · simp [commonLength, h, ih ys]
      · simp [commonLength, h]

end MonoTap.Diff
