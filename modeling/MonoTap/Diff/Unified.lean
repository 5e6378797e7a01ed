import MonoTap.Diff.Operation
import MonoTap.Text.Lines

/-!
# Unified diffs

The text that shows how one text becomes another: two lines with the names, and for each group of
operations a line with the ranges of lines and then the lines, marked by how they fare.
-/

set_option autoImplicit false

namespace MonoTap.Diff

/-- The range of lines from `start` up to `stop`, as a hunk names it. -/
def rangeText (start stop : Nat) : String :=
  let count := stop - start
  if count == 1 then toString (start + 1)
  else toString (if count == 0 then start else start + 1) ++ "," ++ toString count

/-- Lines of a text with a mark before each. -/
def marked (mark : Char) (text : Array Line) (start stop : Nat) : List Line :=
  (text.extract start stop).toList.map (mark :: ·)

/-- The lines that show an operation. -/
def Operation.lines (old new : Array Line) (o : Operation) : List Line :=
  match o.tag with
  | .keep => marked ' ' old o.oldStart o.oldStop
  | .delete => marked '-' old o.oldStart o.oldStop
  | .insert => marked '+' new o.newStart o.newStop
  | .replace => marked '-' old o.oldStart o.oldStop ++ marked '+' new o.newStart o.newStop

/-- The line before the lines of a group. -/
def hunkHeader (group : List Operation) : Line :=
  let oldStart := (group.head?.map (·.oldStart)).getD 0
  let oldStop := (group.getLast?.map (·.oldStop)).getD 0
  let newStart := (group.head?.map (·.newStart)).getD 0
  let newStop := (group.getLast?.map (·.newStop)).getD 0
  ("@@ -" ++ rangeText oldStart oldStop ++ " +" ++ rangeText newStart newStop ++ " @@\n").toList

/-- The lines that show a group. -/
def hunk (old new : Array Line) (group : List Operation) : List Line :=
  hunkHeader group :: group.flatMap (·.lines old new)

/-- The lines that show how the lines `old` become the lines `new`, with `n` lines around each
change. Without a change there are none. -/
def unifiedLines (oldName newName : String) (n : Nat) (old new : Array Line) : List Line :=
  match groups n old new with
  | [] => []
  | gs => ("--- " ++ oldName ++ "\n").toList :: ("+++ " ++ newName ++ "\n").toList ::
      gs.flatMap (hunk old new)

/-- The text that shows how a text of a file becomes another. -/
def unified (file : String) (n : Nat) (old new : String) : String :=
  let oldLines := (Text.lines old.toList).toArray
  let newLines := (Text.lines new.toList).toArray
  String.ofList (unifiedLines ("a/" ++ file) ("b/" ++ file) n oldLines newLines).flatten

end MonoTap.Diff
