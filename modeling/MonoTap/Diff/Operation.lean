import MonoTap.Diff.Block

/-!
# Operations

What turns one text into another: lines that stay, go, come, or are replaced. Operations far from
each other fall into groups, each with some lines around it that stay.
-/

set_option autoImplicit false

namespace MonoTap.Diff

/-- What happens to some lines. -/
inductive Tag where
  | keep | delete | insert | replace
  deriving DecidableEq, Repr

/-- What happens to the lines from `oldStart` up to `oldStop`, which are the lines from `newStart`
up to `newStop` afterwards. -/
structure Operation where
  tag : Tag
  oldStart : Nat
  oldStop : Nat
  newStart : Nat
  newStop : Nat
  deriving DecidableEq, Repr

/-- The operation on the lines between two blocks, if there are any. -/
def gap (old new : Nat) (b : Block) : List Operation :=
  if old < b.old && new < b.new then [⟨.replace, old, b.old, new, b.new⟩]
  else if old < b.old then [⟨.delete, old, b.old, new, b.new⟩]
  else if new < b.new then [⟨.insert, old, b.old, new, b.new⟩]
  else []

/-- The operations from two positions on, given the blocks from there on. -/
def operationsFrom (old new : Nat) : List Block → List Operation
  | [] => []
  | b :: bs =>
    gap old new b ++
      (if 0 < b.size then [⟨.keep, b.old, b.old + b.size, b.new, b.new + b.size⟩] else []) ++
      operationsFrom (b.old + b.size) (b.new + b.size) bs

/-- The operations that turn one text into another. -/
def operations (old new : Array Line) : List Operation :=
  operationsFrom 0 0 (commonBlocks old new ++ [⟨old.size, new.size, 0⟩])

/-- Only the last `n` lines of an operation that keeps lines. -/
def Operation.tail (n : Nat) (o : Operation) : Operation :=
  { o with oldStart := max o.oldStart (o.oldStop - n), newStart := max o.newStart (o.newStop - n) }

/-- Only the first `n` lines of an operation that keeps lines. -/
def Operation.head (n : Nat) (o : Operation) : Operation :=
  { o with oldStop := min o.oldStop (o.oldStart + n), newStop := min o.newStop (o.newStart + n) }

/-- Shortens the first operation if it keeps lines. -/
def shortenFirst (n : Nat) : List Operation → List Operation
  | [] => []
  | o :: os => (if o.tag == .keep then o.tail n else o) :: os

/-- Shortens the last operation if it keeps lines. -/
def shortenLast (n : Nat) : List Operation → List Operation
  | [] => []
  | [o] => [if o.tag == .keep then o.head n else o]
  | o :: os => o :: shortenLast n os

/-- Cuts operations into groups where more than `2 * n` lines stay; `n` of them go to either side.
The group in hand is `current`, in reverse. -/
def cut (n : Nat) (current : List Operation) : List Operation → List (List Operation)
  | [] => [current.reverse]
  | o :: os =>
    if o.tag == .keep && 2 * n < o.oldStop - o.oldStart then
      (o.head n :: current).reverse :: cut n [o.tail n] os
    else cut n (o :: current) os

/-- Whether something changes in a group. -/
def changes : List Operation → Bool
  | [] => false
  | [o] => o.tag != .keep
  | _ => true

/-- The groups of operations that turn one text into another, with `n` lines around each. -/
def groups (n : Nat) (old new : Array Line) : List (List Operation) :=
  (cut n [] (shortenLast n (shortenFirst n (operations old new)))).filter changes

end MonoTap.Diff
