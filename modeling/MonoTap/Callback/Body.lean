import MonoTap.Callback.Statement

/-!
# The body of a callback

How a block is cut into statements. Each statement gets a slot, which also covers the comments
attached to it: those before it, and those on the line where it ends. A test of a name against
`null` is a guard: its branches are cut up in turn, and comments beside it have slots of their own.

The slots become the entries of a tree, and the tree is laid out in one list, a guard before its
branches.
-/

set_option autoImplicit false

namespace MonoTap.Callback

open Java (Node)
open Text (Source)

/-! ### Guards -/

/-- The named nodes inside other than comments. -/
def uncommented (n : Node) : List Node :=
  n.namedChildren.filter (!·.isComment)

theorem mem_children_of_mem_uncommented {c n : Node} (h : c ∈ uncommented n) : c ∈ n.children :=
  Node.mem_children_of_mem_namedChildren (List.mem_filter.1 h).1

/-- The expression inside any number of parentheses. -/
def unwrapped? (n : Node) : Option Node :=
  if n.is .parenthesizedExpression then
    match _h : uncommented n with
    | [c] => unwrapped? c
    | _ => none
  else some n
termination_by sizeOf n
decreasing_by
  exact Node.sizeOf_lt_of_mem_children (mem_children_of_mem_uncommented (by simp [_h]))

/-- The operand that an expression compares with `null`, and how. -/
def nullTest? (n : Node) : Option (Node × NullCheck) := do
  let e ← unwrapped? n
  guard (e.is .binaryExpression)
  let operator ← e.child? .operator
  let check ← match operator.label with
    | .token t => NullCheck.ofOperator? t
    | .kind _ => none
  let left ← (e.child? .left).bind unwrapped?
  let right ← (e.child? .right).bind unwrapped?
  if right.is .nullLiteral then some (left, check)
  else if left.is .nullLiteral then some (right, check)
  else none

/-- The test that makes a statement a guard: its condition compares a name that denotes a binding
with `null`. -/
def guardTest? (r : Resolution) (n : Node) : Option (Binding × NullCheck) := do
  guard (n.is .ifStatement)
  let condition ← n.child? .condition
  let (operand, check) ← nullTest? condition
  guard (operand.is .identifier)
  let subject ← r.bindingAt? operand.start
  return (subject, check)

/-- Whether a statement is a guard. -/
def isGuard (r : Resolution) (n : Node) : Bool :=
  (guardTest? r n).isSome

/-! ### Slots -/

/-- A range of bytes of a block: a statement with its comments, or comments alone. -/
structure Slot where
  start : Nat
  stop : Nat
  statement : Option Node

/-- The slot of comments, which is none without any. -/
def commentSlots (comments : List Node) : List Slot :=
  match comments.head?, comments.getLast? with
  | some first, some last => [⟨first.start, last.stop, none⟩]
  | _, _ => []

/-- The slot of a statement after the comments before it. -/
def statementSlot (comments : List Node) (n : Node) : Slot :=
  ⟨((comments.head?).map Node.start).getD n.start, n.stop, some n⟩

/-- Whether a slot is that of a guard. -/
def Slot.isGuard (r : Resolution) (s : Slot) : Bool :=
  s.statement.any (Callback.isGuard r)

/-- The slots of the nodes of a block, where `last` is the latest slot, which may still grow, `row`
is the row where the latest statement ends, and `pending` are the comments since. -/
def slotsFrom (source : Source) (r : Resolution) (row : Nat) (last : Option Slot)
    (pending : List Node) : List Node → List Slot
  | [] => last.toList ++ commentSlots pending
  | c :: cs =>
    if c.isComment then
      match last with
      | none => slotsFrom source r row none (pending ++ [c]) cs
      | some s =>
        if pending.isEmpty && source.row c.start == row then
          if s.isGuard r then s :: slotsFrom source r row (some ⟨c.start, c.stop, none⟩) [] cs
          else slotsFrom source r row (some { s with stop := c.stop }) [] cs
        else slotsFrom source r row (some s) (pending ++ [c]) cs
    else
      last.toList ++
        if isGuard r c then
          commentSlots pending ++
            slotsFrom source r (source.row c.stop) (some (statementSlot [] c)) [] cs
        else slotsFrom source r (source.row c.stop) (some (statementSlot pending c)) [] cs

/-- The slots of a block. -/
def slotsOf (source : Source) (r : Resolution) (block : Node) : List Slot :=
  slotsFrom source r 0 none [] block.namedChildren

theorem statement_of_mem_commentSlots {comments : List Node} {s : Slot}
    (h : s ∈ commentSlots comments) : s.statement = none := by
  unfold commentSlots at h
  split at h
  · simp only [List.mem_singleton] at h
    rw [h]
  · simp at h

/-- The statement of a slot is one of the nodes, or that of the slot that was open. -/
theorem statement_of_mem_slotsFrom {source : Source} {r : Resolution} {row : Nat}
    {last : Option Slot} {pending nodes : List Node} {s : Slot} {n : Node}
    (h : s ∈ slotsFrom source r row last pending nodes) (hn : s.statement = some n) :
    n ∈ nodes ∨ ∃ t, last = some t ∧ t.statement = some n := by
  have comments {l : List Node} (hs : s ∈ commentSlots l) : False := by
    rw [statement_of_mem_commentSlots hs] at hn
    cases hn
  have opened {t : Option Slot} (ht : s ∈ t.toList) : ∃ u, t = some u ∧ u.statement = some n := by
    cases t with
    | none => simp at ht
    | some u =>
      simp only [Option.toList_some, List.mem_singleton] at ht
      exact ⟨u, rfl, ht ▸ hn⟩
  induction nodes generalizing row last pending with
  | nil =>
    simp only [slotsFrom, List.mem_append] at h
    rcases h with h | h
    · exact Or.inr (opened h)
    · exact (comments h).elim
  | cons c cs ih =>
    have later {row' : Nat} {last' : Option Slot} {pending' : List Node}
        (hm : s ∈ slotsFrom source r row' last' pending' cs)
        (hl : ∀ t, last' = some t → t.statement = some n →
          n = c ∨ ∃ t, last = some t ∧ t.statement = some n) :
        n ∈ c :: cs ∨ ∃ t, last = some t ∧ t.statement = some n := by
      rcases ih hm with hi | ⟨t, ht, hs⟩
      · exact Or.inl (List.mem_cons_of_mem _ hi)
      · rcases hl t ht hs with rfl | hl
        · exact Or.inl List.mem_cons_self
        · exact Or.inr hl
    have own {l : List Node} (t : Slot) (ht : some (statementSlot l c) = some t)
        (hs : t.statement = some n) : n = c ∨ ∃ t, last = some t ∧ t.statement = some n := by
      cases ht
      simp only [statementSlot, Option.some.injEq] at hs
      exact Or.inl hs.symm
    simp only [slotsFrom] at h
    split at h
    · split at h
      · exact later h fun t ht => by cases ht
      · rename_i u
        split at h
        · split at h
          · rcases List.mem_cons.1 h with rfl | h
            · exact Or.inr ⟨_, rfl, hn⟩
            · exact later h fun t ht hs => by cases ht; cases hs
          · exact later h fun t ht hs => by
              cases ht
              exact Or.inr ⟨u, rfl, hs⟩
        · exact later h fun t ht hs => Or.inr ⟨t, ht, hs⟩
    · rcases List.mem_append.1 h with h | h
      · exact Or.inr (opened h)
      · split at h
        · rcases List.mem_append.1 h with h | h
          · exact (comments h).elim
          · exact later h own
        · exact later h own

/-- The statement of a slot of a block stands in the block. -/
theorem statement_of_mem_slotsOf {source : Source} {r : Resolution} {block n : Node} {s : Slot}
    (h : s ∈ slotsOf source r block) (hn : s.statement = some n) : n ∈ block.namedChildren := by
  rcases statement_of_mem_slotsFrom h hn with h | ⟨t, ht, _⟩
  · exact h
  · cases ht

/-! ### Entries -/

/-- A statement of a block by the bytes it covers, a guard with the entries of its branches. -/
inductive Entry where
  | plain (start stop : Nat)
  | guard (start stop : Nat) (subject : Binding) (check : NullCheck)
    (thenBranch elseBranch : List Entry)

/-- A statement of a block inside `n` is smaller than `n`. -/
theorem sizeOf_statement_lt {source : Source} {r : Resolution} {n block : Node} {role : Java.Role}
    {s : Slot} (inside : n.child? role = some block) (hs : s ∈ slotsOf source r block) :
    sizeOf s.statement < sizeOf (some n) := by
  have outer := Node.sizeOf_lt_of_mem_children (Node.mem_children_of_child? inside)
  cases h : s.statement with
  | none =>
    have positive : 0 < sizeOf n := by cases n; simp only [Node.mk.sizeOf_spec]; omega
    simp only [Option.none.sizeOf_spec, Option.some.sizeOf_spec]
    omega
  | some m =>
    have inner := Node.sizeOf_lt_of_mem_children
      (Node.mem_children_of_mem_namedChildren (statement_of_mem_slotsOf hs h))
    simp only [Option.some.sizeOf_spec]
    omega

mutual

/-- The entry of a slot, where a guard is taken apart. -/
def entryOf (source : Source) (r : Resolution) (slot : Slot) : Entry :=
  match _h : slot.statement with
  | none => .plain slot.start slot.stop
  | some n =>
    match guardTest? r n with
    | none => .plain slot.start slot.stop
    | some (subject, check) =>
      .guard slot.start slot.stop subject check (branchEntries source r n .consequence)
        (branchEntries source r n .alternative)
termination_by (sizeOf slot.statement, 1)
decreasing_by all_goals (rw [_h]; exact Prod.Lex.right _ Nat.zero_lt_one)

/-- The entries of a branch of a guard; a branch that is no block is one statement. -/
def branchEntries (source : Source) (r : Resolution) (n : Node) (role : Java.Role) : List Entry :=
  match _h : n.child? role with
  | none => []
  | some b =>
    if b.is .block then
      (slotsOf source r b).attach.map fun ⟨s, _inside⟩ => entryOf source r s
    else [entryOf source r (statementSlot [] b)]
termination_by (sizeOf (some n), 0)
decreasing_by
  · exact Prod.Lex.left _ _ (sizeOf_statement_lt _h _inside)
  · have smaller := Node.sizeOf_lt_of_mem_children (Node.mem_children_of_child? _h)
    refine Prod.Lex.left _ _ ?_
    simp only [statementSlot, Option.some.sizeOf_spec]
    omega

end

/-- The entries of a block. -/
def entriesOf (source : Source) (r : Resolution) (block : Node) : List Entry :=
  (slotsOf source r block).map (entryOf source r)

/-! ### Laying out -/

mutual

/-- The number of statements of an entry. -/
def Entry.size : Entry → Nat
  | .plain _ _ => 1
  | .guard _ _ _ _ thenBranch elseBranch => 1 + sizeAll thenBranch + sizeAll elseBranch

/-- The number of statements of several entries. -/
def sizeAll : List Entry → Nat
  | [] => 0
  | e :: es => e.size + sizeAll es

end

/-- The positions of entries laid out from a position on. -/
def positionsFrom (base : Nat) : List Entry → List Int
  | [] => []
  | e :: es => base :: positionsFrom (base + e.size) es

/-- The statement that covers a range of bytes. -/
def statementAt (source : Source) (r : Resolution) (start stop : Nat) (guard : Option Guard) :
    Statement :=
  { kind := if guard.isSome then .guard else .plain
    text := source.textOf start stop
    references := r.referencesIn start stop
    start, stop
    line := source.line start
    indent := (source.lineIndent start).length
    guard }

mutual

/-- The statements of an entry laid out from a position on. -/
def statementsOf (source : Source) (r : Resolution) (base : Nat) : Entry → List Statement
  | .plain start stop => [statementAt source r start stop none]
  | .guard start stop subject check thenBranch elseBranch =>
    let thenBase := base + 1
    let elseBase := thenBase + sizeAll thenBranch
    statementAt source r start stop (some
        ⟨subject, check, positionsFrom thenBase thenBranch, positionsFrom elseBase elseBranch⟩) ::
      (statementsFrom source r thenBase thenBranch ++ statementsFrom source r elseBase elseBranch)

/-- The statements of several entries laid out from a position on. -/
def statementsFrom (source : Source) (r : Resolution) (base : Nat) : List Entry → List Statement
  | [] => []
  | e :: es => statementsOf source r base e ++ statementsFrom source r (base + e.size) es

end

/-- The statements of some entries. -/
def arenaOf (source : Source) (r : Resolution) (entries : List Entry) : Arena :=
  ⟨statementsFrom source r 0 entries⟩

mutual

theorem length_statementsOf (source : Source) (r : Resolution) (base : Nat) (e : Entry) :
    (statementsOf source r base e).length = e.size := by
  cases e with
  | plain => simp [statementsOf, Entry.size]
  | guard start stop subject check thenBranch elseBranch =>
    simp only [statementsOf, Entry.size, List.length_cons, List.length_append,
      length_statementsFrom]
    omega

/-- Every entry takes up as many positions as it has statements. -/
theorem length_statementsFrom (source : Source) (r : Resolution) (base : Nat) (es : List Entry) :
    (statementsFrom source r base es).length = sizeAll es := by
  cases es with
  | nil => simp [statementsFrom, sizeAll]
  | cons e es =>
    simp only [statementsFrom, sizeAll, List.length_append, length_statementsOf source r base e,
      length_statementsFrom source r (base + e.size) es]

end

end MonoTap.Callback
