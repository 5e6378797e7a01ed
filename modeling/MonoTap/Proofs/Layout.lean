import MonoTap.Proofs.Classification
import MonoTap.Proofs.Slots

/-!
# The statements of a callback in its arena

At each position of a body stands the statement of one slot. Hence the leaves of a body, by their
positions, are the statements of the slots of its leaves, in order.
-/

set_option autoImplicit false

namespace MonoTap.Callback

open Java (Node Placed Solid)
open Text (Source)

/-! ### Entries in an arena -/

namespace Entry

/-- The first byte of an entry. -/
def start : Entry → Nat
  | .plain start _ => start
  | .guard start _ _ _ _ _ => start

/-- The offset after the last byte of an entry. -/
def stop : Entry → Nat
  | .plain _ stop => stop
  | .guard _ stop _ _ _ _ => stop

/-- The guard of an entry that is laid out from a position on. -/
def test? (base : Nat) : Entry → Option Guard
  | .plain _ _ => none
  | .guard _ _ subject check thenBranch elseBranch =>
    some ⟨subject, check, positionsFrom (base + 1) thenBranch,
      positionsFrom (base + 1 + sizeAll thenBranch) elseBranch⟩

/-- The entries that an entry of a callback stands for. -/
def leaves (p : Parameters) : Entry → List Entry
  | .plain start stop => [.plain start stop]
  | .guard start stop subject check thenBranch elseBranch =>
    if p.contains subject then thenBranch ++ elseBranch
    else [.guard start stop subject check thenBranch elseBranch]

end Entry

/-- The entries stand in the arena from a position on. -/
def Laid (source : Source) (r : Resolution) (arena : Arena) (base : Nat) (es : List Entry) : Prop :=
  ∃ before after, arena.statements = before ++ (statementsFrom source r base es ++ after) ∧
    before.length = base

variable {source : Source} {r : Resolution} {arena : Arena} {base : Nat} {e : Entry}
  {es : List Entry} {p : Parameters}

theorem laid_arenaOf (source : Source) (r : Resolution) (es : List Entry) :
    Laid source r (arenaOf source r es) 0 es :=
  ⟨[], [], (List.append_nil _).symm, rfl⟩

theorem Laid.tail (h : Laid source r arena base (e :: es)) :
    Laid source r arena (base + e.size) es := by
  obtain ⟨before, after, split, length⟩ := h
  refine ⟨before ++ statementsOf source r base e, after, ?_, ?_⟩
  · rw [split, statementsFrom, List.append_assoc, List.append_assoc]
  · rw [List.length_append, length_statementsOf, length]

/-- The statement at the position of an entry. -/
theorem Laid.head (h : Laid source r arena base (e :: es)) :
    arena.get? base = some (statementAt source r e.start e.stop (e.test? base)) := by
  obtain ⟨before, after, split, length⟩ := h
  have first : ∃ rest, statementsOf source r base e =
      statementAt source r e.start e.stop (e.test? base) :: rest := by
    cases e with
    | plain start stop => exact ⟨[], by rw [statementsOf]; rfl⟩
    | guard => exact ⟨_, by rw [statementsOf]; rfl⟩
  obtain ⟨rest, first⟩ := first
  rw [Arena.get?_natCast, split, List.getElem?_append_right (by omega), length, Nat.sub_self,
    statementsFrom, first]
  rfl

section

variable {start stop : Nat} {subject : Binding} {check : NullCheck} {first second : List Entry}

/-- The branches of a guard stand after it, one after the other. -/
theorem Laid.branches
    (h : Laid source r arena base (.guard start stop subject check first second :: es)) :
    Laid source r arena (base + 1) first ∧
      Laid source r arena (base + 1 + sizeAll first) second := by
  obtain ⟨before, after, split, length⟩ := h
  rw [statementsFrom, statementsOf] at split
  simp only [List.cons_append, List.append_assoc] at split
  generalize statementAt source r start stop _ = head at split
  generalize statementsFrom source r _ es = others at split
  refine ⟨⟨before ++ [head], statementsFrom source r (base + 1 + sizeAll first) second ++
      (others ++ after), ?_, ?_⟩, before ++ [head] ++ statementsFrom source r (base + 1) first,
    others ++ after, ?_, ?_⟩
  · rw [split, List.append_assoc]
    rfl
  · rw [List.length_append, length]
    rfl
  · rw [split, List.append_assoc, List.append_assoc]
    rfl
  · rw [List.length_append, List.length_append, length_statementsFrom, length]
    rfl

end

/-- A statement as it would be if it were no guard. -/
def Statement.plain (s : Statement) : Statement :=
  { s with kind := .plain, guard := none }

theorem plain_statementAt (start stop : Nat) (g : Option Guard) :
    (statementAt source r start stop g).plain = statementAt source r start stop none := rfl

theorem guard?_statementAt (start stop : Nat) (g : Option Guard) :
    (statementAt source r start stop g).guard? = g := by
  cases g <;> rfl

/-- The statements at the positions of some entries. -/
theorem Laid.map_positions (h : Laid source r arena base es) :
    (positionsFrom base es).map (fun i => (arena.get? i).map Statement.plain) =
      es.map fun e => some (statementAt source r e.start e.stop none) := by
  induction es generalizing base with
  | nil => rfl
  | cons e es ih =>
    rw [positionsFrom, List.map_cons, List.map_cons, ih h.tail, h.head, Option.map_some,
      plain_statementAt]

/-- The statements at the positions of the leaves of some entries. -/
theorem Laid.map_leaves (h : Laid source r arena base es) :
    (leaves p arena (positionsFrom base es)).map (fun i => (arena.get? i).map Statement.plain) =
      (es.flatMap (Entry.leaves p)).map fun e => some (statementAt source r e.start e.stop none) := by
  induction es generalizing base with
  | nil => rfl
  | cons e es ih =>
    have here : (leavesAt p arena base).map (fun i => (arena.get? i).map Statement.plain) =
        (e.leaves p).map fun e => some (statementAt source r e.start e.stop none) := by
      have test : arena.guardAt? base = e.test? base := by
        rw [Arena.guardAt?, h.head, Option.bind_some, guard?_statementAt]
      have self : ([(base : Int)]).map (fun i => (arena.get? i).map Statement.plain) =
          [e].map fun e => some (statementAt source r e.start e.stop none) := by
        rw [List.map_singleton, List.map_singleton, h.head, Option.map_some, plain_statementAt]
      rw [leavesAt, test]
      cases e with
      | plain start stop => exact self
      | guard start stop subject check thenBranch elseBranch =>
        rw [Entry.test?, Entry.leaves]
        dsimp only
        split
        · rw [List.map_append, List.map_append, h.branches.1.map_positions,
            h.branches.2.map_positions]
        · exact self
    rw [positionsFrom, leaves, List.flatMap_cons, List.map_append, here, ← leaves, ih h.tail,
      List.flatMap_cons, List.map_append]

/-- Every position of some entries, and every position in the branches of their guards, means a
statement. -/
theorem Laid.covers (h : Laid source r arena base es) : arena.Covers (positionsFrom base es) := by
  have present {base : Nat} {es : List Entry} (h : Laid source r arena base es) :
      ∀ i ∈ positionsFrom base es, (arena.get? i).isSome := by
    intro i hi
    have mem := List.mem_map_of_mem (f := fun i => (arena.get? i).map Statement.plain) hi
    rw [h.map_positions] at mem
    obtain ⟨e, _, he⟩ := List.mem_map.1 mem
    rw [← Option.isSome_map (f := Statement.plain), ← he]
    rfl
  refine ⟨present h, ?_⟩
  induction es generalizing base with
  | nil => exact fun i hi => (List.not_mem_nil hi).elim
  | cons e es ih =>
    intro i hi j hj
    rcases List.mem_cons.1 hi with rfl | hi
    · rw [Arena.branchesAt, Arena.guardAt?, h.head, Option.bind_some, guard?_statementAt] at hj
      cases e with
      | plain => cases hj
      | guard start stop subject check thenBranch elseBranch =>
        exact (List.mem_append.1 hj).elim (present h.branches.1 j) (present h.branches.2 j)
    · exact ih h.tail i hi j hj

/-! ### Slots and entries -/

variable {text : List Char} {n block : Node} {s : Slot}

/-- The entry of a slot without a guard. -/
theorem entryOf_plain (h : ∀ n, s.statement = some n → guardTest? r n = none) :
    entryOf source r s = .plain s.start s.stop := by
  rw [entryOf.eq_def]
  split
  · rfl
  · rename_i n hn
    rw [h n hn]

theorem branchEntries_eq (n : Node) (part : Java.Role) :
    branchEntries source r n part = (branchSlots source r n part).map (entryOf source r) := by
  rw [branchEntries.eq_def, branchSlots]
  cases n.child? part with
  | none => rfl
  | some b =>
    dsimp only
    split
    · exact List.attach_map_val ..
    · rfl

/-- The entry of the slot of a guard. -/
theorem entryOf_guard {subject : Binding} {check : NullCheck} (hs : s.statement = some n)
    (hg : guardTest? r n = some (subject, check)) :
    entryOf source r s = .guard s.start s.stop subject check
      ((branchSlots source r n .consequence).map (entryOf source r))
      ((branchSlots source r n .alternative).map (entryOf source r)) := by
  rw [← branchEntries_eq, ← branchEntries_eq, entryOf.eq_def]
  split
  · rename_i hn
    rw [hs] at hn
    cases hn
  · rename_i m hm
    rw [hs] at hm
    cases hm
    rw [hg]

/-- The entry of a slot is that of a guard, or the slot has none. -/
theorem entryOf_cases (r : Resolution) (s : Slot) :
    (∀ n, s.statement = some n → guardTest? r n = none) ∨
      ∃ n subject check, s.statement = some n ∧ guardTest? r n = some (subject, check) := by
  cases hs : s.statement with
  | none => exact Or.inl fun n hn => by cases hn
  | some n =>
    cases hg : guardTest? r n with
    | none => exact Or.inl fun m hm => by cases hm; exact hg
    | some test => exact Or.inr ⟨n, test.1, test.2, rfl, hg⟩

theorem span_entryOf (s : Slot) :
    (entryOf source r s).start = s.start ∧ (entryOf source r s).stop = s.stop := by
  rcases entryOf_cases r s with plain | ⟨n, subject, check, hs, hg⟩
  · rw [entryOf_plain plain]
    exact ⟨rfl, rfl⟩
  · rw [entryOf_guard hs hg]
    exact ⟨rfl, rfl⟩

/-- The entries that the entry of a slot stands for are those of the slots that it stands for. -/
theorem leaves_entryOf (s : Slot) :
    (entryOf source r s).leaves p = (leafSlotsAt source p r s).map (entryOf source r) := by
  rcases entryOf_cases r s with plain | ⟨n, subject, check, hs, hg⟩
  · have self : leafSlotsAt source p r s = [s] := by
      rw [leafSlotsAt]
      cases hs : s.statement with
      | none => rfl
      | some n =>
        have kept : p.splits r n = false := by
          rw [Parameters.splits, plain n hs]
          rfl
        dsimp only
        rw [kept]
        rfl
    rw [self, List.map_singleton, entryOf_plain plain]
    rfl
  · have splits : p.splits r n = p.contains subject := by
      rw [Parameters.splits, hg, Option.any_some]
    rw [leafSlotsAt, hs, entryOf_guard hs hg, Entry.leaves]
    dsimp only
    rw [splits]
    split
    · rw [List.map_append]
    · rw [List.map_singleton, entryOf_guard hs hg]

theorem flatMap_leaves_entriesOf (block : Node) :
    (entriesOf source r block).flatMap (Entry.leaves p) =
      (leafSlots source p r block).map (entryOf source r) := by
  rw [entriesOf, leafSlots, List.flatMap_map, List.map_flatMap]
  exact congrArg (List.flatMap · _) (funext leaves_entryOf)

/-- The statements of the leaves of a callback are those of the slots of the leaves. -/
theorem map_leaves_arenaOf (block : Node) :
    (leaves p (arenaOf source r (entriesOf source r block))
        (positionsFrom 0 (entriesOf source r block))).map
      (fun i => ((arenaOf source r (entriesOf source r block)).get? i).map Statement.plain) =
      (leafSlots source p r block).map fun s => some (statementAt source r s.start s.stop none) := by
  rw [(laid_arenaOf source r _).map_leaves, flatMap_leaves_entriesOf, List.map_map]
  refine List.map_congr_left fun s _ => ?_
  have span : (entryOf source r s).start = s.start ∧ (entryOf source r s).stop = s.stop :=
    span_entryOf s
  rw [Function.comp, span.1, span.2]

/-! ### The bytes of statements -/

/-- A statement whose text is that of some bytes of the source. -/
structure Statement.Quotes (text : List Char) (source : Source) (st : Statement) : Prop where
  spans : Solid text st.start st.stop
  quoted : st.text = source.textOf st.start st.stop

/-- The slots of a branch hold bytes of the text, and their statements lie in the branch. -/
theorem branchSlots_spans {part : Java.Role} (h : n.Belongs text)
    (hs : s ∈ branchSlots source r n part) :
    Solid text s.start s.stop ∧ (∀ m, s.statement = some m → m.Belongs text) ∧
      sizeOf s.statement < sizeOf (some n) := by
  have groups : Grouped r (branchSlots source r n part) (branchNodes n part) :=
    grouped_branchSlots h part
  have inside : ∀ m ∈ branchNodes n part, m.Belongs text := fun m hm =>
    h.inside_children (mem_children_of_mem_branchNodes hm)
  cases hb : n.child? part with
  | none =>
    rw [branchSlots, hb] at hs
    cases hs
  | some b =>
    have child := Node.mem_children_of_child? hb
    refine ⟨((groups.spans (placed_branchNodes h hb) inside).1 s hs).1, ?_⟩
    rw [branchSlots, hb] at hs
    dsimp only at hs
    split at hs
    · refine ⟨fun m hm => ?_, sizeOf_statement_lt hb hs⟩
      have mem := statement_of_mem_slotsOf hs hm
      exact (h.child child).child (Node.mem_children_of_mem_namedChildren mem)
    · cases List.mem_singleton.1 hs
      have smaller := Node.sizeOf_lt_of_mem_children child
      refine ⟨fun m hm => ?_, ?_⟩
      · cases hm
        exact h.child child
      · simp only [statementSlot, Option.some.sizeOf_spec]
        omega

theorem quotes_statementAt {start stop : Nat} (g : Option Guard) (h : Solid text start stop) :
    (statementAt source r start stop g).Quotes text source :=
  ⟨h, rfl⟩

theorem exists_of_mem_statementsFrom {st : Statement} (h : st ∈ statementsFrom source r base es) :
    ∃ e ∈ es, ∃ base, st ∈ statementsOf source r base e := by
  induction es generalizing base with
  | nil => cases h
  | cons e es ih =>
    rw [statementsFrom] at h
    rcases List.mem_append.1 h with here | later
    · exact ⟨e, List.mem_cons_self, base, here⟩
    · obtain ⟨f, hf, found⟩ := ih later
      exact ⟨f, List.mem_cons_of_mem _ hf, found⟩

/-- The statements that the entry of a slot gives rise to quote the text. -/
theorem quotes_of_mem_entryOf (spans : Solid text s.start s.stop)
    (belongs : ∀ n, s.statement = some n → n.Belongs text) {st : Statement}
    (h : st ∈ statementsOf source r base (entryOf source r s)) : st.Quotes text source := by
  generalize hsize : sizeOf s.statement = size
  induction size using Nat.strongRecOn generalizing s base with
  | ind size ih =>
    rcases entryOf_cases r s with plain | ⟨n, subject, check, hs, hg⟩
    · rw [entryOf_plain plain, statementsOf] at h
      cases List.mem_singleton.1 h
      exact quotes_statementAt none spans
    · rw [entryOf_guard hs hg, statementsOf] at h
      have branch {part : Java.Role} {base : Nat} (mem : st ∈ statementsFrom source r base
          ((branchSlots source r n part).map (entryOf source r))) : st.Quotes text source := by
        obtain ⟨e, he, base, hst⟩ := exists_of_mem_statementsFrom mem
        obtain ⟨t, ht, rfl⟩ := List.mem_map.1 he
        obtain ⟨inner, inside, smaller⟩ := branchSlots_spans (belongs n hs) ht
        exact ih _ (by rw [← hsize, hs]; exact smaller) inner inside hst rfl
      rcases List.mem_cons.1 h with rfl | h
      · exact quotes_statementAt _ spans
      · exact (List.mem_append.1 h).elim branch branch

/-- All statements of a callback quote the text. -/
theorem quotes_of_mem_arenaOf (h : block.Belongs text) {st : Statement}
    (hst : st ∈ (arenaOf source r (entriesOf source r block)).statements) :
    st.Quotes text source := by
  obtain ⟨e, he, base, hst⟩ := exists_of_mem_statementsFrom hst
  obtain ⟨s, hs, rfl⟩ := List.mem_map.1 he
  have belongs : ∀ n ∈ block.namedChildren, n.Belongs text := fun n hn =>
    h.child (Node.mem_children_of_mem_namedChildren hn)
  have spans := ((grouped_slotsOf source block).spans
    (h.placed.sublist List.filter_sublist) belongs).1 s hs
  exact quotes_of_mem_entryOf spans.1
    (fun n hn => belongs n (statement_of_mem_slotsOf hs hn)) hst

end MonoTap.Callback
