import MonoTap.Proofs.Layout

/-!
# The arena of a block is a partition of it

The statements listed for a block cut it up: their bytes are apart and in order, every node of the
block is in one of them, and none holds two nodes other than comments. A guard covers its test and
nothing beside it, and the statements listed for its branches cut up the branches in the same way.
In the arena as a whole each position is listed once, a guard before its branches, and whatever the
statements of a branch mention the guard mentions too.
-/

set_option autoImplicit false

namespace MonoTap.Callback

open Java (CompilationUnit Node Placed Solid)
open Text (Source)

/-! ### Partitions -/

/-- Whether a node lies in a range of bytes. -/
def covers (span : Nat × Nat) (n : Node) : Bool :=
  decide (span.1 ≤ n.start) && decide (n.stop ≤ span.2)

namespace Arena

/-- The bytes that the statement at a position covers. -/
def span? (a : Arena) (i : Int) : Option (Nat × Nat) :=
  (a.get? i).map fun s => (s.start, s.stop)

/-- Whether a node lies in the statement at a position. -/
def holdsAt (a : Arena) (n : Node) (i : Int) : Bool :=
  (a.span? i).any fun span => covers span n

/-- The statements at some positions cut up some nodes. -/
structure Cuts (a : Arena) (positions : List Int) (nodes : List Node) : Prop where
  present : ∀ i ∈ positions, ∃ span, a.span? i = some span ∧ span.1 < span.2
  ordered : positions.Pairwise fun i j =>
    ∀ x y, a.span? i = some x → a.span? j = some y → x.2 ≤ y.1
  once : ∀ n ∈ nodes, positions.countP (a.holdsAt n) = 1
  single : ∀ i ∈ positions, nodes.countP (fun n => !n.isComment && a.holdsAt n i) ≤ 1

mutual

/-- The statements at some positions cut up some nodes, and so do those of the branches of every
guard among them. -/
inductive Partition (a : Arena) : List Int → List Node → Prop
  | intro {positions : List Int} {nodes : List Node} (cuts : a.Cuts positions nodes)
      (guards : ∀ i ∈ positions, ∀ g, a.guardAt? i = some g → Opens a nodes i g) :
      Partition a positions nodes

/-- The guard at a position covers one test among some nodes and no other node, and the statements
of its branches cut up the branches of the test. -/
inductive Opens (a : Arena) : List Node → Int → Guard → Prop
  | intro {nodes : List Node} {i : Int} {g : Guard} {n : Node} (mem : n ∈ nodes)
      (is : n.is .ifStatement = true) (span : a.span? i = some (n.start, n.stop))
      (alone : ∀ m ∈ nodes, a.holdsAt m i = true → m = n)
      (inside : ∀ j ∈ g.thenBranch ++ g.elseBranch, ∀ x, a.span? j = some x →
        n.start ≤ x.1 ∧ x.2 ≤ n.stop)
      (thenBranch : Partition a g.thenBranch (branchNodes n .consequence))
      (elseBranch : Partition a g.elseBranch (branchNodes n .alternative)) :
      Opens a nodes i g

end

/-- The positions that the guards of an arena refer to. -/
def branchPositions (a : Arena) : List Int :=
  a.statements.flatMap fun s =>
    ((s.guard?).map fun g => g.thenBranch ++ g.elseBranch).getD []

/-- The arena of a block, with the positions listed for the block itself. -/
structure Divides (a : Arena) (body : List Int) (block : Node) : Prop where
  partition : Partition a body block.namedChildren
  once : (body ++ a.branchPositions).Perm ((List.range a.size).map Int.ofNat)
  forwards : ∀ i : Nat, ∀ j ∈ a.branchesAt i, (i : Int) < j
  subject : ∀ (i : Nat) s g, a.get? i = some s → s.guard? = some g → g.subject.id ∈ s.references
  mentions : ∀ (i : Nat) s, a.get? i = some s → ∀ j ∈ a.branchesAt i, ∀ t, a.get? j = some t →
    t.references ⊆ s.references

end Arena

/-! ### Slots cut up nodes -/

variable {r : Resolution} {ss : List Slot} {ns : List Node} {text : List Char} {lo hi : Nat}

/-- The bytes that a slot covers. -/
def Slot.span (s : Slot) : Nat × Nat :=
  (s.start, s.stop)

theorem covers_iff {span : Nat × Nat} {n : Node} :
    covers span n = true ↔ span.1 ≤ n.start ∧ n.stop ≤ span.2 := by
  rw [covers, Bool.and_eq_true, decide_eq_true_eq, decide_eq_true_eq]

/-- Each node is in one slot. -/
theorem Grouped.once (h : Grouped r ss ns) (placed : Placed (Solid text) lo ns hi)
    (belongs : ∀ n ∈ ns, n.Belongs text) {n : Node} (hn : n ∈ ns) :
    ss.countP (fun s => covers s.span n) = 1 := by
  have ordered := (h.spans placed belongs).2
  have wide := (belongs n hn).spans.wide
  obtain ⟨before, s, after, rfl, low, high⟩ := h.exists_slot placed hn
  obtain ⟨_, later, earlier⟩ := List.pairwise_append.1 ordered
  have here : covers s.span n = true := covers_iff.2 ⟨low, high⟩
  have noneBefore : before.countP (fun s => covers s.span n) = 0 := by
    refine List.countP_eq_zero.2 fun t ht => ?_
    have apart : t.stop ≤ s.start := earlier t ht s List.mem_cons_self
    rw [covers_iff]
    rintro ⟨_, upper⟩
    have : n.stop ≤ t.stop := upper
    omega
  have noneAfter : after.countP (fun s => covers s.span n) = 0 := by
    refine List.countP_eq_zero.2 fun t ht => ?_
    have apart : s.stop ≤ t.start := (List.pairwise_cons.1 later).1 t ht
    rw [covers_iff]
    rintro ⟨lower, _⟩
    have : t.start ≤ n.start := lower
    omega
  have one : (s :: after).countP (fun s => covers s.span n) = 0 + 1 :=
    noneAfter ▸ List.countP_cons_of_pos here
  rw [List.countP_append, noneBefore, one]

/-- The nodes that lie in a slot are those of its group. -/
theorem Grouped.group_of_mem (h : Grouped r ss ns) (placed : Placed (Solid text) lo ns hi)
    (belongs : ∀ n ∈ ns, n.Belongs text) {s : Slot} (hs : s ∈ ss) :
    ∃ first others, s.Holds r first others ∧ (∀ n ∈ first :: others, n ∈ ns) ∧
      ns.filter (covers s.span) = first :: others := by
  induction h generalizing lo with
  | nil => cases hs
  | @cons t ss first others ns holds more ih =>
    obtain ⟨mid, group, rest⟩ := placed.of_append
    have belongsRest : ∀ n ∈ ns, n.Belongs text := fun n hn =>
      belongs n (List.mem_append_right _ hn)
    rw [List.filter_append]
    rcases List.mem_cons.1 hs with rfl | hs
    · obtain ⟨last, hlast, stop⟩ := Option.map_eq_some_iff.1 holds.stop
      have upper := (group.of_mem (List.mem_of_getLast? hlast)).2.2.2
      have all : (first :: others).filter (covers s.span) = first :: others := by
        refine List.filter_eq_self.2 fun n hn => covers_iff.2 ⟨?_, ?_⟩
        · exact Nat.le_trans (Nat.le_of_eq holds.start) (group.head_le hn)
        · exact Nat.le_trans (group.le_last hlast hn) (Nat.le_of_eq stop)
      have none : ns.filter (covers s.span) = [] := by
        refine List.filter_eq_nil_iff.2 fun n hn => ?_
        have lower := (rest.of_mem hn).1
        have wide := (belongsRest n hn).spans.wide
        rw [covers_iff]
        rintro ⟨_, inside⟩
        have : n.stop ≤ s.stop := inside
        omega
      exact ⟨first, others, holds, fun n hn => List.mem_append_left _ hn,
        by rw [all, none, List.append_nil]⟩
    · obtain ⟨head, tail, own, mem, same⟩ := ih rest belongsRest hs
      have none : (first :: others).filter (covers s.span) = [] := by
        refine List.filter_eq_nil_iff.2 fun n hn => ?_
        have upper := (group.of_mem hn).2.2.2
        have lower := (rest.of_mem (mem head List.mem_cons_self)).1
        have wide := (belongs n (List.mem_append_left _ hn)).spans.wide
        rw [covers_iff]
        rintro ⟨inside, _⟩
        have : s.start ≤ n.start := inside
        have := own.start
        omega
      exact ⟨head, tail, own, fun n hn => List.mem_append_right _ (mem n hn),
        by rw [none, List.nil_append, same]⟩

theorem Slot.Holds.countP_le {s : Slot} {first : Node} {others : List Node}
    (h : s.Holds r first others) : (first :: others).countP (!·.isComment) ≤ 1 := by
  rw [List.countP_eq_length_filter, h.statement]
  cases s.statement with
  | none => exact Nat.zero_le 1
  | some n => exact Nat.le_refl 1

/-! ### Entries cut up nodes -/

variable {source : Source} {arena : Arena} {base : Nat} {es : List Entry} {e : Entry}

/-- The position of an entry, and the entry itself laid out there. -/
theorem Laid.exists_entry (h : Laid source r arena base es) {i : Int}
    (hi : i ∈ positionsFrom base es) :
    ∃ (e : Entry) (rest : List Entry) (base' : Nat), i = (base' : Int) ∧ e ∈ es ∧ Laid source r arena base' (e :: rest) := by
  induction es generalizing base with
  | nil => cases hi
  | cons e es ih =>
    rcases List.mem_cons.1 hi with rfl | hi
    · exact ⟨e, es, base, rfl, List.mem_cons_self, h⟩
    · obtain ⟨f, rest, base', same, mem, laid⟩ := ih h.tail hi
      exact ⟨f, rest, base', same, List.mem_cons_of_mem _ mem, laid⟩

theorem Laid.span? (h : Laid source r arena base (e :: es)) :
    arena.span? base = some (e.start, e.stop) := by
  rw [Arena.span?, h.head]
  rfl

theorem Laid.guardAt? (h : Laid source r arena base (e :: es)) :
    arena.guardAt? base = e.test? base := by
  rw [Arena.guardAt?, h.head, Option.bind_some, guard?_statementAt]

theorem Laid.map_span? (h : Laid source r arena base es) :
    (positionsFrom base es).map arena.span? = es.map fun e => some (e.start, e.stop) := by
  induction es generalizing base with
  | nil => rfl
  | cons e es ih => rw [positionsFrom, List.map_cons, List.map_cons, ih h.tail, h.span?]

/-- The statements of slots, at the positions of their entries, cover the bytes of the slots. -/
theorem Laid.map_span?_entryOf (h : Laid source r arena base (ss.map (entryOf source r))) :
    (positionsFrom base (ss.map (entryOf source r))).map arena.span? =
      ss.map fun s => some s.span := by
  rw [h.map_span?, List.map_map]
  refine List.map_congr_left fun s _ => ?_
  have span : (entryOf source r s).start = s.start ∧ (entryOf source r s).stop = s.stop :=
    span_entryOf s
  rw [Function.comp, span.1, span.2, Slot.span]

theorem cuts_of_grouped (h : Laid source r arena base (ss.map (entryOf source r)))
    (groups : Grouped r ss ns) (placed : Placed (Solid text) lo ns hi)
    (belongs : ∀ n ∈ ns, n.Belongs text) :
    arena.Cuts (positionsFrom base (ss.map (entryOf source r))) ns := by
  have spans := h.map_span?_entryOf
  obtain ⟨each, ordered⟩ := groups.spans placed belongs
  generalize positionsFrom base (ss.map (entryOf source r)) = positions at spans
  have exists_slot {i : Int} (hi : i ∈ positions) : ∃ s ∈ ss, arena.span? i = some s.span := by
    obtain ⟨s, hs, same⟩ := List.mem_map.1 (spans ▸ List.mem_map_of_mem hi)
    exact ⟨s, hs, same.symm⟩
  refine ⟨fun i hi => ?_, ?_, fun n hn => ?_, fun i hi => ?_⟩
  · obtain ⟨s, hs, same⟩ := exists_slot hi
    exact ⟨s.span, same, (each s hs).1.wide⟩
  · have apart : (positions.map arena.span?).Pairwise fun x y =>
        ∀ a b, x = some a → y = some b → a.2 ≤ b.1 := by
      rw [spans, List.pairwise_map]
      refine ordered.imp fun {s t} le a b ha hb => ?_
      cases ha
      cases hb
      exact le
    exact List.pairwise_map.1 apart
  · have counted : positions.countP (arena.holdsAt n) =
        (positions.map arena.span?).countP fun x => x.any fun span => covers span n :=
      List.countP_map.symm
    rw [counted, spans, List.countP_map]
    exact groups.once placed belongs hn
  · obtain ⟨s, hs, same⟩ := exists_slot hi
    obtain ⟨first, others, holds, _, group⟩ := groups.group_of_mem placed belongs hs
    have held : ∀ n, (!n.isComment && arena.holdsAt n i) = (!n.isComment && covers s.span n) := by
      intro n
      rw [Arena.holdsAt, same, Option.any_some]
    simp only [held]
    rw [← List.countP_filter, group]
    exact holds.countP_le

/-! ### Guards -/

variable {n : Node} {s : Slot}

theorem isIfStatement_of_guardTest {test : Binding × NullCheck} (h : guardTest? r n = some test) :
    n.is .ifStatement = true := by
  cases is : n.is .ifStatement with
  | true => rfl
  | false =>
    rw [guardTest?_of_not_ifStatement is] at h
    cases h

/-- The slot of a guard holds the guard alone. -/
theorem Slot.Holds.eq_of_guard {first : Node} {others : List Node} (h : s.Holds r first others)
    (hs : s.statement = some n) {test : Binding × NullCheck} (hg : guardTest? r n = some test) :
    first = n ∧ others = [] ∧ s.span = (n.start, n.stop) := by
  have guard : s.isGuard r = true := by
    rw [Slot.isGuard, hs, Option.any_some, Callback.isGuard, hg]
    rfl
  have alone := h.alone guard
  subst alone
  have same : n ∈ [first].filter (!·.isComment) := by
    rw [h.statement, hs]
    exact List.mem_singleton_self n
  have first_eq : n = first := List.mem_singleton.1 (List.mem_filter.1 same).1
  subst first_eq
  have stop : n.stop = s.stop := Option.some.inj h.stop
  exact ⟨rfl, rfl, by rw [Slot.span, h.start, stop]⟩

theorem placed_branch (h : n.Belongs text) (part : Java.Role) :
    ∃ lo hi, n.start ≤ lo ∧ hi ≤ n.stop ∧ Placed (Solid text) lo (branchNodes n part) hi := by
  cases hb : n.child? part with
  | none =>
    rw [branchNodes_eq_nil hb]
    exact ⟨n.start, n.stop, Nat.le_refl _, Nat.le_refl _, .nil (Nat.le_of_lt h.spans.wide)⟩
  | some b =>
    have bounds := h.bounds (Node.mem_preorder_of_mem_children (Node.mem_children_of_child? hb)
      b.self_mem_preorder)
    exact ⟨b.start, b.stop, bounds.1, bounds.2, placed_branchNodes h hb⟩

/-- The statements of a branch lie in the guard. -/
theorem branch_inside (h : n.Belongs text) {part : Java.Role}
    (laid : Laid source r arena base ((branchSlots source r n part).map (entryOf source r)))
    {j : Int} (hj : j ∈ positionsFrom base ((branchSlots source r n part).map (entryOf source r)))
    {x : Nat × Nat} (hx : arena.span? j = some x) : n.start ≤ x.1 ∧ x.2 ≤ n.stop := by
  obtain ⟨low, high, lower, upper, placed⟩ := placed_branch h part
  have mem := List.mem_map_of_mem (f := arena.span?) hj
  rw [laid.map_span?_entryOf, hx] at mem
  obtain ⟨s, hs, same⟩ := List.mem_map.1 mem
  cases same
  have bounds := ((grouped_branchSlots h part).spans placed fun m hm =>
    h.inside_children (mem_children_of_mem_branchNodes hm)).1 s hs
  exact ⟨Nat.le_trans lower bounds.2.1, Nat.le_trans bounds.2.2 upper⟩

/-- Slots laid out in an arena cut up the nodes they hold, and the branches of their guards. -/
theorem partition_of_grouped (h : Laid source r arena base (ss.map (entryOf source r)))
    (groups : Grouped r ss ns) (placed : Placed (Solid text) lo ns hi)
    (belongs : ∀ n ∈ ns, n.Belongs text) {size : Nat}
    (small : ∀ s ∈ ss, sizeOf s.statement < size) :
    arena.Partition (positionsFrom base (ss.map (entryOf source r))) ns := by
  -- a branch is smaller than the statement it is a branch of
  induction size using Nat.strongRecOn generalizing ss ns lo hi base with
  | ind size ih =>
    refine .intro (cuts_of_grouped h groups placed belongs) fun i hi g hg => ?_
    obtain ⟨e, rest, base', rfl, mem, laid⟩ := h.exists_entry hi
    obtain ⟨s, hs, rfl⟩ := List.mem_map.1 mem
    obtain ⟨first, others, holds, inside, group⟩ := groups.group_of_mem placed belongs hs
    rw [laid.guardAt?] at hg
    rcases entryOf_cases r s with plain | ⟨n, subject, check, hn, test⟩
    · rw [entryOf_plain plain] at hg
      cases hg
    · have span := laid.span?
      rw [(span_entryOf s).1, (span_entryOf s).2] at span
      rw [entryOf_guard hn test] at hg laid
      cases hg
      obtain ⟨same, rfl, own⟩ := holds.eq_of_guard hn test
      subst same
      have here := inside first List.mem_cons_self
      have is := isIfStatement_of_guardTest test
      have branch (part : Java.Role) (base : Nat)
          (h : Laid source r arena base
            ((branchSlots source r first part).map (entryOf source r))) :
          arena.Partition (positionsFrom base
            ((branchSlots source r first part).map (entryOf source r)))
            (branchNodes first part) := by
        obtain ⟨_, _, _, _, placed⟩ := placed_branch (belongs first here) part
        have smaller := small s hs
        rw [hn] at smaller
        exact ih _ smaller h (grouped_branchSlots (belongs first here) part) placed
          (fun m hm => (belongs first here).inside_children (mem_children_of_mem_branchNodes hm))
          fun t ht => (branchSlots_spans (belongs first here) ht).2.2
      refine .intro here is (span.trans (congrArg some own)) (fun m hm held => ?_)
        (fun j hj x hx => ?_) (branch _ _ laid.branches.1) (branch _ _ laid.branches.2)
      · rw [Arena.holdsAt, span, Option.any_some] at held
        have only : m ∈ ns.filter (covers s.span) := List.mem_filter.2 ⟨hm, held⟩
        rw [group] at only
        exact List.mem_singleton.1 only
      · rcases List.mem_append.1 hj with hj | hj
        · exact branch_inside (belongs first here) laid.branches.1 hj hx
        · exact branch_inside (belongs first here) laid.branches.2 hj hx

/-! ### Positions -/

theorem branchPositions_cons (st : Statement) (sts : List Statement) :
    Arena.branchPositions ⟨st :: sts⟩ =
      ((st.guard?).map fun g => g.thenBranch ++ g.elseBranch).getD [] ++
        Arena.branchPositions ⟨sts⟩ :=
  List.flatMap_cons

theorem branchPositions_append (sts more : List Statement) :
    Arena.branchPositions ⟨sts ++ more⟩ =
      Arena.branchPositions ⟨sts⟩ ++ Arena.branchPositions ⟨more⟩ :=
  List.flatMap_append

/-- Some neighbouring positions from one on. -/
def positionsIn (base size : Nat) : List Int :=
  (List.range' base size).map Int.ofNat

theorem positionsIn_add (base first second : Nat) :
    positionsIn base (first + second) =
      positionsIn base first ++ positionsIn (base + first) second := by
  rw [positionsIn, positionsIn, positionsIn, ← List.map_append, List.range'_append_1]

mutual

theorem perm_statementsOf (source : Source) (r : Resolution) (base : Nat) (e : Entry) :
    ((base : Int) :: Arena.branchPositions ⟨statementsOf source r base e⟩).Perm
      (positionsIn base e.size) := by
  cases e with
  | plain start stop => exact List.Perm.refl _
  | guard start stop subject check first second =>
    have one := perm_statementsFrom source r (base + 1) first
    have two := perm_statementsFrom source r (base + 1 + sizeAll first) second
    rw [statementsOf, branchPositions_cons, branchPositions_append, guard?_statementAt,
      Option.map_some, Option.getD_some, Entry.size, positionsIn_add, positionsIn_add]
    refine List.Perm.cons _ ?_
    rw [← Nat.add_assoc]
    refine List.Perm.trans ?_ (one.append two)
    dsimp only
    rw [List.append_assoc, List.append_assoc]
    refine List.Perm.append_left _ ?_
    rw [← List.append_assoc, ← List.append_assoc]
    exact List.Perm.append_right _ List.perm_append_comm

/-- Each position is listed once: for the entries themselves, or for a branch. -/
theorem perm_statementsFrom (source : Source) (r : Resolution) (base : Nat) (es : List Entry) :
    (positionsFrom base es ++ Arena.branchPositions ⟨statementsFrom source r base es⟩).Perm
      (positionsIn base (sizeAll es)) := by
  cases es with
  | nil => exact List.Perm.refl _
  | cons e es =>
    have head := perm_statementsOf source r base e
    have tail := perm_statementsFrom source r (base + e.size) es
    rw [positionsFrom, statementsFrom, branchPositions_append, sizeAll, positionsIn_add]
    refine List.Perm.trans ?_ (head.append tail)
    rw [List.cons_append, List.cons_append]
    refine List.Perm.cons _ ?_
    rw [← List.append_assoc, ← List.append_assoc]
    exact List.Perm.append_right _ List.perm_append_comm

end

theorem le_of_mem_positionsFrom {i : Int} (h : i ∈ positionsFrom base es) : (base : Int) ≤ i := by
  induction es generalizing base with
  | nil => cases h
  | cons e es ih =>
    rcases List.mem_cons.1 h with rfl | h
    · exact Int.le_refl _
    · have := ih h
      omega

namespace Entry

/-- The entries of the branches of a guard. -/
def branches : Entry → List Entry
  | .plain _ _ => []
  | .guard _ _ _ _ thenBranch elseBranch => thenBranch ++ elseBranch

end Entry

mutual

/-- At every position of an entry laid out stands the entry or one inside it. -/
theorem Laid.exists_inside {Q : Entry → Prop} (down : ∀ e, Q e → ∀ f ∈ e.branches, Q f)
    {base : Nat} {e : Entry} {es : List Entry} (h : Laid source r arena base (e :: es)) (here : Q e) {i : Nat} (low : base ≤ i)
    (high : i < base + e.size) : ∃ f rest, Q f ∧ Laid source r arena i (f :: rest) := by
  rcases Nat.eq_or_lt_of_le low with rfl | low
  · exact ⟨e, es, here, h⟩
  · cases e with
    | plain =>
      rw [Entry.size] at high
      omega
    | guard start stop subject check first second =>
      obtain ⟨one, two⟩ := h.branches
      rw [Entry.size] at high
      have inside := down _ here
      rcases Nat.lt_or_ge i (base + 1 + sizeAll first) with less | more
      · exact one.exists_inside_all down (fun f hf => inside f (List.mem_append_left _ hf)) low less
      · exact two.exists_inside_all down (fun f hf => inside f (List.mem_append_right _ hf)) more
          (by omega)
termination_by sizeOf e

/-- At every position of some entries laid out stands one of them or one inside them. -/
theorem Laid.exists_inside_all {Q : Entry → Prop} (down : ∀ e, Q e → ∀ f ∈ e.branches, Q f)
    {base : Nat} {es : List Entry} (h : Laid source r arena base es) (each : ∀ e ∈ es, Q e) {i : Nat} (low : base ≤ i)
    (high : i < base + sizeAll es) : ∃ f rest, Q f ∧ Laid source r arena i (f :: rest) := by
  cases es with
  | nil =>
    rw [sizeAll] at high
    omega
  | cons e es =>
    rw [sizeAll] at high
    rcases Nat.lt_or_ge i (base + e.size) with less | more
    · exact h.exists_inside down (each e List.mem_cons_self) low less
    · exact h.tail.exists_inside_all down (fun f hf => each f (List.mem_cons_of_mem _ hf)) more
        (by omega)
termination_by sizeOf es

end

/-! ### What guards mention -/

theorem mem_referencesIn {start stop id : Nat} :
    id ∈ r.referencesIn start stop ↔
      ∃ o ∈ r.occurrences, start ≤ o.offset ∧ o.offset < stop ∧ o.binding.id = id := by
  simp only [Resolution.referencesIn, List.mem_mergeSort, List.mem_eraseDups, List.mem_map,
    List.mem_filter, Bool.and_eq_true, decide_eq_true_eq, and_assoc]

theorem referencesIn_subset {start stop low high : Nat} (first : low ≤ start)
    (last : stop ≤ high) : r.referencesIn start stop ⊆ r.referencesIn low high := by
  intro id h
  obtain ⟨o, ho, lower, upper, same⟩ := mem_referencesIn.1 h
  exact mem_referencesIn.2 ⟨o, ho, by omega, by omega, same⟩

theorem mem_referencesIn_of_bindingAt {offset start stop : Nat} {b : Binding}
    (h : r.bindingAt? offset = some b) (low : start ≤ offset) (high : offset < stop) :
    b.id ∈ r.referencesIn start stop := by
  obtain ⟨o, found, rfl⟩ := Option.map_eq_some_iff.1 h
  have hit : (o.offset == offset) = true :=
    List.find?_some (p := fun o : Occurrence => o.offset == offset) found
  have same : o.offset = offset := eq_of_beq hit
  exact mem_referencesIn.2 ⟨o, List.mem_of_find?_eq_some found, same ▸ low, same ▸ high, rfl⟩

theorem mem_preorder_of_unwrapped_eq {e : Node} (h : unwrapped? n = some e) : e ∈ n.preorder := by
  fun_induction unwrapped? n with
  | case1 n is c single ih =>
    have inside : c ∈ uncommented n := by
      rw [single]
      exact List.mem_singleton_self c
    exact Node.mem_preorder_of_mem_children (mem_children_of_mem_uncommented inside) (ih h)
  | case2 n is several => cases h
  | case3 n is =>
    cases h
    exact Node.self_mem_preorder _

theorem mem_preorder_of_child? {m : Node} {part : Java.Role} {c : Node}
    (h : n.child? part = some c) (hm : m ∈ c.preorder) : m ∈ n.preorder :=
  Node.mem_preorder_of_mem_children (Node.mem_children_of_child? h) hm

/-- The operand of a test stands in the test. -/
theorem mem_preorder_of_nullTest {operand : Node} {check : NullCheck}
    (h : nullTest? n = some (operand, check)) : operand ∈ n.preorder := by
  obtain ⟨e, _, left, right, l, r, he, _, _, _, hleft, hl, hright, hr, which⟩ :=
    exists_of_nullTest h
  have inE : operand ∈ e.preorder := by
    rcases which with ⟨_, rfl⟩ | ⟨_, rfl⟩
    · exact mem_preorder_of_child? hleft (mem_preorder_of_unwrapped_eq hl)
    · exact mem_preorder_of_child? hright (mem_preorder_of_unwrapped_eq hr)
  exact Node.mem_preorder_trans (mem_preorder_of_unwrapped_eq he) inE

/-- The name that a guard tests stands in the guard. -/
theorem exists_subject_of_guardTest {subject : Binding} {check : NullCheck}
    (h : guardTest? r n = some (subject, check)) :
    ∃ operand ∈ n.preorder, r.bindingAt? operand.start = some subject := by
  obtain ⟨condition, operand, _, child, test, _, denotes⟩ := exists_of_guardTest h
  exact ⟨operand, mem_preorder_of_child? child (mem_preorder_of_nullTest test), denotes⟩

/-- An entry of a slot of some nodes of a text, where the slot of a guard holds the guard alone. -/
def OfSlot (text : List Char) (source : Source) (r : Resolution) (e : Entry) : Prop :=
  ∃ s, e = entryOf source r s ∧ ∀ n, s.statement = some n → n.Belongs text ∧
    ∀ test, guardTest? r n = some test → s.span = (n.start, n.stop)

theorem ofSlot_of_grouped (groups : Grouped r ss ns) (placed : Placed (Solid text) lo ns hi)
    (belongs : ∀ n ∈ ns, n.Belongs text) :
    ∀ e ∈ ss.map (entryOf source r), OfSlot text source r e := by
  intro e he
  obtain ⟨s, hs, rfl⟩ := List.mem_map.1 he
  obtain ⟨first, others, holds, inside, _⟩ := groups.group_of_mem placed belongs hs
  refine ⟨s, rfl, fun n hn => ⟨?_, fun test hg => (holds.eq_of_guard hn hg).2.2⟩⟩
  have mem : n ∈ (first :: others).filter (!·.isComment) := by
    rw [holds.statement, hn]
    exact List.mem_singleton_self n
  exact belongs n (inside n (List.mem_filter.1 mem).1)

theorem OfSlot.down (h : OfSlot text source r e) : ∀ f ∈ e.branches, OfSlot text source r f := by
  obtain ⟨s, rfl, known⟩ := h
  intro f hf
  rcases entryOf_cases r s with plain | ⟨n, subject, check, hn, test⟩
  · rw [entryOf_plain plain] at hf
    cases hf
  · have belongs := (known n hn).1
    rw [entryOf_guard hn test] at hf
    have branch (part : Java.Role)
        (mem : f ∈ (branchSlots source r n part).map (entryOf source r)) :
        OfSlot text source r f := by
      obtain ⟨_, _, _, _, placed⟩ := placed_branch belongs part
      exact ofSlot_of_grouped (grouped_branchSlots belongs part) placed
        (fun m hm => belongs.inside_children (mem_children_of_mem_branchNodes hm)) f mem
    exact (List.mem_append.1 hf).elim (branch _) (branch _)

/-- A guard laid out in an arena, by the test that it makes. -/
theorem Laid.exists_guard (h : Laid source r arena base (e :: es)) (ofSlot : OfSlot text source r e)
    {g : Guard} (hg : arena.guardAt? base = some g) :
    ∃ n check, n.Belongs text ∧ guardTest? r n = some (g.subject, check) ∧
      arena.span? base = some (n.start, n.stop) ∧
      ∀ j ∈ g.thenBranch ++ g.elseBranch, (base : Int) < j ∧
        ∀ x, arena.span? j = some x → n.start ≤ x.1 ∧ x.2 ≤ n.stop := by
  obtain ⟨s, rfl, known⟩ := ofSlot
  have span := h.span?
  rw [(span_entryOf s).1, (span_entryOf s).2] at span
  rw [h.guardAt?] at hg
  rcases entryOf_cases r s with plain | ⟨n, subject, check, hn, test⟩
  · rw [entryOf_plain plain] at hg
    cases hg
  · obtain ⟨belongs, own⟩ := known n hn
    rw [entryOf_guard hn test] at hg h
    cases hg
    refine ⟨n, check, belongs, test, span.trans (congrArg some (own _ test)), fun j hj => ?_⟩
    rcases List.mem_append.1 hj with hj | hj
    · have := le_of_mem_positionsFrom hj
      exact ⟨by omega, fun x hx => branch_inside belongs h.branches.1 hj hx⟩
    · have := le_of_mem_positionsFrom hj
      exact ⟨by omega, fun x hx => branch_inside belongs h.branches.2 hj hx⟩

mutual

theorem references_of_mem_statementsOf {base : Nat} {e : Entry} {s : Statement}
    (h : s ∈ statementsOf source r base e) : s.references = r.referencesIn s.start s.stop := by
  cases e with
  | plain start stop =>
    rw [statementsOf, List.mem_singleton] at h
    rw [h]
    rfl
  | guard start stop subject check first second =>
    rw [statementsOf] at h
    rcases List.mem_cons.1 h with rfl | h
    · rfl
    · exact (List.mem_append.1 h).elim references_of_mem_statementsFrom
        references_of_mem_statementsFrom

/-- A statement has the references of the bytes that it covers. -/
theorem references_of_mem_statementsFrom {base : Nat} {es : List Entry} {s : Statement}
    (h : s ∈ statementsFrom source r base es) : s.references = r.referencesIn s.start s.stop := by
  cases es with
  | nil => cases h
  | cons e es =>
    rw [statementsFrom] at h
    exact (List.mem_append.1 h).elim references_of_mem_statementsOf
      references_of_mem_statementsFrom

end

theorem mem_statements_of_get? {i : Int} {s : Statement} (h : arena.get? i = some s) :
    s ∈ arena.statements := by
  rw [Arena.get?] at h
  split at h
  · exact List.mem_of_getElem? h
  · split at h
    · exact List.mem_of_getElem? h
    · cases h

/-! ### The arena of a block -/

theorem guardAt?_of_mem_branchesAt {i j : Int} (h : j ∈ arena.branchesAt i) :
    ∃ g, arena.guardAt? i = some g ∧ j ∈ g.thenBranch ++ g.elseBranch := by
  rw [Arena.branchesAt] at h
  split at h
  · exact ⟨_, ‹_›, h⟩
  · cases h

/-- A statement of a block is smaller than the block. -/
theorem sizeOf_statement_lt_block {block : Node} (hs : s ∈ slotsOf source r block) :
    sizeOf s.statement < sizeOf (some block) := by
  rw [Option.some.sizeOf_spec]
  cases h : s.statement with
  | none =>
    have positive : 0 < sizeOf block := by cases block; simp only [Node.mk.sizeOf_spec]; omega
    rw [Option.none.sizeOf_spec]
    omega
  | some m =>
    have inner := Node.sizeOf_lt_of_mem_children
      (Node.mem_children_of_mem_namedChildren (statement_of_mem_slotsOf hs h))
    rw [Option.some.sizeOf_spec]
    omega

/-- The entry at a position of the arena of a block. -/
theorem exists_laid_of_get? {block : Node} (h : block.Belongs text) {i : Nat} {s : Statement}
    (hs : (arenaOf source r (entriesOf source r block)).get? i = some s) :
    ∃ e rest, OfSlot text source r e ∧
      Laid source r (arenaOf source r (entriesOf source r block)) i (e :: rest) := by
  rw [Arena.get?_natCast] at hs
  have bound := (List.getElem?_eq_some_iff.1 hs).1
  rw [arenaOf, length_statementsFrom, entriesOf] at bound
  refine (laid_arenaOf source r _).exists_inside_all (fun e he => he.down)
    (ofSlot_of_grouped (grouped_slotsOf source block) (h.placed.sublist List.filter_sublist)
      fun n hn => h.child (Node.mem_children_of_mem_namedChildren hn)) (Nat.zero_le i) (by omega)

/-- Whatever names denote, the arena of a block of a text without faults divides the block. -/
theorem arena_divides_block (text : String) (r : Resolution) (block : Node) :
    let u := CompilationUnit.ofString text
    let entries := entriesOf u.source r block
    u.hasSyntaxErrors = false → block ∈ Node.preorderAll u.root.children →
      (arenaOf u.source r entries).Divides (positionsFrom 0 entries) block := by
  intro u entries clean inside
  obtain ⟨top, htop, inTop⟩ := Node.mem_preorderAll.1 inside
  have belongs : block.Belongs text.toList := (Node.belongs_of_mem_parse clean htop).inside inTop
  have laid := laid_arenaOf u.source r entries
  have guards {i : Nat} {s : Statement} {g : Guard}
      (hs : (arenaOf u.source r entries).get? i = some s)
      (hg : (arenaOf u.source r entries).guardAt? i = some g) :=
    let ⟨_, _, ofSlot, laid⟩ := exists_laid_of_get? belongs hs
    laid.exists_guard ofSlot hg
  have references {i : Int} {s : Statement}
      (hs : (arenaOf u.source r entries).get? i = some s) :
      s.references = r.referencesIn s.start s.stop :=
    references_of_mem_statementsFrom (mem_statements_of_get? hs)
  refine ⟨?_, ?_, fun i j hj => ?_, fun i s g hs hg => ?_, fun i s hs j hj t ht => ?_⟩
  · exact partition_of_grouped laid (grouped_slotsOf u.source block)
      (belongs.placed.sublist List.filter_sublist)
      (fun n hn => belongs.child (Node.mem_children_of_mem_namedChildren hn))
      fun s hs => sizeOf_statement_lt_block hs
  · have once := perm_statementsFrom u.source r 0 entries
    rw [positionsIn, ← List.range_eq_range', ← length_statementsFrom u.source r 0] at once
    exact once
  · obtain ⟨g, hg, hj⟩ := guardAt?_of_mem_branchesAt hj
    obtain ⟨s, hs, _⟩ := Option.bind_eq_some_iff.1 hg
    obtain ⟨_, _, _, _, _, branches⟩ := guards hs hg
    exact (branches j hj).1
  · obtain ⟨n, check, hn, test, span, _⟩ := guards hs (Option.bind_eq_some_iff.2 ⟨s, hs, hg⟩)
    obtain ⟨operand, inside, denotes⟩ := exists_subject_of_guardTest test
    have bounds := hn.bounds inside
    have wide := (hn.inside inside).spans.wide
    rw [Arena.span?, hs, Option.map_some, Option.some.injEq, Prod.mk.injEq] at span
    rw [references hs]
    exact mem_referencesIn_of_bindingAt denotes (by omega) (by omega)
  · obtain ⟨g, hg, hj⟩ := guardAt?_of_mem_branchesAt hj
    obtain ⟨n, check, hn, test, span, branches⟩ := guards hs hg
    have inner := (branches j hj).2 (t.start, t.stop) (by rw [Arena.span?, ht]; rfl)
    rw [Arena.span?, hs, Option.map_some, Option.some.injEq, Prod.mk.injEq] at span
    rw [references hs, references ht]
    exact referencesIn_subset (by omega) (by omega)

/-- A block with a guard, a comment beside it and one more statement. -/
def partedText : String := "class C\x7b\x7bif(x==null)\x7ba();b();\x7d/*c*/d(x);\x7d\x7d"

set_option maxRecDepth 100000 in
theorem arena_divides_parted_block :
    let u := CompilationUnit.ofString partedText
    u.hasSyntaxErrors = false ∧ ∃ block ∈ Node.preorderAll u.root.children,
      let r := Resolution.ofBody u.source [("x", none)] block
      let entries := entriesOf u.source r block
      (slotsOf u.source r block).map (Slot.isGuard r) = [true, false, false] ∧
        (arenaOf u.source r entries).Divides (positionsFrom 0 entries) block := by
  intro u
  have quick : u = .ofCharsOf partedText := CompilationUnit.ofString_eq_ofCharsOf _
  obtain ⟨clean, found⟩ : u.hasSyntaxErrors = false ∧
      ((Node.preorderAll u.root.children).find? (·.is .block)).map (fun block =>
        (slotsOf u.source (Resolution.ofBody u.source [("x", none)] block) block).map
          (Slot.isGuard (Resolution.ofBody u.source [("x", none)] block))) =
        some [true, false, false] := by
    rw [quick]
    decide +kernel
  obtain ⟨block, hblock, slots⟩ := Option.map_eq_some_iff.1 found
  have inside := List.mem_of_find?_eq_some hblock
  exact ⟨clean, block, inside, slots, arena_divides_block partedText _ block clean inside⟩

end MonoTap.Callback
