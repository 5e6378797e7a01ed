import MonoTap.Callback.Body
import MonoTap.Proofs.Calls

/-!
# The slots of a block

The slots of a block cut its nodes into groups of neighbours: a statement with comments beside it,
or comments alone. The slot of a guard holds the guard and nothing else, so no comment goes where
the guard goes. Where a guard gives way to its branches, the same is true of the nodes of the
branches.
-/

set_option autoImplicit false

namespace MonoTap.Callback

open Java (Node Placed Solid)
open Text (Source encodeChars)

/-! ### Groups -/

/-- The slot of some neighbours, at most one of which is a statement. A guard has none. -/
structure Slot.Holds (r : Resolution) (s : Slot) (first : Node) (others : List Node) : Prop where
  start : s.start = first.start
  stop : (first :: others).getLast?.map Node.stop = some s.stop
  statement : (first :: others).filter (!·.isComment) = s.statement.toList
  alone : s.isGuard r = true → others = []

/-- The slots of some nodes, group by group. -/
inductive Grouped (r : Resolution) : List Slot → List Node → Prop
  | nil : Grouped r [] []
  | cons {s : Slot} {ss : List Slot} {first : Node} {others ns : List Node}
      (holds : s.Holds r first others) (more : Grouped r ss ns) :
      Grouped r (s :: ss) (first :: others ++ ns)

variable {r : Resolution} {ss tt : List Slot} {ns ms : List Node}

theorem Grouped.append (h : Grouped r ss ns) (more : Grouped r tt ms) :
    Grouped r (ss ++ tt) (ns ++ ms) := by
  induction h with
  | nil => exact more
  | cons holds _ ih =>
    rw [List.append_assoc]
    exact .cons holds ih

theorem Grouped.single {s : Slot} {first : Node} {others : List Node}
    (holds : s.Holds r first others) : Grouped r [s] (first :: others) := by
  have one := Grouped.cons holds .nil
  rwa [List.append_nil] at one

/-- The slot that may still grow, and the nodes in it. -/
def Opened (r : Resolution) (last : Option Slot) (group : List Node) : Prop :=
  match last with
  | none => group = []
  | some s => ∃ first others, group = first :: others ∧ s.Holds r first others

theorem Opened.grouped {last : Option Slot} {group : List Node} (h : Opened r last group) :
    Grouped r last.toList group := by
  cases last with
  | none =>
    cases h
    exact .nil
  | some s =>
    obtain ⟨first, others, rfl, holds⟩ := h
    exact .single holds

theorem grouped_commentSlots {comments : List Node} (h : ∀ c ∈ comments, c.isComment = true) :
    Grouped r (commentSlots comments) comments := by
  cases comments with
  | nil => exact .nil
  | cons first others =>
    obtain ⟨last, hlast⟩ : ∃ last, (first :: others).getLast? = some last :=
      ⟨_, List.getLast?_eq_some_getLast (List.cons_ne_nil _ _)⟩
    have slot : commentSlots (first :: others) = [⟨first.start, last.stop, none⟩] := by
      rw [commentSlots, List.head?_cons, hlast]
    rw [slot]
    refine .single ⟨rfl, by rw [hlast]; rfl, ?_, fun guard => by cases guard⟩
    refine List.filter_eq_nil_iff.2 fun c hc => ?_
    rw [h c hc]
    exact Bool.false_ne_true

theorem guardTest?_of_not_ifStatement {n : Node} (h : n.is .ifStatement = false) :
    guardTest? r n = none := by
  rw [guardTest?, h]
  rfl

theorem guardTest?_of_isComment {n : Node} (h : n.isComment = true) : guardTest? r n = none := by
  apply guardTest?_of_not_ifStatement
  cases n with
  | mk label role start stop children =>
    cases label with
    | token text => rfl
    | kind k => cases k <;> first | rfl | cases h

theorem holds_statementSlot {pending : List Node} {n : Node}
    (comments : ∀ c ∈ pending, c.isComment = true) (statement : n.isComment = false)
    (alone : isGuard r n = true → pending = []) :
    ∃ first others, pending ++ [n] = first :: others ∧
      (statementSlot pending n).Holds r first others := by
  have only : (pending ++ [n]).filter (!·.isComment) = [n] := by
    rw [List.filter_append, List.filter_eq_nil_iff.2 fun c hc => ?_, List.nil_append,
      List.filter_cons, statement]
    · rfl
    · rw [comments c hc]
      exact Bool.false_ne_true
  cases pending with
  | nil => exact ⟨n, [], rfl, rfl, rfl, only, fun _ => rfl⟩
  | cons first others =>
    refine ⟨first, others ++ [n], rfl, rfl, ?_, only, fun guard => ?_⟩
    · rw [← List.cons_append, List.getLast?_concat]
      rfl
    · cases alone guard

/-- The slots of the nodes that are left, with the nodes of the slot that may still grow and the
comments since. -/
theorem grouped_slotsFrom {source : Source} {row : Nat} {last : Option Slot}
    {group pending : List Node} (opened : Opened r last group)
    (comments : ∀ c ∈ pending, c.isComment = true) :
    Grouped r (slotsFrom source r row last pending ns) (group ++ (pending ++ ns)) := by
  induction ns generalizing row last group pending with
  | nil =>
    simp only [slotsFrom, List.append_nil]
    exact opened.grouped.append (grouped_commentSlots comments)
  | cons c cs ih =>
    have noneYet : ∀ d ∈ ([] : List Node), d.isComment = true := fun d hd => by cases hd
    simp only [slotsFrom]
    cases comment : c.isComment with
    | true =>
      have further : ∀ d ∈ pending ++ [c], d.isComment = true := by
        intro d hd
        rcases List.mem_append.1 hd with hd | hd
        · exact comments d hd
        · exact List.mem_singleton.1 hd ▸ comment
      have later (last : Option Slot) (opened : Opened r last group) :
          Grouped r (slotsFrom source r row last (pending ++ [c]) cs)
            (group ++ (pending ++ c :: cs)) := by
        have rest : Grouped r (slotsFrom source r row last (pending ++ [c]) cs)
            (group ++ (pending ++ [c] ++ cs)) := ih opened further
        rwa [List.append_assoc] at rest
      rw [if_pos rfl]
      cases last with
      | none => exact later none opened
      | some s =>
        dsimp only
        split
        · rename_i beside
          rw [Bool.and_eq_true, List.isEmpty_iff] at beside
          obtain ⟨rfl, _⟩ := beside
          split
          · have own : Opened r (some ⟨c.start, c.stop, none⟩) [c] := by
              refine ⟨c, [], rfl, rfl, rfl, ?_, fun _ => rfl⟩
              rw [List.filter_cons, comment]
              rfl
            exact opened.grouped.append (ih own noneYet)
          · rename_i noGuard
            obtain ⟨first, others, rfl, holds⟩ := opened
            have grown : Opened r (some { s with stop := c.stop }) (first :: others ++ [c]) := by
              refine ⟨first, others ++ [c], rfl, holds.start, ?_, ?_, fun guard =>
                (noGuard guard).elim⟩
              · rw [← List.cons_append, List.getLast?_concat]
                rfl
              · rw [← List.cons_append, List.filter_append, holds.statement, List.filter_cons,
                  comment]
                exact List.append_nil _
            have rest : Grouped r (slotsFrom source r row (some { s with stop := c.stop }) [] cs)
                (first :: others ++ [c] ++ ([] ++ cs)) := ih grown noneYet
            rwa [List.append_assoc] at rest
        · exact later (some s) opened
    | false =>
      rw [if_neg Bool.false_ne_true]
      refine opened.grouped.append ?_
      split
      · obtain ⟨first, others, own, holds⟩ := @holds_statementSlot r [] c noneYet
          comment fun _ => rfl
        have alone : Opened r (some (statementSlot [] c)) [c] := ⟨first, others, own, holds⟩
        exact (grouped_commentSlots comments).append (ih alone noneYet)
      · rename_i noGuard
        have whole : Opened r (some (statementSlot pending c)) (pending ++ [c]) :=
          holds_statementSlot comments comment fun guard => (noGuard guard).elim
        have rest : Grouped r
            (slotsFrom source r (source.row c.stop) (some (statementSlot pending c)) [] cs)
            (pending ++ [c] ++ ([] ++ cs)) := ih whole noneYet
        rwa [List.append_assoc] at rest

theorem grouped_slotsOf (source : Source) (block : Node) :
    Grouped r (slotsOf source r block) block.namedChildren :=
  @grouped_slotsFrom r _ source 0 none [] [] rfl fun c hc => by cases hc

/-! ### Leaves -/

/-- Whether a statement of a callback gives way to its branches: a guard on a parameter. -/
def Parameters.splits (p : Parameters) (r : Resolution) (n : Node) : Bool :=
  (guardTest? r n).any fun test => p.contains test.1

/-- The nodes of a branch; a branch that is no block is one statement. -/
def branchNodes (n : Node) (part : Java.Role) : List Node :=
  match n.child? part with
  | none => []
  | some b => if b.is .block then b.namedChildren else [b]

/-- The slots of a branch. -/
def branchSlots (source : Source) (r : Resolution) (n : Node) (part : Java.Role) : List Slot :=
  match n.child? part with
  | none => []
  | some b => if b.is .block then slotsOf source r b else [statementSlot [] b]

/-- What a node of a callback stands for: the nodes of its branches, or itself. -/
def leafNodesAt (p : Parameters) (r : Resolution) (n : Node) : List Node :=
  if p.splits r n then branchNodes n .consequence ++ branchNodes n .alternative else [n]

/-- The statements and comments of a callback, where a guard on a parameter gives way to those of
its branches. -/
def leafNodes (p : Parameters) (r : Resolution) (block : Node) : List Node :=
  block.namedChildren.flatMap (leafNodesAt p r)

/-- What a slot of a callback stands for: the slots of its branches, or itself. -/
def leafSlotsAt (source : Source) (p : Parameters) (r : Resolution) (s : Slot) : List Slot :=
  match s.statement with
  | none => [s]
  | some n =>
    if p.splits r n then branchSlots source r n .consequence ++ branchSlots source r n .alternative
    else [s]

/-- The slots of a callback, where a guard on a parameter gives way to the slots of its branches. -/
def leafSlots (source : Source) (p : Parameters) (r : Resolution) (block : Node) : List Slot :=
  (slotsOf source r block).flatMap (leafSlotsAt source p r)

variable {text : List Char} {source : Source} {p : Parameters} {n block : Node}

theorem grouped_branchSlots (h : n.Belongs text) (part : Java.Role) :
    Grouped r (branchSlots source r n part) (branchNodes n part) := by
  unfold branchSlots branchNodes
  cases hb : n.child? part with
  | none => exact .nil
  | some b =>
    dsimp only
    split
    · exact grouped_slotsOf source b
    · have statement := h.not_isComment_of_child? hb
      refine .single ⟨rfl, rfl, ?_, fun _ => rfl⟩
      rw [List.filter_cons, statement]
      rfl

theorem splits_of_isComment (h : n.isComment = true) : p.splits r n = false := by
  rw [Parameters.splits, guardTest?_of_isComment h]
  rfl

theorem isGuard_of_splits (h : p.splits r n = true) : isGuard r n = true := by
  rw [Parameters.splits] at h
  rw [isGuard]
  cases hg : guardTest? r n with
  | none =>
    rw [hg] at h
    cases h
  | some test => rfl

theorem leafNodesAt_eq_self (h : p.splits r n = false) : leafNodesAt p r n = [n] := by
  rw [leafNodesAt, h]
  rfl

/-- The slots of the leaves hold the nodes of the leaves, group by group. -/
theorem grouped_leafSlots (h : block.Belongs text) :
    Grouped r (leafSlots source p r block) (leafNodes p r block) := by
  have belongs : ∀ n ∈ block.namedChildren, n.Belongs text := fun n hn =>
    h.child (Node.mem_children_of_mem_namedChildren hn)
  have groups := grouped_slotsOf (r := r) source block
  unfold leafSlots leafNodes
  generalize block.namedChildren = ns at belongs groups
  generalize slotsOf source r block = ss at groups
  induction groups with
  | nil => exact .nil
  | @cons s ss first others ns holds more ih =>
    have rest := ih fun n hn => belongs n (List.mem_append_right _ hn)
    rw [List.flatMap_cons, List.flatMap_append]
    refine .append ?_ rest
    -- the statement of the group is known by its slot
    have known : ∀ n ∈ first :: others, n.isComment = false → s.statement = some n := by
      intro n hn statement
      have mem : n ∈ (first :: others).filter (!·.isComment) :=
        List.mem_filter.2 ⟨hn, by rw [statement]; rfl⟩
      rw [holds.statement] at mem
      exact Option.mem_toList.1 mem
    have kept (whole : ∀ n, s.statement = some n → p.splits r n = false) :
        (first :: others).flatMap (leafNodesAt p r) = first :: others := by
      have self : ∀ n ∈ first :: others, leafNodesAt p r n = [n] := by
        intro n hn
        apply leafNodesAt_eq_self
        cases comment : n.isComment with
        | true => exact splits_of_isComment comment
        | false => exact whole n (known n hn comment)
      rw [List.flatMap_def, List.map_congr_left self, ← List.flatMap_def]
      exact List.flatMap_singleton' _
    rw [leafSlotsAt]
    cases hs : s.statement with
    | none =>
      rw [kept fun n hn => by rw [hs] at hn; cases hn]
      exact .single holds
    | some n =>
      dsimp only
      cases splits : p.splits r n with
      | false =>
        rw [kept fun m hm => by rw [hs] at hm; cases hm; exact splits]
        exact .single holds
      | true =>
        have guard : s.isGuard r = true := by
          rw [Slot.isGuard, hs]
          exact isGuard_of_splits splits
        have alone := holds.alone guard
        subst alone
        have same : first = n := by
          have only := holds.statement
          rw [hs] at only
          have mem : n ∈ [first].filter (!·.isComment) := only ▸ List.mem_singleton_self n
          exact (List.mem_singleton.1 (List.mem_filter.1 mem).1).symm
        subst same
        have here := belongs first List.mem_cons_self
        rw [if_pos rfl, List.flatMap_cons, List.flatMap_nil, List.append_nil, leafNodesAt, splits,
          if_pos rfl]
        exact (grouped_branchSlots here .consequence).append (grouped_branchSlots here .alternative)

/-! ### Where leaves stand -/

theorem isIfStatement_of_splits (h : p.splits r n = true) : n.is .ifStatement = true := by
  cases is : n.is .ifStatement with
  | true => rfl
  | false =>
    rw [Parameters.splits, guardTest?_of_not_ifStatement is] at h
    cases h

theorem placed_self (h : n.Belongs text) : Placed (Solid text) n.start [n] n.stop :=
  .cons (Nat.le_refl _) h.placed (fun _ => h.spans) (.nil (Nat.le_refl _))

theorem placed_branchNodes {part : Java.Role} {b : Node} (h : n.Belongs text)
    (hb : n.child? part = some b) :
    Placed (Solid text) b.start (branchNodes n part) b.stop := by
  have belongs := h.child (Node.mem_children_of_child? hb)
  rw [branchNodes, hb]
  dsimp only
  split
  · exact belongs.placed.sublist List.filter_sublist
  · exact placed_self belongs

theorem branchNodes_eq_nil {part : Java.Role} (h : n.child? part = none) :
    branchNodes n part = [] := by
  rw [branchNodes, h]

theorem placed_leafNodesAt (h : n.Belongs text) :
    Placed (Solid text) n.start (leafNodesAt p r n) n.stop := by
  cases splits : p.splits r n with
  | false =>
    rw [leafNodesAt_eq_self splits]
    exact placed_self h
  | true =>
    have is := isIfStatement_of_splits splits
    rw [leafNodesAt, splits, if_pos rfl]
    have within {part : Java.Role} {b : Node} (hb : n.child? part = some b) :
        n.start ≤ b.start ∧ b.stop ≤ n.stop :=
      h.bounds (Node.mem_preorder_of_mem_children (Node.mem_children_of_child? hb)
        b.self_mem_preorder)
    cases hone : n.child? .consequence with
    | none =>
      rw [branchNodes_eq_nil hone, List.nil_append]
      cases htwo : n.child? .alternative with
      | none =>
        rw [branchNodes_eq_nil htwo]
        exact .nil (Nat.le_of_lt h.spans.wide)
      | some two =>
        have bounds := within htwo
        exact (placed_branchNodes h htwo).widen bounds.1 bounds.2
    | some one =>
      have bounds := within hone
      cases htwo : n.child? .alternative with
      | none =>
        rw [branchNodes_eq_nil htwo, List.append_nil]
        exact (placed_branchNodes h hone).widen bounds.1 bounds.2
      | some two =>
        have order := h.branches_apart is hone htwo
        exact ((placed_branchNodes h hone).widen bounds.1 order).append
          ((placed_branchNodes h htwo).widen (Nat.le_refl _) (within htwo).2)

theorem placed_flatMap {lo hi : Nat} {f : Node → List Node}
    (h : Placed (Solid text) lo ns hi)
    (each : ∀ n ∈ ns, Placed (Solid text) n.start (f n) n.stop) :
    Placed (Solid text) lo (ns.flatMap f) hi := by
  induction h with
  | nil order => exact .nil order
  | cons after inside covers rest _ ih =>
    rw [List.flatMap_cons]
    exact ((each _ List.mem_cons_self).widen after (Nat.le_refl _)).append
      (ih fun n hn => each n (List.mem_cons_of_mem _ hn))

/-- The nodes of the leaves stand one after the other inside the block. -/
theorem placed_leafNodes (h : block.Belongs text) :
    Placed (Solid text) block.start (leafNodes p r block) block.stop :=
  placed_flatMap (h.placed.sublist List.filter_sublist) fun _ hn =>
    placed_leafNodesAt (h.child (Node.mem_children_of_mem_namedChildren hn))

theorem mem_children_of_mem_branchNodes {part : Java.Role} {b : Node}
    (h : b ∈ branchNodes n part) : b ∈ Node.preorderAll n.children := by
  rw [branchNodes] at h
  split at h
  · cases h
  · rename_i branch hbranch
    refine Node.mem_preorderAll.2 ⟨branch, Node.mem_children_of_child? hbranch, ?_⟩
    split at h
    · exact Node.mem_preorder_of_mem_children (Node.mem_children_of_mem_namedChildren h)
        b.self_mem_preorder
    · exact List.mem_singleton.1 h ▸ Node.self_mem_preorder _

theorem mem_preorder_of_mem_leafNodesAt {b : Node} (h : b ∈ leafNodesAt p r n) :
    b ∈ n.preorder := by
  rw [leafNodesAt] at h
  split at h
  · rw [Node.preorder_eq]
    refine List.mem_cons_of_mem _ ?_
    exact (List.mem_append.1 h).elim mem_children_of_mem_branchNodes
      mem_children_of_mem_branchNodes
  · exact List.mem_singleton.1 h ▸ Node.self_mem_preorder _

theorem mem_preorder_of_mem_leafNodes {b : Node} (h : b ∈ leafNodes p r block) :
    b ∈ Node.preorderAll block.children := by
  obtain ⟨n, hn, hb⟩ := List.mem_flatMap.1 h
  exact Node.mem_preorderAll.2
    ⟨n, Node.mem_children_of_mem_namedChildren hn, mem_preorder_of_mem_leafNodesAt hb⟩

/-- The slots of nodes that stand one after the other do so too. -/
theorem Grouped.spans {lo hi : Nat} (h : Grouped r ss ns) (placed : Placed (Solid text) lo ns hi)
    (belongs : ∀ n ∈ ns, n.Belongs text) :
    (∀ s ∈ ss, Solid text s.start s.stop ∧ lo ≤ s.start ∧ s.stop ≤ hi) ∧
      ss.Pairwise fun a b => a.stop ≤ b.start := by
  induction h generalizing lo with
  | nil => exact ⟨fun s hs => (by cases hs), .nil⟩
  | @cons s ss first others ns holds more ih =>
    obtain ⟨mid, group, rest⟩ := placed.of_append
    obtain ⟨each, ordered⟩ := ih rest fun n hn => belongs n (List.mem_append_right _ hn)
    obtain ⟨last, hlast, stop⟩ := Option.map_eq_some_iff.1 holds.stop
    have mem := List.mem_of_getLast? hlast
    have lastSpans := (belongs last (List.mem_append_left _ mem)).spans
    have firstSpans := (belongs first (List.mem_append_left _ List.mem_cons_self)).spans
    have start := (group.of_mem List.mem_cons_self).1
    have upper := (group.of_mem mem).2.2.2
    have order := group.head_le mem
    have bounds := rest.le
    have width := lastSpans.wide
    have own : Solid text s.start s.stop := by
      rw [holds.start, ← stop]
      exact lastSpans.widen firstSpans.first order
    refine ⟨fun t ht => ?_, List.pairwise_cons.2 ⟨fun t ht => ?_, ordered⟩⟩
    · rcases List.mem_cons.1 ht with rfl | ht
      · exact ⟨own, holds.start ▸ start, by omega⟩
      · obtain ⟨spans, lower, higher⟩ := each t ht
        have := group.le
        exact ⟨spans, by omega, higher⟩
    · have := (each t ht).2.1
      omega

/-- The slot that a node is in. -/
theorem Grouped.exists_slot {lo hi : Nat} (h : Grouped r ss ns)
    (placed : Placed (Solid text) lo ns hi) (hn : n ∈ ns) :
    ∃ before s after, ss = before ++ s :: after ∧ s.start ≤ n.start ∧ n.stop ≤ s.stop := by
  induction h generalizing lo with
  | nil => cases hn
  | @cons s ss first others ns holds more ih =>
    obtain ⟨mid, group, rest⟩ := placed.of_append
    rcases List.mem_append.1 hn with here | later
    · obtain ⟨last, hlast, stop⟩ := Option.map_eq_some_iff.1 holds.stop
      refine ⟨[], s, ss, rfl, ?_, ?_⟩
      · rw [holds.start]
        exact group.head_le here
      · rw [← stop]
        exact group.le_last hlast here
    · obtain ⟨before, t, after, rfl, found⟩ := ih rest later
      exact ⟨s :: before, t, after, rfl, found⟩

/-! ### Nodes in leaves -/

/-- The kinds of the nodes that a guard is made of, beside its branches. -/
def guardKinds : List Java.Kind :=
  [.ifStatement, .parenthesizedExpression, .binaryExpression, .identifier, .nullLiteral, .block]

/-- A node that is neither a comment nor of a kind that a guard is made of. -/
def IsContent (n : Node) : Prop :=
  ∃ k, n.label = .kind k ∧ k.isComment = false ∧ k ∉ guardKinds

variable {content : Node}

theorem IsContent.named (h : IsContent content) :
    content.isNamed = true ∧ content.isComment = false := by
  obtain ⟨k, label, noComment, _⟩ := h
  rw [Node.isNamed, Node.isComment, label]
  exact ⟨rfl, noComment⟩

/-- Content that is a node of a guard, or in it, is inside it. -/
theorem inside_of_mem_preorder {k : Java.Kind} (hc : IsContent content) (is : n.is k = true)
    (other : k ∈ guardKinds) (h : content ∈ n.preorder) :
    content ∈ Node.preorderAll n.children := by
  rw [Node.preorder_eq] at h
  rcases List.mem_cons.1 h with rfl | h
  · obtain ⟨own, label, _, outside⟩ := hc
    rw [Node.is, label, beq_iff_eq, Java.Label.kind.injEq] at is
    exact (outside (is ▸ other)).elim
  · exact h

/-- Content in parentheses is in the expression inside them. -/
theorem mem_preorder_of_unwrapped (hc : IsContent content) {e : Node} (h : n.Belongs text)
    (hu : unwrapped? n = some e) (inside : content ∈ n.preorder) :
    content ∈ e.preorder ∧ e.Belongs text := by
  fun_induction unwrapped? n with
  | case1 n is c single ih =>
    obtain ⟨named, noComment⟩ := hc.named
    obtain ⟨d, hd, statement, hcontent⟩ :=
      h.exists_namedChild (inside_of_mem_preorder hc is (by decide) inside) named noComment
    have only : d ∈ uncommented n := List.mem_filter.2 ⟨hd, by rw [statement]; rfl⟩
    rw [single] at only
    cases List.mem_singleton.1 only
    exact ih (h.child (Node.mem_children_of_mem_namedChildren hd)) hu hcontent
  | case2 n is several => cases hu
  | case3 n is =>
    cases hu
    exact ⟨inside, h⟩

theorem of_guard {c : Prop} [Decidable c] {u : Unit} (h : (guard c : Option Unit) = some u) : c := by
  by_cases hc : c
  · exact hc
  · have none : (guard c : Option Unit) = none := if_neg hc
    rw [none] at h
    cases h

/-- What a test against `null` is made of. -/
theorem exists_of_nullTest {operand : Node} {check : NullCheck}
    (h : nullTest? n = some (operand, check)) :
    ∃ e operator left right l r, unwrapped? n = some e ∧ e.is .binaryExpression = true ∧
      e.child? .operator = some operator ∧ operator.label = .token check.operator ∧
      e.child? .left = some left ∧ unwrapped? left = some l ∧
      e.child? .right = some right ∧ unwrapped? right = some r ∧
      (r.is .nullLiteral = true ∧ operand = l ∨ l.is .nullLiteral = true ∧ operand = r) := by
  obtain ⟨e, he, h⟩ := Option.bind_eq_some_iff.1 h
  obtain ⟨_, binary, h⟩ := Option.bind_eq_some_iff.1 h
  obtain ⟨operator, hoperator, rest⟩ := Option.bind_eq_some_iff.1 h
  split at rest
  · rename_i token label
    obtain ⟨made, hmade, rest⟩ := Option.bind_eq_some_iff.1 rest
    obtain ⟨l, hleft, rest⟩ := Option.bind_eq_some_iff.1 rest
    obtain ⟨r, hright, result⟩ := Option.bind_eq_some_iff.1 rest
    obtain ⟨left, hleft, hl⟩ := Option.bind_eq_some_iff.1 hleft
    obtain ⟨right, hright, hr⟩ := Option.bind_eq_some_iff.1 hright
    rw [NullCheck.eq_of_ofOperator? hmade] at label
    refine ⟨e, operator, left, right, l, r, he, of_guard binary, hoperator, ?_, hleft, hl, hright,
      hr, ?_⟩
    · split at result
      · cases result
        exact label
      · split at result
        · cases result
          exact label
        · cases result
    · split at result
      · rename_i null
        cases result
        exact Or.inl ⟨null, rfl⟩
      · split at result
        · rename_i null
          cases result
          exact Or.inr ⟨null, rfl⟩
        · cases result
  · cases rest

/-- No content is a name or `null`, or in one. -/
theorem no_content_in_word (hc : IsContent content) (h : n.Belongs text)
    (word : n.is .identifier = true ∨ n.is .nullLiteral = true) : content ∉ n.preorder := by
  intro inside
  rcases word with is | is
  · have deeper := inside_of_mem_preorder hc is (by decide) inside
    rw [h.identifier_leaf is] at deeper
    cases deeper
  · have deeper := inside_of_mem_preorder hc is (by decide) inside
    rw [h.null_leaf is] at deeper
    cases deeper

/-- No content is in the test of a guard. -/
theorem no_content_in_test (hc : IsContent content) {condition operand : Node} {check : NullCheck}
    (h : condition.Belongs text) (test : nullTest? condition = some (operand, check))
    (name : operand.is .identifier = true) : content ∉ condition.preorder := by
  intro inside
  obtain ⟨named, noComment⟩ := hc.named
  obtain ⟨e, operator, left, right, l, r, he, binary, hoperator, token, hleft, hl, hright, hr, null⟩ :=
    exists_of_nullTest test
  obtain ⟨inside, belongs⟩ := mem_preorder_of_unwrapped hc h he inside
  obtain ⟨c, hcNamed, statement, hcontent⟩ := belongs.exists_namedChild
    (inside_of_mem_preorder hc binary (by decide) inside) named noComment
  obtain ⟨mem, cNamed⟩ := List.mem_filter.1 hcNamed
  have leftWord : l.is .identifier = true ∨ l.is .nullLiteral = true :=
    null.elim (fun both => Or.inl (both.2 ▸ name)) fun both => Or.inr both.1
  have rightWord : r.is .identifier = true ∨ r.is .nullLiteral = true :=
    null.elim (fun both => Or.inr both.1) fun both => Or.inl (both.2 ▸ name)
  obtain ⟨part, hpart, found⟩ := belongs.part_of_binary binary mem statement
  simp only [List.mem_cons, List.not_mem_nil, or_false] at hpart
  rcases hpart with rfl | rfl | rfl
  · rw [hleft] at found
    cases found
    obtain ⟨inside, belongs⟩ := mem_preorder_of_unwrapped hc (belongs.child mem) hl hcontent
    exact no_content_in_word hc belongs leftWord inside
  · rw [hoperator] at found
    cases found
    rw [Node.isNamed, token] at cNamed
    cases cNamed
  · rw [hright] at found
    cases found
    obtain ⟨inside, belongs⟩ := mem_preorder_of_unwrapped hc (belongs.child mem) hr hcontent
    exact no_content_in_word hc belongs rightWord inside

theorem exists_of_guardTest {subject : Binding} {check : NullCheck}
    (h : guardTest? r n = some (subject, check)) :
    ∃ condition operand, n.is .ifStatement = true ∧ n.child? .condition = some condition ∧
      nullTest? condition = some (operand, check) ∧ operand.is .identifier = true ∧
      r.bindingAt? operand.start = some subject := by
  obtain ⟨_, isTest, h⟩ := Option.bind_eq_some_iff.1 h
  obtain ⟨condition, hcondition, h⟩ := Option.bind_eq_some_iff.1 h
  obtain ⟨⟨operand, check'⟩, test, h⟩ := Option.bind_eq_some_iff.1 h
  obtain ⟨_, name, h⟩ := Option.bind_eq_some_iff.1 h
  obtain ⟨_, denotes, same⟩ := Option.bind_eq_some_iff.1 h
  cases same
  exact ⟨condition, operand, of_guard isTest, hcondition, test, of_guard name, denotes⟩

/-- Content in a guard is in one of its branches. -/
theorem exists_branchNode (hc : IsContent content) (h : n.Belongs text) (guard : isGuard r n = true)
    (inside : content ∈ n.preorder) :
    ∃ b ∈ branchNodes n .consequence ++ branchNodes n .alternative, content ∈ b.preorder := by
  obtain ⟨⟨subject, check⟩, hg⟩ := Option.isSome_iff_exists.1 guard
  obtain ⟨condition, operand, isTest, hcondition, test, name, _⟩ := exists_of_guardTest hg
  obtain ⟨named, noComment⟩ := hc.named
  obtain ⟨c, hcNamed, statement, hcontent⟩ := h.exists_namedChild
    (inside_of_mem_preorder hc isTest (by decide) inside) named noComment
  obtain ⟨mem, cNamed⟩ := List.mem_filter.1 hcNamed
  have belongs := h.child mem
  have inBranch {part : Java.Role} (found : n.child? part = some c) :
      ∃ b ∈ branchNodes n part, content ∈ b.preorder := by
    rw [branchNodes, found]
    dsimp only
    split
    · rename_i block
      obtain ⟨d, hd, _, hcontent⟩ := belongs.exists_namedChild
        (inside_of_mem_preorder hc block (by decide) hcontent) named noComment
      exact ⟨d, hd, hcontent⟩
    · exact ⟨c, List.mem_singleton_self c, hcontent⟩
  obtain ⟨part, hpart, found⟩ := h.part_of_test isTest mem cNamed statement
  simp only [List.mem_cons, List.not_mem_nil, or_false] at hpart
  rcases hpart with rfl | rfl | rfl
  · rw [hcondition] at found
    cases found
    exact (no_content_in_test hc belongs test name hcontent).elim
  · obtain ⟨b, hb, hcontent⟩ := inBranch found
    exact ⟨b, List.mem_append_left _ hb, hcontent⟩
  · obtain ⟨b, hb, hcontent⟩ := inBranch found
    exact ⟨b, List.mem_append_right _ hb, hcontent⟩

/-- Content in a callback is in one of the nodes of its leaves. -/
theorem exists_leafNode (hc : IsContent content) (h : block.Belongs text)
    (inside : content ∈ Node.preorderAll block.children) :
    ∃ b ∈ leafNodes p r block, content ∈ b.preorder := by
  obtain ⟨named, noComment⟩ := hc.named
  obtain ⟨c, hcNamed, _, hcontent⟩ := h.exists_namedChild inside named noComment
  cases splits : p.splits r c with
  | false =>
    refine ⟨c, List.mem_flatMap.2 ⟨c, hcNamed, ?_⟩, hcontent⟩
    rw [leafNodesAt_eq_self splits]
    exact List.mem_singleton_self c
  | true =>
    have belongs := h.child (Node.mem_children_of_mem_namedChildren hcNamed)
    obtain ⟨b, hb, hcontent⟩ := exists_branchNode hc belongs (isGuard_of_splits splits) hcontent
    refine ⟨b, List.mem_flatMap.2 ⟨c, hcNamed, ?_⟩, hcontent⟩
    rw [leafNodesAt, splits, if_pos rfl]
    exact hb

/-! ### Calls and slots -/

/-- Whether a range of bytes lies in a slot. -/
def Slot.carries (s : Slot) (start stop : Nat) : Bool :=
  s.start ≤ start && stop ≤ s.stop

theorem Slot.carries_iff {s : Slot} {start stop : Nat} :
    s.carries start stop = true ↔ s.start ≤ start ∧ stop ≤ s.stop := by
  rw [carries, Bool.and_eq_true, decide_eq_true_eq, decide_eq_true_eq]

/-- The slots of the leaves stand one after the other inside the block. -/
theorem leafSlots_spans (h : block.Belongs text) :
    (∀ s ∈ leafSlots source p r block, Solid text s.start s.stop ∧ block.start ≤ s.start ∧
      s.stop ≤ block.stop) ∧
      (leafSlots source p r block).Pairwise fun a b => a.stop ≤ b.start :=
  (grouped_leafSlots h).spans (placed_leafNodes h) fun _ hn =>
    h.inside_children (mem_preorder_of_mem_leafNodes hn)

/-- What lies in a leaf lies in the slot of exactly one leaf. -/
theorem length_filter_carries (h : block.Belongs text) {start stop : Nat} (wide : start < stop)
    (hn : n ∈ leafNodes p r block) (first : n.start ≤ start) (last : stop ≤ n.stop) :
    ((leafSlots source p r block).filter (·.carries start stop)).length = 1 := by
  have groups : Grouped r (leafSlots source p r block) (leafNodes p r block) := grouped_leafSlots h
  obtain ⟨before, s, after, split, low, high⟩ := groups.exists_slot (placed_leafNodes h) hn
  have ordered : (leafSlots source p r block).Pairwise fun a b => a.stop ≤ b.start :=
    (leafSlots_spans h).2
  rw [split] at ordered ⊢
  obtain ⟨_, later, earlier⟩ := List.pairwise_append.1 ordered
  have carried : s.carries start stop = true := Slot.carries_iff.2 ⟨by omega, by omega⟩
  have none : before.filter (·.carries start stop) = [] := by
    refine List.filter_eq_nil_iff.2 fun t ht carries => ?_
    have := Slot.carries_iff.1 carries
    have := earlier t ht s List.mem_cons_self
    omega
  have noneAfter : after.filter (·.carries start stop) = [] := by
    refine List.filter_eq_nil_iff.2 fun t ht carries => ?_
    have := Slot.carries_iff.1 carries
    have := (List.pairwise_cons.1 later).1 t ht
    omega
  rw [List.filter_append, none, List.filter_cons, carried, noneAfter]
  rfl

variable {call : Node}

theorem label_of_isCall (h : IsCall text call) : call.label = .kind .methodInvocation :=
  eq_of_beq h.invocation

theorem isContent_of_isCall (h : IsCall text call) : IsContent call :=
  ⟨_, label_of_isCall h, rfl, by decide⟩

/-- What the conversion of a call in a callback replaces lies in the slot of exactly one leaf. -/
theorem length_carriers (hc : IsCall text call) (h : block.Belongs text)
    (inside : call ∈ Node.preorderAll block.children) :
    ((leafSlots source p r block).filter (·.carries (callStart call) call.stop)).length = 1 := by
  obtain ⟨n, hn, hcall⟩ := exists_leafNode (p := p) (r := r) (isContent_of_isCall hc) h inside
  have within := (h.inside_children (mem_preorder_of_mem_leafNodes hn)).bounds hcall
  obtain ⟨spans, own⟩ := hc.spans
  exact length_filter_carries h spans.wide hn (by omega) (by omega)

/-- What the conversion of a call outside a callback replaces lies in no slot of it. -/
theorem carriers_eq_nil (hc : IsCall text call) (h : block.Belongs text)
    (outside : call.stop ≤ block.start ∨ block.stop ≤ call.start ∨
      block ∈ Node.preorderAll call.children) :
    (leafSlots source p r block).filter (·.carries (callStart call) call.stop) = [] := by
  refine List.filter_eq_nil_iff.2 fun s hs carries => ?_
  obtain ⟨first, last⟩ := Slot.carries_iff.1 carries
  obtain ⟨_, start, stop⟩ := (leafSlots_spans h).1 s hs
  obtain ⟨spans, own⟩ := hc.spans
  have wide := spans.wide
  rcases outside with before | after | inside
  · omega
  · omega
  · obtain ⟨name, mem, _, callName, _, leaf, belongs⟩ := hc.exists_name
    obtain ⟨c, hcChild, hblock⟩ := Node.mem_preorderAll.1 inside
    have bounds := (hc.belongs.child hcChild).bounds hblock
    have nameWide := belongs.spans.wide
    rcases hc.belongs.placed.apart hcChild mem with rfl | before | after
    · -- the name of the method is no block, since it holds nothing
      rw [Node.preorder_eq, leaf] at hblock
      cases List.mem_singleton.1 hblock
      have groups : Grouped r (leafSlots source p r block) (leafNodes p r block) :=
        grouped_leafSlots h
      rw [leafNodes, Node.namedChildren, leaf] at groups
      generalize leafSlots source p r block = ss at hs groups
      cases groups
      cases hs
    · omega
    · omega

end MonoTap.Callback
