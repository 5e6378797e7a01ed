import Mathlib.Data.Option.Basic
import MonoTap.Proofs.WalkInvariants

/-!
# What a guard tests

An `if` is a guard by what its condition means, not by how it is spelled: parentheses and the comments
in them do not count, and neither does the order of the operands. The name in the condition denotes what
the walk over the callback finds for it there. The statements of a callback that are guards are just
those, among the ones that the callback is cut into.
-/

set_option autoImplicit false

namespace MonoTap.Callback

open Java (Node)
open Text (Source)

/-! ### Conditions -/

/-- An expression in any number of parentheses, each with nothing else in it but comments. -/
inductive Unwraps : Node → Node → Prop
  | bare {n : Node} (other : n.is .parenthesizedExpression = false) : Unwraps n n
  | parenthesized {n c e : Node} (is : n.is .parenthesizedExpression = true)
      (only : uncommented n = [c]) (inside : Unwraps c e) : Unwraps n e

/-- A comparison of two operands, where parentheses around it and around the operands do not count. -/
def Comparison (n left : Node) (check : NullCheck) (right : Node) : Prop :=
  ∃ e operator l r, Unwraps n e ∧ e.is .binaryExpression = true ∧
    e.child? .operator = some operator ∧ operator.label = .token check.operator ∧
    e.child? .left = some l ∧ Unwraps l left ∧ e.child? .right = some r ∧ Unwraps r right

/-- A comparison of an operand with `null`, in either order. -/
def ComparesWithNull (n operand : Node) (check : NullCheck) : Prop :=
  ∃ null, null.is .nullLiteral = true ∧
    (Comparison n operand check null ∨ Comparison n null check operand)

variable {source : Source} {text : List Char} {parameters : List (String × Option String)}
  {r : Resolution} {n m e operand block : Node} {subject : Binding} {check : NullCheck}

theorem unwrapped_eq_some_iff : unwrapped? n = some e ↔ Unwraps n e := by
  constructor
  · intro h
    fun_induction unwrapped? n with
    | case1 n is c only ih => exact .parenthesized is only (ih h)
    | case2 n is several => cases h
    | case3 n other =>
      cases h
      exact .bare (Bool.not_eq_true _ ▸ other)
  · intro h
    induction h with
    | bare other =>
      rw [unwrapped?, other]
      rfl
    | @parenthesized n c e is only inside ih =>
      rw [unwrapped?, if_pos is]
      split
      · rename_i d single
        rw [only] at single
        cases single
        exact ih
      · rename_i several
        exact (several c only).elim

/-- The test in a condition is found however the condition is spelled. -/
theorem nullTest_eq_some_iff (name : operand.is .identifier = true) :
    nullTest? n = some (operand, check) ↔ ComparesWithNull n operand check := by
  constructor
  · intro h
    obtain ⟨e, operator, left, right, l, r, he, binary, hoperator, label, hleft, hl, hright, hr, null⟩ :=
      exists_of_nullTest h
    have compared : Comparison n l check r :=
      ⟨e, operator, left, right, unwrapped_eq_some_iff.1 he, binary, hoperator, label, hleft,
        unwrapped_eq_some_iff.1 hl, hright, unwrapped_eq_some_iff.1 hr⟩
    rcases null with ⟨null, rfl⟩ | ⟨null, rfl⟩
    · exact ⟨r, null, Or.inl compared⟩
    · exact ⟨l, null, Or.inr compared⟩
  · rintro ⟨null, is, compared⟩
    have other : operand.is .nullLiteral = false := by
      rw [Node.is, eq_of_beq name]
      rfl
    have found {left right : Node} (h : Comparison n left check right) : nullTest? n =
        if right.is .nullLiteral then some (left, check)
        else if left.is .nullLiteral then some (right, check) else none := by
      obtain ⟨e, operator, l, r, he, binary, hoperator, label, hleft, hl, hright, hr⟩ := h
      rw [← unwrapped_eq_some_iff] at he hl hr
      simp [nullTest?, he, binary, hoperator, label, NullCheck.ofOperator?_operator, hleft, hl, hright,
        hr]
    rcases compared with compared | compared
    · rw [found compared, is]
      rfl
    · rw [found compared, other, is]
      rfl

/-! ### Names -/

/-- A name in a callback denotes a binding: where the walk over the callback comes to the name, this is
the innermost declaration of it that can be seen. -/
def Denotes (source : Source) (parameters : List (String × Option String)) (body name : Node)
    (b : Binding) : Prop :=
  ∃ front back, scopeEvents source body =
      front ++ .mention (name.text source) name.start :: back ∧
    (front.foldl Resolution.run (.start parameters)).lookup? (name.text source) = some b

/-- What is found at the offset of a name is what the name denotes. -/
theorem bindingAt_iff_denotes (h : block.Belongs text) (inside : operand ∈ block.preorder)
    (name : operand.is .identifier = true) :
    (Resolution.ofBody source parameters block).bindingAt? operand.start = some subject ↔
      Denotes source parameters block operand subject := by
  have invariants : WalkInvariants source parameters block := walkInvariants_of_belongs parameters h
  have lookup := invariants.lookup
  rw [lookup]
  constructor
  · intro ho
    obtain ⟨front, back, called, split, denoted⟩ := Resolution.exists_lookup_of_mem_occurrences ho
    have mention : .mention called operand.start ∈ scopeEvents source block := by
      rw [split]
      exact List.mem_append_right _ List.mem_cons_self
    obtain ⟨m, hm, is, spelled, offset⟩ := namesIn_of_mem_scopeEvents mention
    have same : m = operand := eq_of_identifiers (identifiers_pairwise h) hm inside is name offset
    subst same
    subst spelled
    exact ⟨front, back, split, denoted⟩
  · rintro ⟨front, back, split, denoted⟩
    rw [Resolution.ofBody, split, List.foldl_append, List.foldl_cons]
    apply Resolution.mem_occurrences_foldl
    rw [Resolution.run, denoted]
    exact List.mem_cons_self

/-! ### Guards -/

/-- An `if` tests a binding against `null`: its condition compares a name with `null`, and the name
denotes the binding. -/
def Tests (source : Source) (parameters : List (String × Option String)) (body n : Node)
    (subject : Binding) (check : NullCheck) : Prop :=
  ∃ condition operand, n.child? .condition = some condition ∧
    ComparesWithNull condition operand check ∧ operand.is .identifier = true ∧
    Denotes source parameters body operand subject

/-- An `if` in a callback is recognised as a guard by what it tests. -/
theorem guardTest_iff_tests (h : block.Belongs text) (inside : n ∈ block.preorder)
    (is : n.is .ifStatement = true) :
    guardTest? (Resolution.ofBody source parameters block) n = some (subject, check) ↔
      Tests source parameters block n subject check := by
  have named {condition operand : Node} (child : n.child? .condition = some condition)
      (test : nullTest? condition = some (operand, check)) : operand ∈ block.preorder := by
    have inCondition := mem_preorder_of_nullTest test
    exact Node.mem_preorder_trans inside (mem_preorder_of_child? child inCondition)
  constructor
  · intro test
    obtain ⟨condition, operand, _, child, nullTest, name, found⟩ := exists_of_guardTest test
    have denotes := (bindingAt_iff_denotes h (named child nullTest) name).1 found
    exact ⟨condition, operand, child, (nullTest_eq_some_iff name).1 nullTest, name, denotes⟩
  · rintro ⟨condition, operand, child, compares, name, denotes⟩
    have nullTest := (nullTest_eq_some_iff name).2 compares
    have found := (bindingAt_iff_denotes h (named child nullTest) name).2 denotes
    simp [guardTest?, is, child, nullTest, name, found]

/-- The statements that a callback is cut into: those of its block, and those of the branches of the
guards among them. -/
inductive Listed (r : Resolution) (block : Node) : Node → Prop
  | top {n : Node} (inside : n ∈ block.namedChildren) (statement : n.isComment = false) :
      Listed r block n
  | branch {n m : Node} {part : Java.Role} (listed : Listed r block n) (guard : isGuard r n = true)
      (known : part = .consequence ∨ part = .alternative) (inside : m ∈ branchNodes n part)
      (statement : m.isComment = false) : Listed r block m

/-- A statement that covers a node and is a guard with the given test. -/
structure Statement.Guards (st : Statement) (n : Node) (subject : Binding) (check : NullCheck) :
    Prop where
  kind : st.kind = .guard
  start : st.start = n.start
  stop : st.stop = n.stop
  guard : ∃ g, st.guard = some g ∧ g.subject = subject ∧ g.check = check

theorem Listed.mem_preorder (h : Listed r block n) : n ∈ block.preorder := by
  induction h with
  | top inside => exact mem_preorder_of_mem_namedChildren inside
  | branch listed guard known inside statement ih =>
    exact Node.mem_preorder_of_inside ih (mem_children_of_mem_branchNodes inside)

/-- Two tests do not begin at one offset. -/
theorem tests_pairwise (h : block.Belongs text) :
    block.preorder.Pairwise fun a b =>
      a.is .ifStatement = true → b.is .ifStatement = true → a.start < b.start := by
  rw [Node.preorder_eq]
  have apart := List.pairwise_cons.2 ⟨fun b (hb : b ∈ Node.preorderAll block.children) =>
    Or.inl (b := block.stop ≤ b.start) hb, h.placed.pairwise_preorder⟩
  apply apart.imp_of_mem
  intro a b ha _ order test other
  rw [← Node.preorder_eq] at ha
  have belongs := h.inside ha
  rcases order with inside | after
  · have label : b.label = .kind .ifStatement := eq_of_beq other
    have named : b.isNamed = true ∧ b.isComment = false := by
      rw [Node.isNamed, Node.isComment, label]
      exact ⟨rfl, rfl⟩
    obtain ⟨c, hc, statement, hb⟩ := belongs.exists_namedChild inside named.1 named.2
    obtain ⟨mem, isNamed⟩ := List.mem_filter.1 hc
    have later := belongs.start_lt_of_test test mem isNamed statement
    have low := ((belongs.child mem).bounds hb).1
    omega
  · have wide := belongs.spans.wide
    omega

/-! ### The statements of a callback -/

variable {ss : List Slot} {ns : List Node} {s : Slot} {st : Statement} {es : List Entry} {base : Nat}

/-- A slot that holds a statement of a callback, and nothing else if this is a guard. -/
structure Slot.Lists (s : Slot) (r : Resolution) (block n : Node) : Prop where
  statement : s.statement = some n
  listed : Listed r block n
  alone : ∀ test, guardTest? r n = some test → s.span = (n.start, n.stop)

/-- Every statement among some nodes has a slot. -/
theorem Grouped.exists_statement (h : Grouped r ss ns) (hn : n ∈ ns) (statement : n.isComment = false) :
    ∃ s ∈ ss, s.statement = some n := by
  induction h with
  | nil => cases hn
  | @cons s ss first others ns holds more ih =>
    rcases List.mem_append.1 hn with here | later
    · refine ⟨s, List.mem_cons_self, ?_⟩
      have mem : n ∈ (first :: others).filter (!·.isComment) :=
        List.mem_filter.2 ⟨here, by rw [statement]; rfl⟩
      rw [holds.statement] at mem
      exact Option.mem_toList.1 mem
    · obtain ⟨t, ht, same⟩ := ih later
      exact ⟨t, List.mem_cons_of_mem _ ht, same⟩

/-- The slots of statements that a callback is cut into list them. -/
theorem Grouped.lists (h : Grouped r ss ns)
    (listed : ∀ n ∈ ns, n.isComment = false → Listed r block n) (hs : s ∈ ss)
    (hn : s.statement = some n) : s.Lists r block n := by
  induction h with
  | nil => cases hs
  | @cons t ss first others ns holds more ih =>
    rcases List.mem_cons.1 hs with rfl | hs
    · have mem : n ∈ (first :: others).filter (!·.isComment) := by
        rw [holds.statement, hn]
        exact List.mem_singleton_self n
      obtain ⟨inside, statement⟩ := List.mem_filter.1 mem
      refine ⟨hn, ?_, fun test hg => (holds.eq_of_guard hn hg).2.2⟩
      apply listed n (List.mem_append_left _ inside)
      simpa using statement
    · exact ih (fun n hn => listed n (List.mem_append_right _ hn)) hs

theorem lists_of_mem_slotsOf (hs : s ∈ slotsOf source r block) (hn : s.statement = some n) :
    s.Lists r block n := by
  apply (grouped_slotsOf source block).lists _ hs hn
  intro m hm statement
  exact .top hm statement

theorem lists_of_mem_branchSlots {part : Java.Role} (belongs : n.Belongs text)
    (listed : Listed r block n) (guard : isGuard r n = true)
    (known : part = .consequence ∨ part = .alternative) (hs : s ∈ branchSlots source r n part)
    (hm : s.statement = some m) : s.Lists r block m := by
  apply (grouped_branchSlots belongs part).lists _ hs hm
  intro d hd statement
  exact .branch listed guard known hd statement

theorem statementsOf_subset (source : Source) (r : Resolution) (base : Nat) {e : Entry}
    (he : e ∈ es) :
    ∃ base', statementsOf source r base' e ⊆ statementsFrom source r base es := by
  induction es generalizing base with
  | nil => cases he
  | cons f es ih =>
    rw [statementsFrom]
    rcases List.mem_cons.1 he with rfl | he
    · exact ⟨base, List.subset_append_left _ _⟩
    · obtain ⟨base', sub⟩ := ih (base + f.size) he
      exact ⟨base', fun st hst => List.mem_append_right _ (sub hst)⟩

/-- Every statement that a callback is cut into has a slot, whose statements are in the arena. -/
theorem Listed.exists_slot (h : block.Belongs text) (listed : Listed r block n) :
    ∃ s base, s.Lists r block n ∧ statementsOf source r base (entryOf source r s) ⊆
      statementsFrom source r 0 (entriesOf source r block) := by
  induction listed with
  | @top n inside statement =>
    obtain ⟨s, hs, hn⟩ := (grouped_slotsOf (r := r) source block).exists_statement inside statement
    obtain ⟨base, sub⟩ :=
      statementsOf_subset source r 0 (List.mem_map_of_mem (f := entryOf source r) hs)
    exact ⟨s, base, lists_of_mem_slotsOf hs hn, sub⟩
  | @branch n m part listed guard known inside statement ih =>
    obtain ⟨outer, base, lists, sub⟩ := ih
    obtain ⟨⟨subject, check⟩, test⟩ := Option.isSome_iff_exists.1 guard
    have belongs := h.inside listed.mem_preorder
    rw [entryOf_guard lists.statement test, statementsOf] at sub
    have branches := (List.cons_subset.1 sub).2
    obtain ⟨first, second⟩ := List.append_subset.1 branches
    have grouped : Grouped r (branchSlots source r n part) (branchNodes n part) :=
      grouped_branchSlots belongs part
    obtain ⟨s, hs, hm⟩ := grouped.exists_statement inside statement
    have own := List.mem_map_of_mem (f := entryOf source r) hs
    have inner := lists_of_mem_branchSlots belongs listed guard known hs hm
    rcases known with rfl | rfl
    · obtain ⟨base', deeper⟩ := statementsOf_subset source r _ own
      exact ⟨s, base', inner, List.Subset.trans deeper first⟩
    · obtain ⟨base', deeper⟩ := statementsOf_subset source r _ own
      exact ⟨s, base', inner, List.Subset.trans deeper second⟩

/-- The first statement of the entry of a guard. -/
theorem exists_guards_of_lists (lists : s.Lists r block n)
    (test : guardTest? r n = some (subject, check)) :
    ∃ st ∈ statementsOf source r base (entryOf source r s), st.Guards n subject check := by
  have span := lists.alone _ test
  rw [Slot.span, Prod.mk.injEq] at span
  rw [entryOf_guard lists.statement test, statementsOf]
  exact ⟨_, List.mem_cons_self, rfl, span.1, span.2, _, rfl, rfl, rfl⟩

/-- A guard in the arena covers an `if` that the callback is cut into. -/
theorem exists_listed_of_guard (h : block.Belongs text)
    (lists : ∀ n, s.statement = some n → s.Lists r block n)
    (hst : st ∈ statementsOf source r base (entryOf source r s)) (kind : st.kind = .guard) :
    ∃ n subject check, Listed r block n ∧ guardTest? r n = some (subject, check) ∧
      st.Guards n subject check := by
  generalize hsize : sizeOf s.statement = size
  induction size using Nat.strongRecOn generalizing s base with
  | ind size ih =>
    rcases entryOf_cases r s with plain | ⟨n, subject, check, hn, test⟩
    · rw [entryOf_plain plain, statementsOf] at hst
      cases List.mem_singleton.1 hst
      cases kind
    · have own := lists n hn
      have belongs := h.inside own.listed.mem_preorder
      have guard : isGuard r n = true := by rw [isGuard, test]; rfl
      have branch {part : Java.Role} (known : part = .consequence ∨ part = .alternative) {base : Nat}
          (mem : st ∈ statementsFrom source r base
            ((branchSlots source r n part).map (entryOf source r))) :
          ∃ n subject check, Listed r block n ∧ guardTest? r n = some (subject, check) ∧
            st.Guards n subject check := by
        obtain ⟨e, he, base', inside⟩ := exists_of_mem_statementsFrom mem
        obtain ⟨t, ht, rfl⟩ := List.mem_map.1 he
        obtain ⟨_, _, smaller⟩ := branchSlots_spans belongs ht
        apply ih _ (by rw [← hsize, hn]; exact smaller) _ inside rfl
        intro m hm
        exact lists_of_mem_branchSlots belongs own.listed guard known ht hm
      have span := own.alone _ test
      rw [Slot.span, Prod.mk.injEq] at span
      rw [entryOf_guard hn test, statementsOf] at hst
      rcases List.mem_cons.1 hst with rfl | hst
      · exact ⟨n, subject, check, own.listed, test, rfl, span.1, span.2, _, rfl, rfl, rfl⟩
      · rcases List.mem_append.1 hst with first | second
        · exact branch (Or.inl rfl) first
        · exact branch (Or.inr rfl) second

theorem exists_listed_of_mem (h : block.Belongs text)
    (hst : st ∈ statementsFrom source r 0 (entriesOf source r block)) (kind : st.kind = .guard) :
    ∃ n subject check, Listed r block n ∧ guardTest? r n = some (subject, check) ∧
      st.Guards n subject check := by
  obtain ⟨e, he, base, inside⟩ := exists_of_mem_statementsFrom hst
  obtain ⟨s, hs, rfl⟩ := List.mem_map.1 he
  apply exists_listed_of_guard h _ inside kind
  intro n hn
  exact lists_of_mem_slotsOf hs hn

/-- The `if`s among the statements that a callback is cut into are known by their offsets. -/
theorem Listed.eq_of_start (h : block.Belongs text) (hn : Listed r block n) (hm : Listed r block m)
    (testN : n.is .ifStatement = true) (testM : m.is .ifStatement = true)
    (same : n.start = m.start) : n = m := by
  have order := tests_pairwise h
  have apart : ∀ x ∈ block.preorder, ∀ y ∈ block.preorder, x.is .ifStatement = true →
      y.is .ifStatement = true → x = y ∨ x.start < y.start ∨ y.start < x.start := by
    apply List.Pairwise.forall_of_forall_of_flip
    · intro x _ _ _
      exact Or.inl rfl
    · exact order.imp fun less testX testY => Or.inr (Or.inl (less testX testY))
    · exact order.imp fun less testX testY => Or.inr (Or.inr (less testY testX))
  rcases apart n hn.mem_preorder m hm.mem_preorder testN testM with equal | less | less
  · exact equal
  · omega
  · omega

/-- An `if` that a callback is cut into becomes a guard with some test if it makes the test. -/
theorem Listed.guards_iff (h : block.Belongs text) (listed : Listed r block n)
    (is : n.is .ifStatement = true) :
    (∃ st ∈ statementsFrom source r 0 (entriesOf source r block), st.Guards n subject check) ↔
      guardTest? r n = some (subject, check) := by
  constructor
  · rintro ⟨st, hst, guards⟩
    obtain ⟨m, other, check', listedM, test, same⟩ := exists_listed_of_mem h hst guards.kind
    have start := guards.start.symm.trans same.start
    have equal := listed.eq_of_start h listedM is (isIfStatement_of_guardTest test) start
    subst equal
    obtain ⟨g, hg, rfl, rfl⟩ := guards.guard
    obtain ⟨g', hg', rfl, rfl⟩ := same.guard
    rw [hg, Option.some.injEq] at hg'
    rw [hg']
    exact test
  · intro test
    obtain ⟨s, base, lists, sub⟩ : ∃ s base, s.Lists r block n ∧
        statementsOf source r base (entryOf source r s) ⊆
          statementsFrom source r 0 (entriesOf source r block) :=
      listed.exists_slot h
    obtain ⟨st, hst, guards⟩ := exists_guards_of_lists lists test
    exact ⟨st, sub hst, guards⟩

end MonoTap.Callback
