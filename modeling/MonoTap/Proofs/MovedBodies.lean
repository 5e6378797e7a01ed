import MonoTap.Proofs.AlikeStatements
import MonoTap.Proofs.MovedScopes

/-!
# Bodies and carriage returns

With carriage returns put in, a block is cut into the same statements at the moved offsets: the same
tests are guards, and each statement mentions the same bindings. A statement that a line comment ends
takes in the carriage return behind the comment.
-/

set_option autoImplicit false

namespace MonoTap.Callback

open Java (Node)
open Text (Source Ends crlfText)

variable {s : Source} {text : String} {r : Resolution} {n block : Node}

/-! ### Guards -/

theorem uncommented_crlf (n : Node) :
    uncommented (n.crlf s) = (uncommented n).map (Node.crlf s) := by
  rw [uncommented, Node.namedChildren_crlf, Node.filter_map_crlf fun m => by rw [Node.isComment_crlf],
    uncommented]

theorem unwrapped?_crlf (n : Node) : unwrapped? (n.crlf s) = (unwrapped? n).map (Node.crlf s) := by
  fun_induction unwrapped? n with
  | case1 n parens c inside ih =>
    rw [unwrapped?, Node.is_crlf, if_pos parens]
    split
    · rename_i d single
      rw [uncommented_crlf, inside] at single
      cases single
      exact ih
    · rename_i other
      exact (other (c.crlf s) (by rw [uncommented_crlf, inside]; rfl)).elim
  | case2 n parens other =>
    rw [unwrapped?, Node.is_crlf, if_pos parens]
    split
    · rename_i d single
      rw [uncommented_crlf] at single
      obtain ⟨c, inside, _⟩ := List.map_eq_singleton_iff.1 single
      exact (other c inside).elim
    · rfl
  | case3 n plain =>
    rw [unwrapped?, Node.is_crlf, if_neg plain]
    rfl

/-- What follows on a value follows on the moved one, if it does for every value. -/
theorem bind_eq_map {α β γ δ : Type} {x : Option α} {y : Option β} {f : α → β}
    {g : α → Option γ} {k : β → Option δ} {h : γ → δ} (moved : y = x.map f)
    (each : ∀ a, k (f a) = (g a).map h) : y.bind k = (x.bind g).map h := by
  subst moved
  cases x with
  | none => rfl
  | some a => exact each a

theorem nullTest?_crlf (n : Node) :
    nullTest? (n.crlf s) = (nullTest? n).map fun test => (test.1.crlf s, test.2) := by
  have part (e : Node) (role : Java.Role) :
      ((e.crlf s).child? role).bind unwrapped? =
        ((e.child? role).bind unwrapped?).map (Node.crlf s) :=
    bind_eq_map (Node.child?_crlf e role) unwrapped?_crlf
  have self {α : Type} (x : Option α) : x = x.map id := by rw [Option.map_id, id]
  refine bind_eq_map (unwrapped?_crlf n) fun e => ?_
  rw [Node.is_crlf]
  refine bind_eq_map (self _) fun _ => bind_eq_map (Node.child?_crlf e _) fun operator => ?_
  rw [Node.label_crlf]
  cases operator.label with
  | kind k => rfl
  | token t =>
    refine bind_eq_map (self _) fun check => ?_
    refine bind_eq_map (part e .left) fun left => bind_eq_map (part e .right) fun right => ?_
    rw [Node.is_crlf, Node.is_crlf]
    split
    · rfl
    · split <;> rfl

theorem guardTest?_crlf (r : Resolution) (n : Node) :
    guardTest? (r.crlf s) (n.crlf s) =
      (guardTest? r n).map fun test => (test.1.crlf, test.2) := by
  have self {α : Type} (x : Option α) : x = x.map id := by rw [Option.map_id, id]
  rw [guardTest?, guardTest?, Node.is_crlf]
  refine bind_eq_map (self _) fun _ => bind_eq_map (Node.child?_crlf n _) fun condition =>
    bind_eq_map (nullTest?_crlf condition) fun test => ?_
  obtain ⟨operand, check⟩ := test
  dsimp only
  rw [Node.is_crlf]
  refine bind_eq_map (self _) fun _ => ?_
  rw [Node.start_crlf]
  exact bind_eq_map (Resolution.bindingAt?_crlf r _) fun subject => rfl

theorem isGuard_crlf (r : Resolution) (n : Node) : isGuard (r.crlf s) (n.crlf s) = isGuard r n := by
  rw [isGuard, guardTest?_crlf, Option.isSome_map, isGuard]

/-! ### Slots -/

/-- A slot of the same statement with the comments attached to it. -/
structure Slot.Moved (s : Source) (before after : Slot) : Prop where
  start : after.start = s.moved before.start
  stop : ∃ tail, Ends s.toBytes before.stop after.stop tail
  statement : after.statement = before.statement.map (Node.crlf s)

theorem Slot.Moved.isGuard {a b : Slot} (h : a.Moved s b) : b.isGuard (r.crlf s) = a.isGuard r := by
  rw [Slot.isGuard, h.statement, Slot.isGuard]
  cases a.statement with
  | none => rfl
  | some n => exact isGuard_crlf r n

theorem moved_commentSlots {comments : List Node} (belongs : ∀ c ∈ comments, c.Belongs text.toList) :
    List.Forall₂ (Slot.Moved s) (commentSlots comments)
      (commentSlots (comments.map (Node.crlf s))) := by
  rw [commentSlots, commentSlots, List.head?_map, List.getLast?_map]
  cases first : comments.head? with
  | none => exact .nil
  | some c =>
    cases last : comments.getLast? with
    | none => exact .nil
    | some d =>
      have own := (belongs d (List.mem_of_getLast? last)).exists_ends (s := s)
      exact .cons ⟨Node.start_crlf c, own, rfl⟩ .nil

theorem moved_statementSlot (comments : List Node) (belongs : n.Belongs text.toList) :
    (statementSlot comments n).Moved s (statementSlot (comments.map (Node.crlf s)) (n.crlf s)) := by
  refine ⟨?_, belongs.exists_ends, rfl⟩
  rw [statementSlot, statementSlot, List.head?_map]
  cases comments.head? with
  | none => exact Node.start_crlf n
  | some c => exact Node.start_crlf c

/-- A block is cut into the same slots. -/
theorem moved_slotsFrom {row : Nat} {last last' : Option Slot} {pending ns : List Node}
    (opened : List.Forall₂ (Slot.Moved s) last.toList last'.toList)
    (waiting : ∀ c ∈ pending, c.Belongs text.toList) (belongs : ∀ c ∈ ns, c.Belongs text.toList) :
    List.Forall₂ (Slot.Moved s) (slotsFrom s r row last pending ns)
      (slotsFrom s.crlf (r.crlf s) row last' (pending.map (Node.crlf s))
        (ns.map (Node.crlf s))) := by
  induction ns generalizing row last last' pending with
  | nil =>
    simp only [slotsFrom, List.map_nil]
    exact List.rel_append opened (moved_commentSlots waiting)
  | cons c cs ih =>
    have own : c.Belongs text.toList := belongs c List.mem_cons_self
    have others : ∀ d ∈ cs, d.Belongs text.toList := fun d hd =>
      belongs d (List.mem_cons_of_mem _ hd)
    have noneYet : ∀ d ∈ ([] : List Node), d.Belongs text.toList := fun d hd => by
      cases hd
    have longer : ∀ d ∈ pending ++ [c], d.Belongs text.toList := by
      intro d hd
      rcases List.mem_append.1 hd with hd | hd
      · exact waiting d hd
      · exact List.mem_singleton.1 hd ▸ own
    have appended : pending.map (Node.crlf s) ++ [c.crlf s] = (pending ++ [c]).map (Node.crlf s) := by
      rw [List.map_append, List.map_singleton]
    simp only [List.map_cons, slotsFrom, Node.isComment_crlf]
    split
    · cases last with
      | none =>
        cases last' with
        | some => cases opened
        | none =>
          rw [appended]
          exact ih opened longer others
      | some a =>
        cases last' with
        | none => cases opened
        | some b =>
          obtain ⟨moved, -⟩ := List.forall₂_cons.1 opened
          simp only [List.isEmpty_map, Node.start_crlf, Source.row_crlf, moved.isGuard]
          split
          · split
            · exact .cons moved (ih (.cons ⟨rfl, own.exists_ends, rfl⟩ .nil) noneYet others)
            · exact ih (.cons ⟨moved.start, own.exists_ends, moved.statement⟩ .nil) noneYet others
          · rw [appended]
            exact ih opened longer others
    · rename_i plain
      have row : s.crlf.row (c.crlf s).stop = s.row c.stop := by
        rw [own.stop_crlf (Node.not_lineComment (Bool.eq_false_iff.2 plain)), Source.row_crlf]
      refine List.rel_append opened ?_
      rw [isGuard_crlf, row]
      split
      · exact List.rel_append (moved_commentSlots waiting)
          (ih (.cons (moved_statementSlot [] own) .nil) noneYet others)
      · exact ih (.cons (moved_statementSlot pending own) .nil) noneYet others

theorem moved_slotsOf (h : block.Belongs text.toList) :
    List.Forall₂ (Slot.Moved s) (slotsOf s r block) (slotsOf s.crlf (r.crlf s) (block.crlf s)) := by
  rw [slotsOf, slotsOf, Node.namedChildren_crlf]
  exact moved_slotsFrom .nil (fun _ hc => by cases hc) fun c hc =>
    h.child (Node.mem_children_of_mem_namedChildren hc)

theorem moved_branchSlots (h : n.Belongs text.toList) (part : Java.Role) :
    List.Forall₂ (Slot.Moved s) (branchSlots s r n part)
      (branchSlots s.crlf (r.crlf s) (n.crlf s) part) := by
  rw [branchSlots, branchSlots, Node.child?_crlf]
  cases found : n.child? part with
  | none => exact .nil
  | some b =>
    have own := h.child (Node.mem_children_of_child? found)
    simp only [Option.map_some, Node.is_crlf]
    split
    · exact moved_slotsOf own
    · exact .cons (moved_statementSlot [] own) .nil

/-! ### Statements -/

/-- The test with a carriage return put before each line feed. -/
def Guard.crlf (g : Guard) : Guard :=
  { g with subject := g.subject.crlf }

/-- The same statement, possibly with a carriage return at its end. -/
structure Statement.Moved (s : Source) (before after : Statement) : Prop where
  kind : after.kind = before.kind
  text : ∃ tail, after.text = crlfText before.text ++ tail ∧ (tail = "" ∨ tail = "\r")
  references : after.references = before.references
  start : after.start = s.moved before.start
  stop : ∃ tail, Ends s.toBytes before.stop after.stop tail
  line : after.line = before.line
  indent : after.indent = before.indent
  guard : after.guard = before.guard.map Guard.crlf

theorem moved_statementAt {start stop stop' : Nat} {tail : String} (inLine : r.InLine s)
    (ends : Ends s.toBytes stop stop' tail) (g : Option Guard) :
    (statementAt s r start stop g).Moved s
      (statementAt s.crlf (r.crlf s) (s.moved start) stop' (g.map Guard.crlf)) where
  kind := by
    rw [statementAt, Option.isSome_map]
    rfl
  text := s.exists_textOf_ends ends start
  references := Resolution.referencesIn_crlf ends inLine
  start := rfl
  stop := ⟨tail, ends⟩
  line := s.line_crlf start
  indent := by
    rw [statementAt, Source.lineIndent_crlf]
    rfl
  guard := rfl

/-- Entries of which the statements are the same. -/
def Entry.Moved (s : Source) (r : Resolution) (before after : Entry) : Prop :=
  Entry.Related (Statement.Moved s) s r s.crlf (r.crlf s) before after

/-- A slot gives the same entry: a guard is taken apart in the same way. -/
theorem moved_entryOf (inLine : r.InLine s) {a b : Slot} (h : a.Moved s b)
    (belongs : ∀ n, a.statement = some n → n.Belongs text.toList) :
    Entry.Moved s r (entryOf s r a) (entryOf s.crlf (r.crlf s) b) := by
  generalize size : sizeOf a.statement = k
  induction k using Nat.strongRecOn generalizing a b with
  | ind k ih =>
    obtain ⟨tail, ends⟩ := h.stop
    rcases entryOf_cases r a with plain | ⟨n, subject, check, hn, test⟩
    · have plain' : ∀ m, b.statement = some m → guardTest? (r.crlf s) m = none := by
        intro m hm
        rw [h.statement] at hm
        obtain ⟨n, hn, rfl⟩ := Option.map_eq_some_iff.1 hm
        rw [guardTest?_crlf, plain n hn]
        rfl
      rw [entryOf_plain plain, entryOf_plain plain', h.start]
      exact related_plain (moved_statementAt inLine ends none)
    · have own := belongs n hn
      have hn' : b.statement = some (n.crlf s) := by rw [h.statement, hn]; rfl
      have test' : guardTest? (r.crlf s) (n.crlf s) = some (subject.crlf, check) := by
        rw [guardTest?_crlf, test]
        rfl
      have branch (part : Java.Role) : List.Forall₂ (Entry.Moved s r)
          ((branchSlots s r n part).map (entryOf s r))
          ((branchSlots s.crlf (r.crlf s) (n.crlf s) part).map (entryOf s.crlf (r.crlf s))) := by
        rw [List.forall₂_map_left_iff, List.forall₂_map_right_iff]
        have slots := (List.forall₂_and_left _ _).2
          ⟨fun c hc => hc, moved_branchSlots (s := s) (r := r) own part⟩
        refine slots.imp fun c d ⟨hc, moved⟩ => ?_
        obtain ⟨_, inside, smaller⟩ := branchSlots_spans own hc
        exact ih _ (by rw [← size, hn]; exact smaller) moved inside rfl
      rw [entryOf_guard hn test, entryOf_guard hn' test', h.start]
      apply related_guard _ (branch _) (branch _)
      intro first second
      exact moved_statementAt inLine ends (some ⟨subject, check, first, second⟩)

/-- The entries of a block. -/
theorem moved_entriesOf (inLine : r.InLine s) (h : block.Belongs text.toList) :
    List.Forall₂ (Entry.Moved s r) (entriesOf s r block)
      (entriesOf s.crlf (r.crlf s) (block.crlf s)) := by
  rw [entriesOf, entriesOf, List.forall₂_map_left_iff, List.forall₂_map_right_iff]
  have slots := (List.forall₂_and_left _ _).2
    ⟨fun c hc => hc, moved_slotsOf (s := s) (r := r) h⟩
  refine slots.imp fun a b both => @moved_entryOf _ text _ inLine _ _ both.2 fun n hn => ?_
  exact h.child (Node.mem_children_of_mem_namedChildren (statement_of_mem_slotsOf both.1 hn))

end MonoTap.Callback
