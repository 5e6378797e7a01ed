import MonoTap.Proofs.AlikeStatements
import MonoTap.Proofs.References
import MonoTap.Proofs.Respelling

/-!
# Callbacks with respelled tests

However the tests against `null` in a callback are spelled, its names denote the same bindings, it is cut
into the same statements, the same of them are guards, and they go to the same buckets.
-/

set_option autoImplicit false

namespace MonoTap.Callback

open Java (Node Placed Solid)
open Text (Source)

variable {s t : Source} {a b : Node} {text text' : List Char} {P : Nat → Nat → Prop}
  {E E' : List ScopeEvent}

/-! ### Names in pairs -/

theorem ScopeEvent.Same.imp {Q : Nat → Nat → Prop} {e f : ScopeEvent} (h : e.Same P f)
    (weaken : ∀ o o', P o o' → Q o o') : e.Same Q f := by
  cases h with
  | enter => exact .enter
  | leave => exact .leave
  | declare name type type' offset offset' => exact .declare ..
  | mention name paired => exact .mention name (weaken _ _ paired)

/-- The offsets of two lists at the same position. -/
def Paired (os os' : List Nat) (o o' : Nat) : Prop :=
  (o, o') ∈ os.zip os'

/-- Walks that meet the same names mention them in pairs. -/
theorem paired_of_sameEvents (h : List.Forall₂ (ScopeEvent.Same fun _ _ => True) E E') :
    List.Forall₂ (ScopeEvent.Same (Paired (mentionedAt E) (mentionedAt E'))) E E' ∧
      (mentionedAt E).length = (mentionedAt E').length := by
  induction h with
  | nil => exact ⟨.nil, rfl⟩
  | cons first _ ih =>
    cases first with
    | enter => exact ⟨.cons .enter ih.1, ih.2⟩
    | leave => exact ⟨.cons .leave ih.1, ih.2⟩
    | declare name type type' offset offset' => exact ⟨.cons (.declare ..) ih.1, ih.2⟩
    | mention name paired =>
      refine ⟨.cons (.mention name List.mem_cons_self) ?_, congrArg (· + 1) ih.2⟩
      apply ih.1.imp
      intro e f same
      exact same.imp fun o o' inside => List.mem_cons_of_mem _ inside

/-! ### What names denote -/

/-- Bindings with the same number and name. -/
structure Binding.Alike (x y : Binding) : Prop where
  id : x.id = y.id
  name : x.name = y.name

/-- Two states with the same bindings, where names have been found in pairs. -/
structure Resolution.Same (P : Nat → Nat → Prop) (r q : Resolution) : Prop where
  nextId : r.nextId = q.nextId
  scopes : List.Forall₂ (List.Forall₂ Binding.Alike) r.scopes q.scopes
  occurrences : List.Forall₂ (fun o o' => P o.offset o'.offset ∧ o.binding.Alike o'.binding)
    r.occurrences q.occurrences

namespace Resolution

variable {r q : Resolution} {parameters parameters' : List (String × Option String)}

theorem Same.lookup? (h : r.Same P q) (name : String) :
    Option.Rel Binding.Alike (r.lookup? name) (q.lookup? name) := by
  rw [Resolution.lookup?, Resolution.lookup?]
  have scopes := h.scopes
  generalize r.scopes = ss at scopes
  generalize q.scopes = tt at scopes
  induction scopes with
  | nil => exact .none
  | @cons scope scope' _ _ own _ ih =>
    have found : Option.Rel Binding.Alike (scope.find? (·.name == name))
        (scope'.find? (·.name == name)) := by
      apply rel_find? own
      · intro x y same
        rw [same.name]
      · intro x y _ same
        exact same
    rw [List.findSome?_cons, List.findSome?_cons]
    generalize scope.find? (·.name == name) = x at found
    generalize scope'.find? (·.name == name) = y at found
    cases found with
    | none => exact ih
    | some same => exact .some same

theorem Same.run {e f : ScopeEvent} (h : r.Same P q) (same : e.Same P f) :
    (r.run e).Same P (q.run f) := by
  cases same with
  | enter => exact ⟨h.nextId, .cons .nil h.scopes, h.occurrences⟩
  | leave =>
    have outer := List.forall₂_drop 1 h.scopes
    rw [List.drop_one, List.drop_one] at outer
    exact ⟨h.nextId, outer, h.occurrences⟩
  | declare name type type' offset offset' =>
    obtain ⟨nextId, scopes, occurrences, _, _⟩ := r
    obtain ⟨nextId', scopes', occurrences', _, _⟩ := q
    obtain ⟨next, inner, found⟩ := h
    cases inner with
    | nil => exact ⟨next, .nil, found⟩
    | cons own outer =>
      exact ⟨congrArg (· + 1) next, .cons (.cons ⟨next, rfl⟩ own) outer, found⟩
  | mention name paired =>
    have denoted := h.lookup? name
    rw [Resolution.run, Resolution.run]
    generalize r.lookup? name = x at denoted
    generalize q.lookup? name = y at denoted
    cases denoted with
    | none => exact ⟨h.nextId, h.scopes, h.occurrences⟩
    | some same => exact ⟨h.nextId, h.scopes, .cons ⟨paired, same⟩ h.occurrences⟩

theorem alike_numberedFrom (names : parameters.map Prod.fst = parameters'.map Prod.fst) (first : Nat) :
    List.Forall₂ Binding.Alike (numberedFrom first parameters) (numberedFrom first parameters') := by
  induction parameters generalizing parameters' first with
  | nil =>
    rw [List.map_nil, eq_comm, List.map_eq_nil_iff] at names
    rw [names]
    exact .nil
  | cons p ps ih =>
    cases parameters' with
    | nil => cases names
    | cons p' ps' =>
      rw [List.map_cons, List.map_cons, List.cons.injEq] at names
      exact .cons ⟨rfl, names.1⟩ (ih names.2 (first + 1))

theorem same_start (names : parameters.map Prod.fst = parameters'.map Prod.fst) :
    (start parameters).Same P (start parameters') := by
  have bindings := alike_numberedFrom names 1
  rw [← parameterBindings_eq, ← parameterBindings_eq] at bindings
  constructor
  · exact congrArg (· + 1) bindings.length_eq
  · exact .cons (List.forall₂_reverse_iff.2 bindings) .nil
  · exact .nil

theorem same_foldl (h : r.Same P q) (events : List.Forall₂ (ScopeEvent.Same P) E E') :
    (E.foldl Resolution.run r).Same P (E'.foldl Resolution.run q) := by
  induction events generalizing r q with
  | nil => exact h
  | cons first _ ih => exact ih (h.run first)

/-- Two offsets have the same paired names before them. -/
def Level (P : Nat → Nat → Prop) (x y : Nat) : Prop :=
  ∀ o o', P o o' → (o < x ↔ o' < y)

theorem Same.referencesIn {start start' stop stop' : Nat} (h : r.Same P q)
    (first : Level P start start') (last : Level P stop stop') :
    r.referencesIn start stop = q.referencesIn start' stop' := by
  have found : List.Forall₂ (· = ·)
      ((r.occurrences.filter fun o => start ≤ o.offset && o.offset < stop).map (·.binding.id))
      ((q.occurrences.filter fun o => start' ≤ o.offset && o.offset < stop').map
        (·.binding.id)) := by
    rw [List.forall₂_map_left_iff, List.forall₂_map_right_iff]
    apply (forall₂_filter h.occurrences _).imp
    · exact fun _ _ both => both.2.2.id
    · rintro o o' ⟨paired, _⟩
      have low := first _ _ paired
      have high := last _ _ paired
      rw [Bool.eq_iff_iff, Bool.and_eq_true, Bool.and_eq_true, decide_eq_true_eq, decide_eq_true_eq,
        decide_eq_true_eq, decide_eq_true_eq]
      omega
  rw [List.forall₂_eq_eq_eq] at found
  rw [Resolution.referencesIn, Resolution.referencesIn, found]

theorem Same.bindingAt? {x y : Nat} (h : r.Same P q) (same : ∀ o o', P o o' → (o = x ↔ o' = y)) :
    Option.Rel Binding.Alike (r.bindingAt? x) (q.bindingAt? y) := by
  have found : Option.Rel (fun o o' => o.binding.Alike o'.binding)
      (r.occurrences.find? (·.offset == x)) (q.occurrences.find? (·.offset == y)) := by
    apply rel_find? h.occurrences
    · rintro o o' ⟨paired, _⟩
      rw [Bool.eq_iff_iff, beq_iff_eq, beq_iff_eq]
      exact same _ _ paired
    · rintro o o' _ ⟨_, alike⟩
      exact alike
  rw [Resolution.bindingAt?, Resolution.bindingAt?]
  generalize r.occurrences.find? (·.offset == x) = o at found
  generalize q.occurrences.find? (·.offset == y) = o' at found
  cases found with
  | none => exact .none
  | some alike => exact .some alike

end Resolution

/-! ### Where nodes stand among the names -/

/-- The offsets at which a walk over a node mentions names. -/
def mentionsOf (s : Source) (n : Node) : List Nat :=
  mentionedAt (scopeEvents s n)

/-- A node of a longer walk, with the names mentioned before and after the walk over the node. -/
structure Stands (s : Source) (os front : List Nat) (n : Node) (back : List Nat) : Prop where
  split : os = front ++ (mentionsOf s n ++ back)
  before : ∀ o ∈ front, o < n.start
  after : ∀ o ∈ back, n.stop ≤ o

/-- Nodes side by side in a longer walk, with the names mentioned before and after them. -/
structure Around (text : List Char) (s : Source) (os front : List Nat) (ns : List Node)
    (back : List Nat) (lo hi : Nat) : Prop where
  split : os = front ++ (ns.flatMap (mentionsOf s) ++ back)
  placed : Placed (Solid text) lo ns hi
  belongs : ∀ c ∈ ns, c.Belongs text
  before : ∀ o ∈ front, o < lo
  after : ∀ o ∈ back, hi ≤ o

/-- Respelled nodes of two longer walks, before which as many names are mentioned. -/
structure Matched (text text' : List Char) (s t : Source) (os os' : List Nat) (a b : Node) :
    Prop where
  same : Respelled s t a b
  belongs : a.Belongs text
  belongs' : b.Belongs text'
  stands : ∃ front back front' back', Stands s os front a back ∧ Stands t os' front' b back' ∧
    front.length = front'.length

variable {n m : Node} {os os' front front' back back' : List Nat} {as bs ns : List Node}
  {lo hi lo' hi' : Nat}

theorem bounds_of_mem_mentionsOf (h : n.Belongs text) {o : Nat} (ho : o ∈ mentionsOf s n) :
    n.start ≤ o ∧ o < n.stop := by
  obtain ⟨_, he⟩ := mem_mentionedAt.1 ho
  exact bounds_of_mem_scopeEvents h he rfl

theorem length_mentionsOf (same : Respelled s t a b) (ha : a.Belongs text) (hb : b.Belongs text') :
    (mentionsOf s a).length = (mentionsOf t b).length :=
  (paired_of_sameEvents (sameEvents_of_respelled same ha hb)).2

/-- Paired names stand before, in, or after nodes that are matched. -/
theorem Matched.cases (h : Matched text text' s t os os' a b) {o o' : Nat}
    (paired : Paired os os' o o') :
    (o < a.start ∧ o' < b.start) ∨
      Paired (mentionsOf s a) (mentionsOf t b) o o' ∨ a.stop ≤ o ∧ b.stop ≤ o' := by
  obtain ⟨front, back, front', back', stands, stands', length⟩ := h.stands
  have lengths := length_mentionsOf h.same h.belongs h.belongs'
  rw [Paired, stands.split, stands'.split, List.zip_append length, List.zip_append lengths] at paired
  rcases List.mem_append.1 paired with first | rest
  · obtain ⟨mem, mem'⟩ := List.of_mem_zip first
    exact Or.inl ⟨stands.before o mem, stands'.before o' mem'⟩
  · rcases List.mem_append.1 rest with own | last
    · exact Or.inr (Or.inl own)
    · obtain ⟨mem, mem'⟩ := List.of_mem_zip last
      exact Or.inr (Or.inr ⟨stands.after o mem, stands'.after o' mem'⟩)

theorem Matched.levels (h : Matched text text' s t os os' a b) :
    Resolution.Level (Paired os os') a.start b.start ∧
      Resolution.Level (Paired os os') a.stop b.stop := by
  have wide := h.belongs.spans.wide
  have wide' := h.belongs'.spans.wide
  constructor <;>
  · intro o o' paired
    rcases h.cases paired with before | own | after
    · omega
    · obtain ⟨mem, mem'⟩ := List.of_mem_zip own
      have bounds := bounds_of_mem_mentionsOf h.belongs mem
      have bounds' := bounds_of_mem_mentionsOf h.belongs' mem'
      omega
    · omega

/-- The first of some nodes side by side, and the nodes after it. -/
theorem Around.cons (h : Around text s os front (n :: ns) back lo hi) :
    Stands s os front n (ns.flatMap (mentionsOf s) ++ back) ∧
      Around text s os (front ++ mentionsOf s n) ns back n.stop hi := by
  obtain ⟨split, placed, belongs, before, after⟩ := h
  have own := belongs n List.mem_cons_self
  have others : ∀ c ∈ ns, c.Belongs text := fun c hc => belongs c (List.mem_cons_of_mem _ hc)
  rw [List.flatMap_cons] at split
  cases placed with
  | cons low inside covers rest =>
    have wide := own.spans.wide
    have order := rest.le
    constructor
    · constructor
      · rw [split, List.append_assoc]
      · intro o ho
        have := before o ho
        omega
      · intro o ho
        rcases List.mem_append.1 ho with later | last
        · obtain ⟨c, hc, inC⟩ := List.mem_flatMap.1 later
          have bounds := bounds_of_mem_mentionsOf (others c hc) inC
          have follows := (rest.of_mem hc).1
          omega
        · have := after o last
          omega
    · constructor
      · rw [split, List.append_assoc, List.append_assoc]
      · exact rest
      · exact others
      · intro o ho
        rcases List.mem_append.1 ho with earlier | here
        · have := before o earlier
          omega
        · exact (bounds_of_mem_mentionsOf own here).2
      · exact after

/-- Respelled nodes side by side are matched if as many names are mentioned before them. -/
theorem matched_all (same : List.Forall₂ (Respelled s t) as bs)
    (around : Around text s os front as back lo hi)
    (around' : Around text' t os' front' bs back' lo' hi')
    (length : front.length = front'.length) :
    List.Forall₂ (Matched text text' s t os os') as bs := by
  induction same generalizing front front' lo lo' with
  | nil => exact .nil
  | @cons a b as bs first _ ih =>
    obtain ⟨stands, rest⟩ := around.cons
    obtain ⟨stands', rest'⟩ := around'.cons
    have belongs := around.belongs a List.mem_cons_self
    have belongs' := around'.belongs b List.mem_cons_self
    apply List.Forall₂.cons
    · exact ⟨first, belongs, belongs', _, _, _, _, stands, stands', length⟩
    · apply ih rest rest'
      rw [List.length_append, List.length_append, length, length_mentionsOf first belongs belongs']

/-- A walk over a block or an `if` mentions what the walks over the nodes inside mention. -/
theorem mentionsOf_eq (is : n.is .block = true ∨ n.is .ifStatement = true) :
    mentionsOf s n = n.children.flatMap (mentionsOf s) := by
  have label : n.label = .kind .block ∨ n.label = .kind .ifStatement := is.imp eq_of_beq eq_of_beq
  have other : n.is .identifier = false := by
    rcases label with label | label <;>
    · rw [Node.is, label]
      rfl
  have visits : visited (steps s n) = n.namedChildren := by
    rcases is with is | is
    · rw [steps_of_block is]
      simp
    · rw [steps_of_ifStatement is]
      simp
  rw [mentionsOf, scopeEvents_eq, mentionedAt_eventsOf fun _ _ => mention_notMem_steps other, visits,
    Node.namedChildren]
  induction n.children with
  | nil => rfl
  | cons c cs ih =>
    rw [List.filter_cons, List.flatMap_cons, ← ih]
    cases named : c.isNamed with
    | true => rfl
    | false =>
      have silent : mentionsOf s c = [] := by
        rw [Node.isNamed] at named
        rw [mentionsOf, scopeEvents_eq, steps]
        split at named
        · cases named
        · rename_i token
          rw [token]
          rfl
      rw [silent]
      rfl

theorem Stands.inside (h : Stands s os front n back) (belongs : n.Belongs text)
    (is : n.is .block = true ∨ n.is .ifStatement = true) :
    Around text s os front n.children back n.start n.stop where
  split := mentionsOf_eq (s := s) is ▸ h.split
  placed := belongs.placed
  belongs _ hc := belongs.child hc
  before := h.before
  after := h.after

/-- The nodes in matched blocks and matched `if`s are matched. -/
theorem Matched.inside (h : Matched text text' s t os os' a b)
    (is : a.is .block = true ∨ a.is .ifStatement = true) :
    List.Forall₂ (Matched text text' s t os os') a.children b.children := by
  obtain ⟨front, back, front', back', stands, stands', length⟩ := h.stands
  have kept : Kept s t a b :=
    is.elim (fun is => h.same.kept_of_is is (by decide)) fun is => h.same.kept_of_is is (by decide)
  have is' : b.is .block = true ∨ b.is .ifStatement = true := by
    rw [← h.same.is, ← h.same.is]
    exact is
  exact matched_all kept.inside (stands.inside h.belongs is) (stands'.inside h.belongs' is') length

/-! ### Guards -/

variable {r q : Resolution} {c operand : Node} {check : NullCheck}

theorem guardTest?_of_nullTest (is : n.is .ifStatement = true) (child : n.child? .condition = some c)
    (test : nullTest? c = some (operand, check)) (name : operand.is .identifier = true) :
    guardTest? r n = (r.bindingAt? operand.start).map (·, check) := by
  cases denoted : r.bindingAt? operand.start <;> simp [guardTest?, is, child, test, name, denoted]

theorem guardTest?_eq_none
    (untested : ∀ c, n.child? .condition = some c → conditionTest? s c = none) :
    guardTest? r n = none := by
  cases guard : guardTest? r n with
  | none => rfl
  | some test =>
    obtain ⟨c, operand, _, child, nullTest, name, _⟩ := exists_of_guardTest guard
    have role : (c.role == some .condition) = true := beq_iff_eq.2 (Node.role_of_child? child)
    have none := untested c child
    simp [conditionTest?, role, nullTest, name] at none

/-- Matched conditions that test a name mention it and nothing else. -/
theorem Matched.tested (h : Matched text text' s t os os' a b) {test : String × NullCheck}
    (found : conditionTest? s a = some test) (found' : conditionTest? t b = some test) :
    ∃ operand operand', nullTest? a = some (operand, test.2) ∧ operand.is .identifier = true ∧
      nullTest? b = some (operand', test.2) ∧ operand'.is .identifier = true ∧
      ∀ o o', Paired os os' o o' → (o = operand.start ↔ o' = operand'.start) := by
  obtain ⟨_, operand, nullTest, name, _⟩ := exists_of_conditionTest? found
  obtain ⟨_, operand', nullTest', name', _⟩ := exists_of_conditionTest? found'
  have only : mentionsOf s a = [operand.start] := by
    rw [mentionsOf, scopeEvents_of_nullTest h.belongs nullTest name]
    rfl
  have only' : mentionsOf t b = [operand'.start] := by
    rw [mentionsOf, scopeEvents_of_nullTest h.belongs' nullTest' name']
    rfl
  have bounds := bounds_of_mem_mentionsOf h.belongs (only ▸ List.mem_singleton_self _)
  have bounds' := bounds_of_mem_mentionsOf h.belongs' (only' ▸ List.mem_singleton_self _)
  refine ⟨operand, operand', nullTest, name, nullTest', name', ?_⟩
  intro o o' paired
  rcases h.cases paired with before | own | after
  · omega
  · rw [Paired, only, only'] at own
    cases List.mem_singleton.1 own
    exact iff_of_true rfl rfl
  · omega

/-- Matched nodes are guards with the same test. -/
theorem Matched.guardTest? (h : Matched text text' s t os os' a b)
    (same : r.Same (Paired os os') q) :
    Option.Rel (fun x y => x.1.Alike y.1 ∧ x.2 = y.2) (Callback.guardTest? r a)
      (Callback.guardTest? q b) := by
  cases is : a.is .ifStatement with
  | false =>
    have is' : b.is .ifStatement = false := h.same.is _ ▸ is
    rw [guardTest?_of_not_ifStatement is, guardTest?_of_not_ifStatement is']
    exact .none
  | true =>
    have is' : b.is .ifStatement = true := h.same.is _ ▸ is
    have found : Option.Rel (Matched text text' s t os os') (a.child? .condition)
        (b.child? .condition) := by
      apply rel_find? (h.inside (Or.inr is))
      · intro c d matched
        rw [matched.same.role]
      · intro c d _ matched
        exact matched
    generalize child : a.child? .condition = x at found
    generalize child' : b.child? .condition = y at found
    cases found with
    | none =>
      have none := guardTest?_eq_none (s := s) (r := r) (n := a) (by simp [child])
      have none' := guardTest?_eq_none (s := t) (r := q) (n := b) (by simp [child'])
      rw [none, none']
      exact .none
    | some matched =>
      rcases matched.same.cases with ⟨test, tested, tested'⟩ | kept
      · obtain ⟨operand, operand', nullTest, name, nullTest', name', offsets⟩ :=
          matched.tested tested tested'
        have denoted := same.bindingAt? offsets
        rw [guardTest?_of_nullTest is child nullTest name,
          guardTest?_of_nullTest is' child' nullTest' name']
        generalize r.bindingAt? operand.start = x at denoted
        generalize q.bindingAt? operand'.start = y at denoted
        cases denoted with
        | none => exact .none
        | some alike => exact .some ⟨alike, rfl⟩
      · have none := guardTest?_eq_none (s := s) (r := r) (n := a) (by simp [child, kept.noTest])
        have none' := guardTest?_eq_none (s := t) (r := q) (n := b) (by simp [child', kept.noTest])
        rw [none, none']
        exact .none

theorem Matched.isGuard (h : Matched text text' s t os os' a b) (same : r.Same (Paired os os') q) :
    Callback.isGuard r a = Callback.isGuard q b := by
  have tests := h.guardTest? same
  rw [Callback.isGuard, Callback.isGuard]
  generalize Callback.guardTest? r a = x at tests
  generalize Callback.guardTest? q b = y at tests
  cases tests <;> rfl

/-! ### Slots -/

/-- Slots of matched statements, before and in which the same names are mentioned. -/
structure Slot.Matched (text text' : List Char) (s t : Source) (os os' : List Nat) (a b : Slot) :
    Prop where
  start : Resolution.Level (Paired os os') a.start b.start
  stop : Resolution.Level (Paired os os') a.stop b.stop
  statement : Option.Rel (Callback.Matched text text' s t os os') a.statement b.statement

theorem Slot.Matched.isGuard {x y : Slot} (h : x.Matched text text' s t os os' y)
    (same : r.Same (Paired os os') q) : x.isGuard r = y.isGuard q := by
  have statements := h.statement
  rw [Slot.isGuard, Slot.isGuard]
  generalize x.statement = n at statements
  generalize y.statement = m at statements
  cases statements with
  | none => rfl
  | some matched => exact matched.isGuard same

variable {comments comments' : List Node}

theorem rel_head? {α β : Type} {R : α → β → Prop} {l : List α} {m : List β}
    (h : List.Forall₂ R l m) : Option.Rel R l.head? m.head? := by
  cases h with
  | nil => exact .none
  | cons first _ => exact .some first

theorem matched_commentSlots
    (h : List.Forall₂ (Matched text text' s t os os') comments comments') :
    List.Forall₂ (Slot.Matched text text' s t os os') (commentSlots comments)
      (commentSlots comments') := by
  have first := rel_head? h
  have last := rel_head? (List.forall₂_reverse_iff.2 h)
  rw [List.head?_reverse, List.head?_reverse] at last
  rw [commentSlots, commentSlots]
  generalize comments.head? = a at first
  generalize comments'.head? = b at first
  generalize comments.getLast? = c at last
  generalize comments'.getLast? = d at last
  cases first with
  | none => exact .nil
  | some first =>
    cases last with
    | none => exact .nil
    | some last => exact .cons ⟨first.levels.1, last.levels.2, .none⟩ .nil

theorem matched_statementSlot
    (h : List.Forall₂ (Matched text text' s t os os') comments comments')
    (own : Matched text text' s t os os' a b) :
    (statementSlot comments a).Matched text text' s t os os' (statementSlot comments' b) := by
  refine ⟨?_, own.levels.2, .some own⟩
  have first := rel_head? h
  rw [statementSlot, statementSlot]
  generalize comments.head? = c at first
  generalize comments'.head? = d at first
  cases first with
  | none => exact own.levels.1
  | some first => exact first.levels.1

/-- Matched blocks are cut into the same slots. -/
theorem matched_slotsFrom (same : r.Same (Paired os os') q) {row row' : Nat}
    {last last' : Option Slot}
    (opened : List.Forall₂ (Slot.Matched text text' s t os os') last.toList last'.toList)
    (waiting : List.Forall₂ (Matched text text' s t os os') comments comments')
    (inside : List.Forall₂ (Matched text text' s t os os') as bs)
    (rows : besideRows s (last.map fun _ => row) as = besideRows t (last'.map fun _ => row') bs) :
    List.Forall₂ (Slot.Matched text text' s t os os') (slotsFrom s r row last comments as)
      (slotsFrom t q row' last' comments' bs) := by
  induction inside generalizing row row' last last' comments comments' with
  | nil =>
    simp only [slotsFrom]
    exact List.rel_append opened (matched_commentSlots waiting)
  | @cons a b as bs own _ ih =>
    have longer : List.Forall₂ (Matched text text' s t os os') (comments ++ [a]) (comments' ++ [b]) :=
      List.rel_append waiting (.cons own .nil)
    have empty : comments.isEmpty = comments'.isEmpty := by cases waiting <;> rfl
    simp only [slotsFrom, besideRows, ← own.same.isComment] at rows ⊢
    split
    · rename_i comment
      simp only [comment, ↓reduceIte, List.cons.injEq] at rows
      cases last with
      | none =>
        cases last' with
        | some => cases opened
        | none => exact ih opened longer rows.2
      | some x =>
        cases last' with
        | none => cases opened
        | some y =>
          obtain ⟨matched, -⟩ := List.forall₂_cons.1 opened
          have beside : (s.row a.start == row) = (t.row b.start == row') := by
            have beside := rows.1
            simp only [Option.map_some, Option.some_beq_some] at beside
            rw [BEq.comm, beside, BEq.comm]
          simp only [empty, beside, matched.isGuard same]
          split
          · split
            · exact .cons matched (ih (.cons ⟨own.levels.1, own.levels.2, .none⟩ .nil) .nil rows.2)
            · exact ih (.cons ⟨matched.start, own.levels.2, matched.statement⟩ .nil) .nil rows.2
          · exact ih opened longer rows.2
    · rename_i statement
      simp only [statement, Bool.false_eq_true, ↓reduceIte] at rows
      refine List.rel_append opened ?_
      rw [own.isGuard same]
      split
      · exact List.rel_append (matched_commentSlots waiting)
          (ih (.cons (matched_statementSlot .nil own) .nil) .nil rows)
      · exact ih (.cons (matched_statementSlot waiting own) .nil) .nil rows

theorem matched_slotsOf (same : r.Same (Paired os os') q) (is : a.is .block = true)
    (h : Matched text text' s t os os' a b) :
    List.Forall₂ (Slot.Matched text text' s t os os') (slotsOf s r a) (slotsOf t q b) := by
  have named : List.Forall₂ (Matched text text' s t os os') a.namedChildren b.namedChildren := by
    apply (forall₂_filter (h.inside (Or.inl is)) _).imp
    · exact fun _ _ both => both.2
    · intro c d matched
      exact matched.same.isNamed
  exact matched_slotsFrom same .nil .nil named (h.same.kept_of_is is (by decide)).rows

theorem matched_branchSlots (same : r.Same (Paired os os') q) (is : a.is .ifStatement = true)
    (h : Matched text text' s t os os' a b) (part : Java.Role) :
    List.Forall₂ (Slot.Matched text text' s t os os') (branchSlots s r a part)
      (branchSlots t q b part) := by
  have found : Option.Rel (Matched text text' s t os os') (a.child? part) (b.child? part) := by
    apply rel_find? (h.inside (Or.inr is))
    · intro c d matched
      rw [matched.same.role]
    · intro c d _ matched
      exact matched
  rw [branchSlots, branchSlots]
  generalize a.child? part = x at found
  generalize b.child? part = y at found
  cases found with
  | none => exact .nil
  | @some c d matched =>
    dsimp only
    rw [← matched.same.is]
    split
    · rename_i block
      exact matched_slotsOf same block matched
    · exact .cons (matched_statementSlot .nil matched) .nil

/-! ### Statements -/

variable {x y : Slot}

theorem alike_statementAt (same : r.Same (Paired os os') q) (h : x.Matched text text' s t os os' y)
    {g g' : Option Guard} (guards : Option.Rel Guard.Alike g g') :
    (statementAt s r x.start x.stop g).Alike (statementAt t q y.start y.stop g') := by
  refine ⟨?_, same.referencesIn h.start h.stop, guards⟩
  cases guards <;> rfl

/-- Slots of matched statements give the same entries: a guard is taken apart in the same way. -/
theorem related_entryOf (same : r.Same (Paired os os') q) (h : x.Matched text text' s t os os' y) :
    Entry.Related Statement.Alike s r t q (entryOf s r x) (entryOf t q y) := by
  generalize size : sizeOf x.statement = k
  induction k using Nat.strongRecOn generalizing x y with
  | ind k ih =>
    have statements := h.statement
    rcases entryOf_cases r x with plain | ⟨n, subject, check, hn, test⟩
    · have plain' : ∀ m, y.statement = some m → guardTest? q m = none := by
        intro m hm
        rw [hm] at statements
        generalize found : x.statement = n at statements
        cases statements with
        | some matched =>
          have tests := matched.guardTest? same
          rw [plain _ found] at tests
          generalize guardTest? q m = made at tests
          cases tests
          rfl
      rw [entryOf_plain plain, entryOf_plain plain']
      exact related_plain (alike_statementAt same h .none)
    · rw [hn] at statements
      generalize found : y.statement = m at statements
      cases statements with
      | @some _ m matched =>
        have isTest := isIfStatement_of_guardTest test
        have tests := matched.guardTest? same
        rw [test] at tests
        generalize test' : guardTest? q m = made at tests
        cases tests with
        | @some _ made alike =>
          obtain ⟨subject', check'⟩ := made
          have branch (part : Java.Role) :
              List.Forall₂ (Entry.Related Statement.Alike s r t q)
                ((branchSlots s r n part).map (entryOf s r))
                ((branchSlots t q m part).map (entryOf t q)) := by
            rw [List.forall₂_map_left_iff, List.forall₂_map_right_iff]
            apply (forall₂_mem (matched_branchSlots same isTest matched part)).imp
            rintro c d ⟨hc, _, slots⟩
            obtain ⟨_, _, smaller⟩ := branchSlots_spans matched.belongs hc
            exact ih _ (by rw [← size, hn]; exact smaller) slots rfl
          rw [entryOf_guard hn test, entryOf_guard found test']
          apply related_guard _ (branch _) (branch _)
          intro first second
          exact alike_statementAt same h (.some ⟨alike.1.id, alike.2, rfl, rfl⟩)

/-! ### Callbacks -/

section

variable {parameters parameters' : List (String × Option String)}

/-- A respelled block stands at the same place in itself. -/
theorem matched_self (h : Respelled s t a b) (belongs : a.Belongs text) (belongs' : b.Belongs text') :
    Matched text text' s t (mentionsOf s a) (mentionsOf t b) a b := by
  refine ⟨h, belongs, belongs', [], [], [], [], ?_, ?_, rfl⟩ <;>
  · constructor
    · simp
    · simp
    · simp

theorem same_ofBody (h : Respelled s t a b) (belongs : a.Belongs text) (belongs' : b.Belongs text')
    (names : parameters.map Prod.fst = parameters'.map Prod.fst) :
    (Resolution.ofBody s parameters a).Same (Paired (mentionsOf s a) (mentionsOf t b))
      (Resolution.ofBody t parameters' b) := by
  have events := paired_of_sameEvents (sameEvents_of_respelled h belongs belongs')
  exact Resolution.same_foldl (Resolution.same_start names) events.1

/-- Respelled blocks with parameters of the same names have entries with the same statements. -/
theorem related_entriesOf (h : Respelled s t a b) (is : a.is .block = true)
    (belongs : a.Belongs text) (belongs' : b.Belongs text')
    (names : parameters.map Prod.fst = parameters'.map Prod.fst) :
    List.Forall₂ (Entry.Related Statement.Alike s (Resolution.ofBody s parameters a) t
        (Resolution.ofBody t parameters' b))
      (entriesOf s (Resolution.ofBody s parameters a) a)
      (entriesOf t (Resolution.ofBody t parameters' b) b) := by
  have same := same_ofBody h belongs belongs' names
  have slots := matched_slotsOf same is (matched_self h belongs belongs')
  rw [entriesOf, entriesOf, List.forall₂_map_left_iff, List.forall₂_map_right_iff]
  exact slots.imp fun _ _ matched => related_entryOf same matched

end

end MonoTap.Callback

namespace MonoTap

open Java (CompilationUnit Node)

/-- An `if` in the block of a callback is recognised as a guard if it tests a binding against `null`,
whatever parentheses, comments and order of operands the test is spelled with, and the subject and the
check are those of the test. Among the statements that the block is cut into, the guards are the `if`s
that make such a test. Callbacks that differ in the spelling of such tests only have the same guards and
the same buckets. -/
theorem guards_by_meaning (text file : String) :
    let u := CompilationUnit.ofString text
    u.hasSyntaxErrors = false → ∀ call parameters block site,
      IsSite u file call parameters block site →
      (∀ n ∈ block.preorder, n.is .ifStatement = true → ∀ subject check,
        Callback.guardTest? (scopeOf u parameters block) n = some (subject, check) ↔
          Callback.Tests u.source parameters block n subject check) ∧
      (∀ n, Callback.Listed (scopeOf u parameters block) block n → n.is .ifStatement = true →
        ∀ subject check, (∃ st ∈ site.arena.statements, st.Guards n subject check) ↔
          Callback.Tests u.source parameters block n subject check) ∧
      (∀ st ∈ site.arena.statements, st.kind = .guard → ∃ n subject check,
        Callback.Listed (scopeOf u parameters block) block n ∧ n.is .ifStatement = true ∧
          st.Guards n subject check) ∧
      ∀ text' file', let v := CompilationUnit.ofString text'
        v.hasSyntaxErrors = false → ∀ call' parameters' block' site',
          IsSite v file' call' parameters' block' site' →
          parameters.map Prod.fst = parameters'.map Prod.fst →
          Callback.respells u.source v.source block block' = true →
          site.body = site'.body ∧
            List.Forall₂ Callback.Statement.Alike site.arena.statements site'.arena.statements ∧
            Callback.classify site.parameters site.arena site.body =
              Callback.classify site'.parameters site'.arena site'.body := by
  intro u clean call parameters block site isSite
  have belongs : block.Belongs text.toList := isSite.belongs clean
  have isBlock := (callbackParts_eq_ok isSite.parts).2
  have recognised {n : Node} (hn : n ∈ block.preorder) (is : n.is .ifStatement = true)
      (subject : Callback.Binding) (check : Callback.NullCheck) :
      Callback.guardTest? (scopeOf u parameters block) n = some (subject, check) ↔
        Callback.Tests u.source parameters block n subject check :=
    Callback.guardTest_iff_tests belongs hn is
  refine ⟨fun n hn is => recognised hn is, ?_, ?_, ?_⟩
  · intro n listed is subject check
    rw [← recognised listed.mem_preorder is, isSite.same]
    exact listed.guards_iff belongs is
  · intro st hst kind
    rw [isSite.same] at hst
    obtain ⟨n, subject, check, listed, test, guards⟩ :=
      Callback.exists_listed_of_mem belongs hst kind
    exact ⟨n, subject, check, listed, Callback.isIfStatement_of_guardTest test, guards⟩
  · intro text' file' v clean' call' parameters' block' site' isSite' names respelled
    have belongs' : block'.Belongs text'.toList := isSite'.belongs clean'
    have entries := Callback.related_entriesOf respelled isBlock belongs belongs' names
    have body : site.body = site'.body := by
      rw [isSite.same, isSite'.same]
      exact (Callback.positionsFrom_related entries 0).symm
    have statements : List.Forall₂ Callback.Statement.Alike site.arena.statements
        site'.arena.statements := by
      rw [isSite.same, isSite'.same]
      exact Callback.statementsFrom_related entries 0
    have params : site.parameters.Alike site'.parameters := by
      rw [isSite.same, isSite'.same]
      exact ⟨(id_parameterAt parameters 0).trans (id_parameterAt parameters' 0).symm,
        (id_parameterAt parameters 1).trans (id_parameterAt parameters' 1).symm⟩
    refine ⟨body, statements, ?_⟩
    rw [body]
    exact Callback.classify_alike statements params site'.body

/-- A callback with a guard. -/
def plainTestText : String :=
  "import reactor.core.publisher.*;class C\x7b\x7bm.doAfterSuccessOrError((v,e)->" ++
    "\x7bif(v!=null)\x7bg(v);\x7delse h(e);\x7d);\x7d\x7d"

/-- The same callback, with the test turned round and in more parentheses, with comments in them. -/
def respelledTestText : String :=
  "import reactor.core.publisher.*;class C\x7b\x7bm.doAfterSuccessOrError((v,e)->" ++
    "\x7bif((/*a*/(null!=((/*b*/v)))))\x7bg(v);\x7delse h(e);\x7d);\x7d\x7d"

set_option maxRecDepth 100000 in
theorem read_respelledTestText :
    let u := CompilationUnit.ofString plainTestText
    let v := CompilationUnit.ofString respelledTestText
    (u.hasSyntaxErrors = false ∧ v.hasSyntaxErrors = false) ∧
      ((eligibleCalls u).any fun call =>
        (callbackParts u.source (callbackOf call.node)).toOption.any fun parts =>
          (parts.2.preorder.any fun n => n.is .ifStatement &&
            Callback.isGuard (scopeOf u parts.1 parts.2) n) &&
          (eligibleCalls v).any fun call' =>
            (callbackParts v.source (callbackOf call'.node)).toOption.any fun parts' =>
              parts.1.map Prod.fst == parts'.1.map Prod.fst &&
                Callback.respells u.source v.source parts.2 parts'.2) = true := by
  rw [CompilationUnit.ofString_eq_ofCharsOf, CompilationUnit.ofString_eq_ofCharsOf]
  decide +kernel

theorem exists_of_toOption_any {source : Text.Source} {callback : Node}
    {p : List (String × Option String) × Node → Bool}
    (h : (callbackParts source callback).toOption.any p = true) :
    ∃ parameters block, callbackParts source callback = .ok (parameters, block) ∧
      p (parameters, block) = true := by
  cases parts : callbackParts source callback with
  | error reason =>
    rw [parts] at h
    cases h
  | ok pair =>
    rw [parts] at h
    exact ⟨pair.1, pair.2, rfl, h⟩

theorem guards_by_meaning_of_respelled :
    let u := CompilationUnit.ofString plainTestText
    let v := CompilationUnit.ofString respelledTestText
    (u.hasSyntaxErrors = false ∧ v.hasSyntaxErrors = false) ∧
      ∃ call parameters block site call' parameters' block' site',
        IsSite u "C.java" call parameters block site ∧
        IsSite v "C.java" call' parameters' block' site' ∧
        parameters.map Prod.fst = parameters'.map Prod.fst ∧
        Callback.respells u.source v.source block block' = true ∧
        (∃ n ∈ block.preorder, n.is .ifStatement = true ∧
          ∃ subject check, Callback.Tests u.source parameters block n subject check) ∧
        site.body = site'.body ∧
        List.Forall₂ Callback.Statement.Alike site.arena.statements site'.arena.statements ∧
        Callback.classify site.parameters site.arena site.body =
          Callback.classify site'.parameters site'.arena site'.body := by
  intro u v
  obtain ⟨clean, found⟩ := read_respelledTestText
  obtain ⟨call, eligible, found⟩ := List.any_eq_true.1 found
  obtain ⟨parameters, block, parts, found⟩ := exists_of_toOption_any found
  rw [Bool.and_eq_true] at found
  obtain ⟨guarded, found⟩ := found
  obtain ⟨call', eligible', found⟩ := List.any_eq_true.1 found
  obtain ⟨parameters', block', parts', found⟩ := exists_of_toOption_any found
  rw [Bool.and_eq_true, beq_iff_eq] at found
  obtain ⟨names, respelled⟩ := found
  obtain ⟨n, hn, guarded⟩ := List.any_eq_true.1 guarded
  rw [Bool.and_eq_true] at guarded
  obtain ⟨is, guard⟩ := guarded
  obtain ⟨⟨subject, check⟩, test⟩ := Option.isSome_iff_exists.1 guard
  have isSite : IsSite u "C.java" call parameters block (siteOf u "C.java" call parameters block) :=
    ⟨eligible, parts, rfl⟩
  have isSite' : IsSite v "C.java" call' parameters' block'
      (siteOf v "C.java" call' parameters' block') :=
    ⟨eligible', parts', rfl⟩
  obtain ⟨recognised, _, _, same⟩ :=
    guards_by_meaning plainTestText "C.java" clean.1 call parameters block _ isSite
  have tests := (recognised n hn is subject check).1 test
  exact ⟨clean, call, parameters, block, _, call', parameters', block', _, isSite, isSite', names,
    respelled, ⟨n, hn, is, subject, check, tests⟩,
    same respelledTestText "C.java" clean.2 call' parameters' block' _ isSite' names respelled⟩

end MonoTap
