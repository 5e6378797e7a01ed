import MonoTap.Proofs.VisitOrder

/-!
# What a walk keeps

A walk opens and closes scopes in pairs, so that it leaves the scopes around it as they were. The
bindings it makes are numbered without gaps, and each name that it finds to denote a binding was
declared before in a scope that is still open. A name that denotes none is kept as free.
-/

set_option autoImplicit false

namespace MonoTap.Callback

open Java (Node)
open Text (Source)

variable {source : Source} {text : List Char} {n c m : Node} {events : List ScopeEvent}

/-! ### Nested scopes -/

/-- Events in which every scope that is opened is closed again. -/
inductive Nested : List ScopeEvent → Prop
  | nil : Nested []
  | declare (name : String) (type : Option String) (offset : Nat) :
      Nested [.declare name type offset]
  | mention (name : String) (offset : Nat) : Nested [.mention name offset]
  | append {first second : List ScopeEvent} (before : Nested first) (after : Nested second) :
      Nested (first ++ second)
  | scope {inner : List ScopeEvent} (inside : Nested inner) : Nested (.enter :: inner ++ [.leave])

theorem nested_eventsOf {l : List Step} (h : Inside source n l)
    (deeper : ∀ c, .visit c ∈ l → Nested (scopeEvents source c)) : Nested (eventsOf source l) := by
  induction h with
  | nil => exact .nil
  | declare type inside => exact .declare ..
  | mention inside is => exact .mention ..
  | @visit c inside =>
    rw [eventsOf_cons, eventsOf_nil, List.append_nil]
    exact deeper c List.mem_cons_self
  | append first second ihFirst ihSecond =>
    rw [eventsOf_append]
    apply Nested.append
    · exact ihFirst fun c hc => deeper c (List.mem_append_left _ hc)
    · exact ihSecond fun c hc => deeper c (List.mem_append_right _ hc)
  | inScope inner ih =>
    rw [eventsOf_inScope]
    apply Nested.scope
    apply ih
    intro c hc
    exact deeper c (List.mem_cons_of_mem _ (List.mem_append_left _ hc))

/-- The events of a walk are nested. -/
theorem nested_scopeEvents (source : Source) (n : Node) : Nested (scopeEvents source n) := by
  generalize hsize : sizeOf n = size
  induction size using Nat.strongRecOn generalizing n with
  | ind size ih =>
    rw [scopeEvents_eq]
    apply nested_eventsOf (inside_steps source n)
    intro c hc
    exact ih _ (hsize ▸ (inwards_steps source n).lt c hc) c rfl

/-- Events during which no scope is closed that was open before. -/
def StaysOpen (events : List ScopeEvent) : Prop :=
  ∀ front, front <+: events → front.count .leave ≤ front.count .enter

theorem staysOpen_nil : StaysOpen [] := by
  intro front h
  rw [List.prefix_nil.1 h]
  exact Nat.le_refl _

theorem StaysOpen.concat {e : ScopeEvent} (h : StaysOpen events)
    (last : (events ++ [e]).count .leave ≤ (events ++ [e]).count .enter) :
    StaysOpen (events ++ [e]) := by
  intro front prefixed
  rcases List.prefix_concat_iff.1 prefixed with rfl | shorter
  · exact last
  · exact h front shorter

/-! ### The stack of scopes -/

namespace Resolution

variable {r : Resolution} {parameters : List (String × Option String)}

/-- Nested events leave the scopes alone that are around the innermost one. -/
theorem scopes_foldl (h : Nested events) {inner : List Binding} {outer : List (List Binding)}
    (scopes : r.scopes = inner :: outer) :
    ∃ grown, (events.foldl run r).scopes = grown :: outer := by
  induction h generalizing r inner outer with
  | nil => exact ⟨inner, scopes⟩
  | declare name type offset =>
    rw [List.foldl_cons, List.foldl_nil, run, scopes]
    exact ⟨_, rfl⟩
  | mention name offset =>
    rw [List.foldl_cons, List.foldl_nil, run]
    split <;> exact ⟨inner, scopes⟩
  | append before after ihBefore ihAfter =>
    obtain ⟨grown, later⟩ := ihBefore scopes
    rw [List.foldl_append]
    exact ihAfter later
  | @scope events inside ih =>
    have opened : (r.run .enter).scopes = [] :: inner :: outer := by rw [run, scopes]
    obtain ⟨grown, later⟩ := ih opened
    refine ⟨inner, ?_⟩
    rw [List.foldl_append]
    show (events.foldl run (r.run .enter)).scopes.tail = _
    rw [later]
    rfl

/-- A walk with parameters of its own leaves the scopes as they were before. -/
theorem scopes_leave (h : Nested events) {own : List Binding} {outer : List (List Binding)}
    (scopes : r.scopes = own :: outer) : ((events.foldl run r).run .leave).scopes = outer := by
  obtain ⟨grown, later⟩ := scopes_foldl h scopes
  show (events.foldl run r).scopes.tail = outer
  rw [later]
  rfl

theorem scopes_foldl_ne_nil (h : Nested events) (opened : r.scopes ≠ []) :
    (events.foldl run r).scopes ≠ [] := by
  obtain ⟨inner, outer, scopes⟩ := List.exists_cons_of_ne_nil opened
  obtain ⟨grown, later⟩ := scopes_foldl h scopes
  rw [later]
  exact List.cons_ne_nil _ _

/-! ### The numbers of bindings -/

/-- The bindings that some events make, run from a state, in order: after each declaration the latest
one in the innermost scope. -/
def made (r : Resolution) : List ScopeEvent → List Binding
  | [] => []
  | .declare name type offset :: events =>
    let next := r.run (.declare name type offset)
    (next.scopes.head?.bind List.head?).toList ++ next.made events
  | e :: events => (r.run e).made events

theorem made_append (r : Resolution) (first second : List ScopeEvent) :
    r.made (first ++ second) = r.made first ++ (first.foldl run r).made second := by
  induction first generalizing r with
  | nil => rfl
  | cons e first ih =>
    cases e with
    | declare name type offset =>
      rw [List.cons_append, made, made, ih, List.append_assoc]
      rfl
    | enter | leave | mention => exact ih _

end Resolution

/-- The names that some events declare, with their types, in order. -/
def declarationsOf (events : List ScopeEvent) : List (String × Option String) :=
  events.filterMap fun
    | .declare name type _ => some (name, type)
    | _ => none

theorem declarationsOf_append (first second : List ScopeEvent) :
    declarationsOf (first ++ second) = declarationsOf first ++ declarationsOf second :=
  List.filterMap_append

namespace Resolution

variable {r : Resolution} {parameters : List (String × Option String)}

/-- Names with their types as bindings, numbered from a number on. -/
def numberedFrom (first : Nat) (names : List (String × Option String)) : List Binding :=
  (names.zipIdx first).map fun ((name, type), i) => ⟨i, name, type⟩

theorem numberedFrom_append (first : Nat) (names more : List (String × Option String)) :
    numberedFrom first (names ++ more) =
      numberedFrom first names ++ numberedFrom (first + names.length) more := by
  rw [numberedFrom, List.zipIdx_append, List.map_append]
  rfl

theorem map_id_numberedFrom (first : Nat) (names : List (String × Option String)) :
    (numberedFrom first names).map Binding.id = List.range' first names.length := by
  rw [numberedFrom, List.map_map, ← List.zipIdx_map_snd first names]
  rfl

theorem parameterBindings_eq : parameterBindings parameters = numberedFrom 1 parameters := by
  rw [parameterBindings, numberedFrom, List.zipIdx_eq_map_add (i := 1), List.map_map]
  apply List.map_congr_left
  rintro ⟨p, i⟩ _
  simp [Nat.add_comm]

/-- The bindings that nested events make are numbered one after the other. -/
theorem made_eq (h : Nested events) (opened : r.scopes ≠ []) :
    r.made events = numberedFrom r.nextId (declarationsOf events) ∧
      (events.foldl run r).nextId = r.nextId + (declarationsOf events).length := by
  induction h generalizing r with
  | nil => exact ⟨rfl, rfl⟩
  | declare name type offset =>
    obtain ⟨inner, outer, scopes⟩ := List.exists_cons_of_ne_nil opened
    have next : r.run (.declare name type offset) =
        { r with
          nextId := r.nextId + 1
          scopes := (⟨r.nextId, name, type⟩ :: inner) :: outer
          declaredNames := name :: r.declaredNames } := by
      rw [run, scopes]
    constructor
    · rw [made, next]
      rfl
    · rw [List.foldl_cons, next]
      rfl
  | mention name offset =>
    constructor
    · rfl
    · rw [List.foldl_cons, List.foldl_nil, run]
      split <;> rfl
  | append before after ihBefore ihAfter =>
    obtain ⟨made, next⟩ := ihBefore opened
    obtain ⟨madeAfter, nextAfter⟩ := ihAfter (scopes_foldl_ne_nil before opened)
    rw [made_append, List.foldl_append, declarationsOf_append, numberedFrom_append, made, madeAfter,
      nextAfter, next, List.length_append, Nat.add_assoc]
    exact ⟨rfl, rfl⟩
  | @scope events inside ih =>
    obtain ⟨made, next⟩ := @ih (r.run .enter) (List.cons_ne_nil _ _)
    have declared : declarationsOf (.enter :: events ++ [.leave]) = declarationsOf events := by
      rw [declarationsOf_append]
      exact List.append_nil _
    rw [declared, made_append, List.foldl_append]
    constructor
    · rw [← List.append_nil (numberedFrom _ _)]
      exact congrArg (· ++ []) made
    · exact next

end Resolution

/-! ### Scopes that are still open -/

/-- Events since which a scope is open that now lies at some depth below the innermost one. -/
structure OpenSince (between : List ScopeEvent) (depth : Nat) : Prop where
  stays : StaysOpen between
  count : between.count .enter = between.count .leave + depth

section

variable {between : List ScopeEvent} {depth : Nat} {parameters : List (String × Option String)}
  {b : Binding}

theorem openSince_nil : OpenSince [] 0 :=
  ⟨staysOpen_nil, rfl⟩

theorem OpenSince.concat {e : ScopeEvent} {deeper : Nat} (h : OpenSince between depth)
    (count : (between ++ [e]).count .enter = (between ++ [e]).count .leave + deeper) :
    OpenSince (between ++ [e]) deeper := by
  constructor
  · apply h.stays.concat
    omega
  · exact count

theorem OpenSince.enter (h : OpenSince between depth) :
    OpenSince (between ++ [.enter]) (depth + 1) := by
  apply h.concat
  have count := h.count
  simp only [List.count_append, List.count_singleton, beq_self_eq_true, ↓reduceIte,
    beq_iff_eq, reduceCtorEq]
  omega

theorem OpenSince.leave (h : OpenSince between (depth + 1)) :
    OpenSince (between ++ [.leave]) depth := by
  apply h.concat
  have count := h.count
  simp only [List.count_append, List.count_singleton, beq_self_eq_true, ↓reduceIte,
    beq_iff_eq, reduceCtorEq]
  omega

theorem OpenSince.other {e : ScopeEvent} (h : OpenSince between depth) (noEnter : e ≠ .enter)
    (noLeave : e ≠ .leave) : OpenSince (between ++ [e]) depth := by
  apply h.concat
  have count := h.count
  simp only [List.count_append, List.count_singleton, beq_iff_eq, noEnter, noLeave, ↓reduceIte]
  omega

/-- A binding that can be seen after some events of a walk, in a scope at some depth: a parameter of
the callback, or what one of the events declared, in a scope that is open since. -/
inductive Visible (parameters : List (String × Option String)) (events : List ScopeEvent)
    (depth : Nat) (b : Binding) : Prop
  | parameter (isParameter : b ∈ Resolution.parameterBindings parameters)
      (since : OpenSince events depth)
  | declared {before between : List ScopeEvent} {name : String} {type : Option String}
      {offset : Nat} (split : events = before ++ .declare name type offset :: between)
      (since : OpenSince between depth)
      (same : b = ⟨(before.foldl Resolution.run (.start parameters)).nextId, name, type⟩)

theorem Visible.concat {e : ScopeEvent} {deeper : Nat} (h : Visible parameters events depth b)
    (since : ∀ between, OpenSince between depth → OpenSince (between ++ [e]) deeper) :
    Visible parameters (events ++ [e]) deeper b := by
  cases h with
  | parameter isParameter opened => exact .parameter isParameter (since _ opened)
  | @declared before between name type offset split opened same =>
    have longer : events ++ [e] = before ++ .declare name type offset :: (between ++ [e]) := by
      rw [split, List.append_assoc]
      rfl
    exact .declared longer (since _ opened) same

namespace Resolution

theorem scopes_run_declare (r : Resolution) (name : String) (type : Option String) (offset : Nat) :
    (r.scopes = [] ∧ r.run (.declare name type offset) = r) ∨
      ∃ inner outer, r.scopes = inner :: outer ∧
        (r.run (.declare name type offset)).scopes = (⟨r.nextId, name, type⟩ :: inner) :: outer := by
  rw [run]
  cases scopes : r.scopes with
  | nil => exact Or.inl ⟨rfl, rfl⟩
  | cons inner outer => exact Or.inr ⟨inner, outer, rfl, rfl⟩

theorem scopes_run_mention (r : Resolution) (name : String) (offset : Nat) :
    (r.run (.mention name offset)).scopes = r.scopes := by
  rw [run]
  split <;> rfl

/-- What stands in the scopes during a walk can be seen. -/
theorem visible_of_mem_scopes {scope : List Binding}
    (h : (events.foldl run (start parameters)).scopes[depth]? = some scope) (hb : b ∈ scope) :
    Visible parameters events depth b := by
  induction events using List.reverseRecOn generalizing depth scope with
  | nil =>
    obtain ⟨rfl, rfl⟩ : depth = 0 ∧ scope = (parameterBindings parameters).reverse := by
      cases depth with
      | zero => exact ⟨rfl, (Option.some.inj h).symm⟩
      | succ depth => cases h
    exact .parameter (List.mem_reverse.1 hb) openSince_nil
  | append_singleton events e ih =>
    rw [List.foldl_append, List.foldl_cons, List.foldl_nil] at h
    cases e with
    | enter =>
      cases depth with
      | zero =>
        cases h
        cases hb
      | succ depth => exact (ih h hb).concat fun _ since => since.enter
    | leave =>
      rw [run, List.getElem?_tail] at h
      exact (ih h hb).concat fun _ since => since.leave
    | declare name type offset =>
      have other {scope : List Binding}
          (h : (events.foldl run (start parameters)).scopes[depth]? = some scope) (hb : b ∈ scope) :
          Visible parameters (events ++ [.declare name type offset]) depth b :=
        (ih h hb).concat fun _ since => since.other (by simp) (by simp)
      rcases scopes_run_declare (events.foldl run (start parameters)) name type offset with
        ⟨_, same⟩ | ⟨inner, outer, before, after⟩
      · exact other (same ▸ h) hb
      · rw [after] at h
        rw [before] at other
        cases depth with
        | zero =>
          cases h
          rcases List.mem_cons.1 hb with rfl | older
          · exact .declared rfl openSince_nil rfl
          · exact other rfl older
        | succ depth => exact other h hb
    | mention name offset =>
      rw [scopes_run_mention] at h
      exact (ih h hb).concat fun _ since => since.other (by simp) (by simp)

/-- A name that is found to denote a binding is mentioned where that binding is the one it denotes. -/
theorem exists_lookup_of_mem_occurrences {o : Occurrence}
    (h : o ∈ (events.foldl run (start parameters)).occurrences) :
    ∃ front back name, events = front ++ .mention name o.offset :: back ∧
      (front.foldl run (start parameters)).lookup? name = some o.binding := by
  induction events using List.reverseRecOn with
  | nil => cases h
  | append_singleton events e ih =>
    have earlier (h : o ∈ (events.foldl run (start parameters)).occurrences) :
        ∃ front back name, events ++ [e] = front ++ .mention name o.offset :: back ∧
          (front.foldl run (start parameters)).lookup? name = some o.binding := by
      obtain ⟨front, back, name, rfl, denoted⟩ := ih h
      refine ⟨front, back ++ [e], name, ?_, denoted⟩
      rw [List.append_assoc]
      rfl
    rw [List.foldl_append, List.foldl_cons, List.foldl_nil] at h
    cases e with
    | enter | leave => exact earlier h
    | declare name type offset =>
      rw [run] at h
      split at h <;> exact earlier h
    | mention name offset =>
      rw [run] at h
      split at h
      · rename_i b denoted
        rcases List.mem_cons.1 h with rfl | h
        · exact ⟨events, [], name, rfl, denoted⟩
        · exact earlier h
      · exact earlier h

/-- A name that is found to denote a binding is mentioned where that binding can be seen. -/
theorem exists_visible_of_mem_occurrences {o : Occurrence}
    (h : o ∈ (events.foldl run (start parameters)).occurrences) :
    ∃ front back, events = front ++ .mention o.binding.name o.offset :: back ∧
      ∃ depth, Visible parameters front depth o.binding := by
  obtain ⟨front, back, name, split, denoted⟩ := exists_lookup_of_mem_occurrences h
  obtain ⟨scope, hscope, hb, rfl⟩ := mem_of_lookup? denoted
  obtain ⟨depth, hdepth⟩ := List.mem_iff_getElem?.1 hscope
  exact ⟨front, back, split, depth, visible_of_mem_scopes hdepth hb⟩

/-- A run adds mentions that are among its events, the latest first. -/
theorem exists_occurrences (r : Resolution) (events : List ScopeEvent) :
    ∃ found, (events.foldl run r).occurrences = found ++ r.occurrences ∧
      (found.reverse.map Occurrence.offset).Sublist (mentionedAt events) := by
  induction events generalizing r with
  | nil => exact ⟨[], rfl, .slnil⟩
  | cons e events ih =>
    obtain ⟨found, later, sub⟩ := ih (r.run e)
    rw [List.foldl_cons, later]
    have same (silent : (r.run e).occurrences = r.occurrences)
        (other : mentionedAt (e :: events) = mentionedAt events) :
        ∃ found', found ++ (r.run e).occurrences = found' ++ r.occurrences ∧
          (found'.reverse.map Occurrence.offset).Sublist (mentionedAt (e :: events)) := by
      rw [silent, other]
      exact ⟨found, rfl, sub⟩
    cases e with
    | enter | leave => exact same rfl rfl
    | declare name type offset =>
      apply same _ rfl
      rw [run]
      split <;> rfl
    | mention name offset =>
      have longer : mentionedAt (.mention name offset :: events) =
        offset :: mentionedAt events := rfl
      rw [run, longer]
      split
      · rename_i b denoted
        refine ⟨found ++ [⟨offset, b⟩], ?_, ?_⟩
        · rw [List.append_assoc]
          rfl
        · rw [List.reverse_append]
          exact sub.cons_cons offset
      · exact ⟨found, rfl, sub.cons offset⟩

theorem mem_occurrences_foldl {r : Resolution} {o : Occurrence} (h : o ∈ r.occurrences) :
    o ∈ (events.foldl run r).occurrences := by
  obtain ⟨found, later, _⟩ := exists_occurrences r events
  rw [later]
  exact List.mem_append_right _ h

theorem mem_freeNames_foldl {r : Resolution} {name : String} (h : name ∈ r.freeNames) :
    name ∈ (events.foldl run r).freeNames := by
  induction events generalizing r with
  | nil => exact h
  | cons e events ih =>
    apply ih
    cases e with
    | enter | leave => exact h
    | declare | mention =>
      rw [run]
      split
      · exact h
      · first | exact h | exact List.mem_cons_of_mem _ h

/-- A name that is mentioned denotes a binding of this name, or is free. -/
theorem bound_or_free {r : Resolution} {name : String} {offset : Nat}
    (h : .mention name offset ∈ events) :
    (∃ o ∈ (events.foldl run r).occurrences, o.offset = offset ∧ o.binding.name = name) ∨
      name ∈ (events.foldl run r).freeNames := by
  obtain ⟨front, back, rfl⟩ := List.append_of_mem h
  rw [List.foldl_append, List.foldl_cons]
  generalize front.foldl run r = reached
  cases denoted : reached.lookup? name with
  | none =>
    apply Or.inr
    apply mem_freeNames_foldl
    rw [run, denoted]
    exact List.mem_cons_self
  | some b =>
    obtain ⟨_, _, _, same⟩ := mem_of_lookup? denoted
    refine Or.inl ⟨⟨offset, b⟩, ?_, rfl, same⟩
    apply mem_occurrences_foldl
    rw [run, denoted]
    exact List.mem_cons_self

/-- Every binding of a state has a name that is declared. -/
def Named (r : Resolution) : Prop :=
  r.All fun b => b.name ∈ r.declaredNames

theorem named_start : (start parameters).Named := by
  constructor
  · intro scope hscope b hb
    cases List.mem_singleton.1 hscope
    exact List.mem_reverse.2 (List.mem_map_of_mem (List.mem_reverse.1 hb))
  · intro o ho
    cases ho

theorem Named.run {r : Resolution} (h : r.Named) (e : ScopeEvent) : (r.run e).Named := by
  cases e with
  | enter =>
    constructor
    · intro scope hscope b hb
      rcases List.mem_cons.1 hscope with rfl | hscope
      · cases hb
      · exact h.scopes scope hscope b hb
    · exact h.occurrences
  | leave =>
    constructor
    · intro scope hscope
      exact h.scopes scope (List.mem_of_mem_tail hscope)
    · exact h.occurrences
  | declare name type offset =>
    rw [Resolution.run]
    split
    · exact h
    · rename_i inner outer scopes
      have older : ∀ scope ∈ inner :: outer, ∀ b ∈ scope, b.name ∈ name :: r.declaredNames := by
        intro scope hscope b hb
        exact List.mem_cons_of_mem _ (h.scopes scope (scopes ▸ hscope) b hb)
      constructor
      · intro scope hscope b hb
        rcases List.mem_cons.1 hscope with rfl | hscope
        · rcases List.mem_cons.1 hb with rfl | hb
          · exact List.mem_cons_self
          · exact older inner List.mem_cons_self b hb
        · exact older scope (List.mem_cons_of_mem _ hscope) b hb
      · intro o ho
        exact List.mem_cons_of_mem _ (h.occurrences o ho)
  | mention name offset =>
    rw [Resolution.run]
    split
    · rename_i b denoted
      constructor
      · exact h.scopes
      · intro o ho
        rcases List.mem_cons.1 ho with rfl | ho
        · obtain ⟨scope, hscope, hb, _⟩ := mem_of_lookup? denoted
          exact h.scopes scope hscope b hb
        · exact h.occurrences o ho
    · exact ⟨h.scopes, h.occurrences⟩

theorem Named.foldl {r : Resolution} (h : r.Named) (events : List ScopeEvent) :
    (events.foldl Resolution.run r).Named := by
  induction events generalizing r with
  | nil => exact h
  | cons e events ih => exact ih (h.run e)

/-- Occurrences with different offsets are found by their offsets. -/
theorem bindingAt_eq_some_iff {r : Resolution}
    (distinct : (r.occurrences.map Occurrence.offset).Nodup) {offset : Nat} {b : Binding} :
    r.bindingAt? offset = some b ↔ ⟨offset, b⟩ ∈ r.occurrences := by
  rw [bindingAt?, Option.map_eq_some_iff]
  constructor
  · rintro ⟨o, found, rfl⟩
    have same := List.find?_some (p := fun o : Occurrence => o.offset == offset) found
    cases eq_of_beq same
    exact List.mem_of_find?_eq_some found
  · intro h
    cases found : r.occurrences.find? (·.offset == offset) with
    | none =>
      have other := List.find?_eq_none.1 found _ h
      simp at other
    | some o =>
      have same := List.find?_some (p := fun o : Occurrence => o.offset == offset) found
      have equal := List.inj_on_of_nodup_map distinct (List.mem_of_find?_eq_some found) h
        (eq_of_beq same)
      exact ⟨o, rfl, congrArg Occurrence.binding equal⟩

/-- What is mentioned in a range is what is mentioned in the parts that make it up. -/
theorem mem_referencesIn_parts {r : Resolution} {start stop : Nat} {parts : List (Nat × Nat)}
    (whole : ∀ offset, (start ≤ offset ∧ offset < stop) ↔
      ∃ part ∈ parts, part.1 ≤ offset ∧ offset < part.2) (id : Nat) :
    id ∈ r.referencesIn start stop ↔ ∃ part ∈ parts, id ∈ r.referencesIn part.1 part.2 := by
  simp only [mem_referencesIn]
  constructor
  · rintro ⟨o, ho, low, high, same⟩
    obtain ⟨part, hpart, low, high⟩ := (whole o.offset).1 ⟨low, high⟩
    exact ⟨part, hpart, o, ho, low, high, same⟩
  · rintro ⟨part, hpart, o, ho, low, high, same⟩
    obtain ⟨low, high⟩ := (whole o.offset).2 ⟨part, hpart, low, high⟩
    exact ⟨o, ho, low, high, same⟩

end Resolution

end

/-! ### Nodes that are walked -/

/-- The nodes that a walk over a node visits. -/
inductive Walked (source : Source) (n : Node) : Node → Prop
  | here : Walked source n n
  | step {m c : Node} (walked : Walked source n m) (visit : .visit c ∈ steps source m) :
      Walked source n c

theorem Walked.trans (first : Walked source n m) (second : Walked source m c) :
    Walked source n c := by
  induction second with
  | here => exact first
  | step walked visit ih => exact .step ih visit

theorem scopeEvents_subset (h : Walked source n m) : scopeEvents source m ⊆ scopeEvents source n := by
  induction h with
  | here => exact List.Subset.refl _
  | @step m c walked visit ih =>
    intro e he
    apply ih
    rw [scopeEvents_eq, eventsOf]
    exact List.mem_flatMap.2 ⟨_, visit, he⟩

/-- What a walk mentions are the identifiers that it visits. -/
theorem mention_iff_walked {name : String} {offset : Nat} :
    .mention name offset ∈ scopeEvents source n ↔ ∃ m, Walked source n m ∧
      m.is .identifier = true ∧ m.text source = name ∧ m.start = offset := by
  constructor
  · intro h
    generalize hsize : sizeOf n = size
    induction size using Nat.strongRecOn generalizing n with
    | ind size ih =>
      rw [scopeEvents_eq, eventsOf] at h
      obtain ⟨s, hs, he⟩ := List.mem_flatMap.1 h
      cases s with
      | event e =>
        cases List.mem_singleton.1 he
        by_cases is : n.is .identifier = true
        · rw [steps_of_identifier is] at hs
          cases List.mem_singleton.1 hs
          exact ⟨n, .here, is, rfl, rfl⟩
        · rw [Bool.not_eq_true] at is
          exact (mention_notMem_steps is hs).elim
      | visit c =>
        obtain ⟨m, walked, facts⟩ := ih _ (hsize ▸ (inwards_steps source n).lt c hs) he rfl
        exact ⟨m, (Walked.step .here hs).trans walked, facts⟩
  · rintro ⟨m, walked, is, rfl, rfl⟩
    apply scopeEvents_subset walked
    rw [scopeEvents_eq, steps_of_identifier is, eventsOf_cons]
    exact List.mem_cons_self

/-! ### The invariants -/

/-- What holds of the walk over the body of a callback with some parameters. -/
structure WalkInvariants (source : Source) (parameters : List (String × Option String))
    (body : Node) : Prop where
  /-- The scopes around the callback are as they were before. -/
  stack : ∀ outer, (((scopeEvents source body).foldl Resolution.run
    { Resolution.start parameters with
      scopes := (Resolution.start parameters).scopes ++ outer }).run .leave).scopes = outer
  /-- The parameters come first, and the declarations follow in order. -/
  bindings : Resolution.parameterBindings parameters ++
      (Resolution.start parameters).made (scopeEvents source body) =
    Resolution.parameterBindings (parameters ++ declarationsOf (scopeEvents source body))
  /-- The numbers of the bindings begin with one and have no gaps. -/
  numbers : (Resolution.parameterBindings parameters ++
      (Resolution.start parameters).made (scopeEvents source body)).map Binding.id =
    List.range' 1 (parameters.length + (declarationsOf (scopeEvents source body)).length)
  /-- Occurrences are found from left to right. The latest one stands first. -/
  order : ((Resolution.ofBody source parameters body).occurrences.reverse.map
    Occurrence.offset).Pairwise (· < ·)
  /-- An occurrence is an identifier with the name of the binding. -/
  names : ∀ o ∈ (Resolution.ofBody source parameters body).occurrences, ∃ m,
    Walked source body m ∧ m.is .identifier = true ∧ m.start = o.offset ∧
      m.text source = o.binding.name
  /-- What an occurrence denotes was declared earlier, in a scope that is still open. -/
  declared : ∀ o ∈ (Resolution.ofBody source parameters body).occurrences, ∃ front back,
    scopeEvents source body = front ++ .mention o.binding.name o.offset :: back ∧
      ∃ depth, Visible parameters front depth o.binding
  /-- A binding is found at an offset if there is an occurrence of it. -/
  lookup : ∀ offset b, (Resolution.ofBody source parameters body).bindingAt? offset = some b ↔
    ⟨offset, b⟩ ∈ (Resolution.ofBody source parameters body).occurrences
  /-- The references in a range are those in the parts of the range. -/
  parts : ∀ start stop (parts : List (Nat × Nat)),
    (∀ offset, (start ≤ offset ∧ offset < stop) ↔
      ∃ part ∈ parts, part.1 ≤ offset ∧ offset < part.2) →
    ∀ id, id ∈ (Resolution.ofBody source parameters body).referencesIn start stop ↔
      ∃ part ∈ parts, id ∈ (Resolution.ofBody source parameters body).referencesIn part.1 part.2
  /-- An identifier that is visited is an occurrence, or its name is free. -/
  bound : ∀ m, Walked source body m → m.is .identifier = true →
    (∃ o ∈ (Resolution.ofBody source parameters body).occurrences,
      o.offset = m.start ∧ o.binding.name = m.text source) ∨
    m.text source ∈ (Resolution.ofBody source parameters body).freeNames
  /-- The name of an identifier that is visited is free or declared. -/
  known : ∀ m, Walked source body m → m.is .identifier = true →
    m.text source ∈ (Resolution.ofBody source parameters body).freeNames ∨
    m.text source ∈ (Resolution.ofBody source parameters body).declaredNames

/-- The walk over any node without faults keeps the invariants. -/
theorem walkInvariants_of_belongs (parameters : List (String × Option String))
    (h : n.Belongs text) : WalkInvariants source parameters n := by
  have nested := nested_scopeEvents source n
  have opened : (Resolution.start parameters).scopes ≠ [] := List.cons_ne_nil _ _
  have made := (Resolution.made_eq nested opened).1
  have next : (Resolution.start parameters).nextId = 1 + parameters.length := by
    simp [Resolution.start, Resolution.parameterBindings, Nat.add_comm]
  have bindings : Resolution.parameterBindings parameters ++
      (Resolution.start parameters).made (scopeEvents source n) =
      Resolution.numberedFrom 1 (parameters ++ declarationsOf (scopeEvents source n)) := by
    rw [made, next, Resolution.numberedFrom_append, Resolution.parameterBindings_eq]
  have order : ((Resolution.ofBody source parameters n).occurrences.reverse.map
      Occurrence.offset).Pairwise (· < ·) := by
    obtain ⟨found, occurrences, sub⟩ :=
      Resolution.exists_occurrences (Resolution.start parameters) (scopeEvents source n)
    rw [Resolution.ofBody, occurrences, Resolution.start, List.append_nil]
    exact (mentionedAt_pairwise h).sublist sub
  have distinct : ((Resolution.ofBody source parameters n).occurrences.map
      Occurrence.offset).Nodup := by
    rw [List.map_reverse, List.pairwise_reverse] at order
    exact order.imp fun less => Nat.ne_of_gt less
  have declared {o : Occurrence} (ho : o ∈ (Resolution.ofBody source parameters n).occurrences) :=
    Resolution.exists_visible_of_mem_occurrences ho
  have bound {m : Node} (walked : Walked source n m) (is : m.is .identifier = true) :=
    @Resolution.bound_or_free (scopeEvents source n) (Resolution.start parameters) _ _
      (mention_iff_walked.2 ⟨m, walked, is, rfl, rfl⟩)
  constructor
  · intro outer
    exact Resolution.scopes_leave nested rfl
  · rw [bindings, Resolution.parameterBindings_eq]
  · rw [bindings, Resolution.map_id_numberedFrom, List.length_append]
  · exact order
  · intro o ho
    obtain ⟨front, back, split, _⟩ := declared ho
    have mention : .mention o.binding.name o.offset ∈ scopeEvents source n := by
      rw [split]
      exact List.mem_append_right _ List.mem_cons_self
    obtain ⟨m, walked, is, name, offset⟩ := mention_iff_walked.1 mention
    exact ⟨m, walked, is, offset, name⟩
  · intro o ho
    exact declared ho
  · intro offset b
    exact Resolution.bindingAt_eq_some_iff distinct
  · intro start stop parts whole id
    exact Resolution.mem_referencesIn_parts whole id
  · intro m walked is
    exact bound walked is
  · intro m walked is
    rcases bound walked is with ⟨o, ho, _, name⟩ | free
    · have atStart : (Resolution.start parameters).Named := Resolution.named_start
      have named := atStart.foldl (scopeEvents source n)
      exact Or.inr (name ▸ named.occurrences o ho)
    · exact Or.inl free

end MonoTap.Callback

namespace MonoTap

open Java (CompilationUnit Node)

/-- The walk over a piece of syntax without faults, with any parameters, closes the scopes it opens,
numbers the bindings without gaps, finds the names from left to right, each denoting a declaration
that was made before in a scope still open, and keeps every other name as free. -/
theorem walk_keeps_invariants (text : String) :
    let u := CompilationUnit.ofString text
    ∀ body ∈ Node.preorderAll u.root.children, body.hasError = false →
      ∀ parameters, Callback.WalkInvariants u.source parameters body := by
  intro u body inside clean parameters
  exact Callback.walkInvariants_of_belongs parameters (Node.belongs_of_hasError inside clean)

/-- A callback with a block and a lambda, in which names are declared and mentioned. -/
def nestedText : String :=
  "class C\x7b\x7bm.doAfterSuccessOrError((v,e)->" ++
    "\x7bint a=v;\x7bF f=b->g(a,b);\x7dh(a,e,f);\x7d);\x7d\x7d"

set_option maxRecDepth 100000 in
theorem read_nestedText :
    let u := CompilationUnit.ofString nestedText
    ((Node.preorderAll u.root.children).any fun n => n.is .block && !n.hasError &&
      (Callback.Resolution.ofBody u.source [("v", none), ("e", none)] n).occurrences.map
        (fun o => (o.offset, o.binding.id)) ==
        [(69, 2), (67, 3), (61, 5), (59, 3), (47, 1)]) = true := by
  rw [CompilationUnit.ofString_eq_ofCharsOf]
  decide +kernel

theorem walk_keeps_invariants_of_nested :
    let u := CompilationUnit.ofString nestedText
    ∃ body ∈ Node.preorderAll u.root.children, body.is .block = true ∧ body.hasError = false ∧
      (Callback.Resolution.ofBody u.source [("v", none), ("e", none)] body).occurrences.map
        (fun o => (o.offset, o.binding.id)) =
        [(69, 2), (67, 3), (61, 5), (59, 3), (47, 1)] ∧
      Callback.WalkInvariants u.source [("v", none), ("e", none)] body := by
  intro u
  obtain ⟨body, inside, found⟩ := List.any_eq_true.1 read_nestedText
  simp only [Bool.and_eq_true, Bool.not_eq_true', beq_iff_eq] at found
  obtain ⟨⟨isBlock, clean⟩, occurrences⟩ := found
  exact ⟨body, inside, isBlock, clean, occurrences,
    walk_keeps_invariants nestedText body inside clean [("v", none), ("e", none)]⟩

end MonoTap
