import MonoTap.Callback.Scope
import MonoTap.Proofs.Calls

/-!
# Walks over syntax

The events of a walk lie where the nodes of the walk begin. Running them numbers the declarations
one after the other, so that a binding is known by the offset of the declaration that made it, and
every binding that a name denotes was declared earlier in the walk or is a parameter.
-/

set_option autoImplicit false

namespace MonoTap.Callback

open Java (Node)
open Text (Source)

/-! ### Steps -/

/-- The events of one step of a walk. -/
def Step.events (source : Source) : Step → List ScopeEvent
  | .event e => [e]
  | .visit n => scopeEvents source n

/-- The events of some steps of a walk. -/
def eventsOf (source : Source) (l : List Step) : List ScopeEvent :=
  l.flatMap (Step.events source)

theorem scopeEvents_eq (source : Source) (n : Node) :
    scopeEvents source n = eventsOf source (steps source n) := by
  have same : scopeEvents source n =
      (steps source n).attach.flatMap fun s => Step.events source s.val := by
    rw [scopeEvents.eq_def]
    congr 1
    funext s
    rcases s with ⟨e | c, h⟩ <;> rfl
  rw [same, eventsOf, ← List.flatMap_map, List.attach_map_subtype_val]

@[simp] theorem eventsOf_nil (source : Source) : eventsOf source [] = [] := rfl

@[simp] theorem eventsOf_cons (source : Source) (s : Step) (l : List Step) :
    eventsOf source (s :: l) = s.events source ++ eventsOf source l :=
  List.flatMap_cons

@[simp] theorem eventsOf_append (source : Source) (l m : List Step) :
    eventsOf source (l ++ m) = eventsOf source l ++ eventsOf source m :=
  List.flatMap_append

theorem eventsOf_visits (source : Source) (ns : List Node) :
    eventsOf source (visits ns) = ns.flatMap (scopeEvents source) := by
  rw [eventsOf, visits, List.flatMap_map]
  rfl

theorem eventsOf_inScope (source : Source) (l : List Step) :
    eventsOf source (inScope l) = .enter :: eventsOf source l ++ [.leave] := by
  simp [inScope, Step.events]

/-! ### Offsets -/

/-- The offset of the name that is declared or mentioned. -/
def ScopeEvent.offset? : ScopeEvent → Option Nat
  | .enter | .leave => none
  | .declare _ _ offset => some offset
  | .mention _ offset => some offset

/-- Steps whose names stand in a node, as do the nodes to walk; what is mentioned is an identifier.
Scopes that are opened are closed again. -/
inductive Inside (source : Source) (n : Node) : List Step → Prop
  | nil : Inside source n []
  | declare {m : Node} (type : Option String) (inside : m ∈ n.preorder) :
      Inside source n [.event (.declare (m.text source) type m.start)]
  | mention {m : Node} (inside : m ∈ n.preorder) (is : m.is .identifier = true) :
      Inside source n [.event (.mention (m.text source) m.start)]
  | visit {c : Node} (inside : c ∈ n.preorder) : Inside source n [.visit c]
  | append {l m : List Step} (first : Inside source n l) (second : Inside source n m) :
      Inside source n (l ++ m)
  | inScope {l : List Step} (inner : Inside source n l) : Inside source n (inScope l)

/-- The name that an event declares or mentions is that of a node, and an identifier if it is only
mentioned. -/
def ScopeEvent.NamesIn (source : Source) (n : Node) : ScopeEvent → Prop
  | .enter | .leave => True
  | .declare name _ offset => ∃ m ∈ n.preorder, m.text source = name ∧ m.start = offset
  | .mention name offset =>
    ∃ m ∈ n.preorder, m.is .identifier = true ∧ m.text source = name ∧ m.start = offset

theorem Inside.event {source : Source} {n : Node} {l : List Step} (h : Inside source n l) :
    ∀ e, .event e ∈ l → e.NamesIn source n := by
  induction h with
  | nil =>
    intro e he
    cases he
  | @declare m type inside =>
    intro e he
    cases List.mem_singleton.1 he
    exact ⟨m, inside, rfl, rfl⟩
  | @mention m inside is =>
    intro e he
    cases List.mem_singleton.1 he
    exact ⟨m, inside, is, rfl, rfl⟩
  | visit inside =>
    intro e he
    cases List.mem_singleton.1 he
  | append first second ihFirst ihSecond =>
    intro e he
    exact (List.mem_append.1 he).elim (ihFirst e) (ihSecond e)
  | inScope inner ih =>
    intro e he
    simp only [Callback.inScope, List.cons_append, List.mem_cons, List.mem_append,
      Step.event.injEq, List.not_mem_nil, or_false] at he
    rcases he with rfl | he | rfl
    · exact True.intro
    · exact ih e he
    · exact True.intro

theorem Inside.mem_of_visit {source : Source} {n : Node} {l : List Step} (h : Inside source n l) :
    ∀ c, .visit c ∈ l → c ∈ n.preorder := by
  induction h with
  | nil =>
    intro c hc
    cases hc
  | declare type inside =>
    intro c hc
    cases List.mem_singleton.1 hc
  | mention inside is =>
    intro c hc
    cases List.mem_singleton.1 hc
  | visit inside =>
    intro c hc
    cases List.mem_singleton.1 hc
    exact inside
  | append first second ihFirst ihSecond =>
    intro c hc
    exact (List.mem_append.1 hc).elim (ihFirst c) (ihSecond c)
  | inScope inner ih =>
    intro c hc
    simp only [Callback.inScope, List.cons_append, List.mem_cons, reduceCtorEq, List.mem_append,
      List.not_mem_nil, or_false, false_or] at hc
    exact ih c hc

theorem inside_flatMap {source : Source} {α : Type} {n : Node} {l : List α} {f : α → List Step}
    (each : ∀ a ∈ l, Inside source n (f a)) : Inside source n (l.flatMap f) := by
  induction l with
  | nil => exact .nil
  | cons a l ih =>
    rw [List.flatMap_cons]
    apply Inside.append
    · exact each a List.mem_cons_self
    · exact ih fun b hb => each b (List.mem_cons_of_mem _ hb)

theorem inside_visits {source : Source} {n : Node} {ns : List Node}
    (inside : ∀ c ∈ ns, c ∈ n.preorder) : Inside source n (visits ns) := by
  induction ns with
  | nil => exact .nil
  | cons c ns ih =>
    exact .append (.visit (inside c List.mem_cons_self))
      (ih fun d hd => inside d (List.mem_cons_of_mem _ hd))

theorem inside_declareName {source : Source} {n : Node} {name : Option Node} (type : Option Node)
    (inside : ∀ m, name = some m → m ∈ n.preorder) :
    Inside source n (declareName source name type) := by
  cases name with
  | none => exact .nil
  | some m => exact .declare _ (inside m rfl)

section

variable {source : Source} {n c m : Node} {part : Java.Role}

theorem mem_preorder_of_mem_children (h : c ∈ n.children) : c ∈ n.preorder :=
  Node.mem_preorder_of_mem_children h c.self_mem_preorder

theorem mem_preorder_of_mem_namedChildren (h : c ∈ n.namedChildren) : c ∈ n.preorder :=
  mem_preorder_of_mem_children (Node.mem_children_of_mem_namedChildren h)

theorem mem_preorder_of_part (h : n.child? part = some c) : c ∈ n.preorder :=
  mem_preorder_of_mem_children (Node.mem_children_of_child? h)

theorem inside_children (n : Node) : Inside source n (visits n.namedChildren) :=
  inside_visits fun _ => mem_preorder_of_mem_namedChildren

theorem inside_visitParts (n : Node) (parts : List Java.Role) : Inside source n (visitParts n parts) :=
  inside_flatMap fun _ _ => inside_visits fun _ h =>
    mem_preorder_of_mem_children (Node.mem_children_of_mem_childrenOf h)

/-- The name of a part of a node stands in the node. -/
theorem inside_declarePart (type : Option Node) (hc : c ∈ n.preorder) :
    Inside source n (declareName source (c.child? part) type) :=
  inside_declareName type fun _ hm =>
    Node.mem_preorder_trans hc (mem_preorder_of_part hm)

theorem inside_values (h : c ∈ n.childrenOf .declarator) :
    Inside source n (visits (c.childrenOf .value)) :=
  inside_visits fun _ hm => Node.mem_preorder_trans
    (mem_preorder_of_mem_children (Node.mem_children_of_mem_childrenOf h))
    (mem_preorder_of_mem_children (Node.mem_children_of_mem_childrenOf hm))

theorem inside_declareParameter (hc : c ∈ n.preorder) :
    Inside source n (declareParameter source c) := by
  rw [declareParameter]
  split
  · exact inside_declarePart _ hc
  · split
    · apply inside_declareName
      intro m hm
      obtain ⟨d, hd, hm⟩ := Option.bind_eq_some_iff.1 hm
      have inside : d ∈ c.namedChildren := List.mem_of_find?_eq_some hd
      exact Node.mem_preorder_trans hc (Node.mem_preorder_trans
        (mem_preorder_of_mem_namedChildren inside) (mem_preorder_of_part hm))
    · exact .nil

theorem inside_declareParameters :
    Inside source n ((((n.child? part).map Node.namedChildren).getD []).flatMap
      (declareParameter source)) := by
  apply inside_flatMap
  intro p hp
  cases h : n.child? part with
  | none => simp [h] at hp
  | some ps =>
    simp only [h, Option.map_some, Option.getD_some] at hp
    exact inside_declareParameter (Node.mem_preorder_trans (mem_preorder_of_part h)
      (mem_preorder_of_mem_namedChildren hp))

theorem inside_declareLambdaParameters (source : Source) (n : Node) :
    Inside source n (declareLambdaParameters source n) := by
  rw [declareLambdaParameters]
  split
  · exact .nil
  · rename_i ps h
    have here := mem_preorder_of_part h
    have each : ∀ p ∈ ps.namedChildren, p ∈ n.preorder := fun p hp =>
      Node.mem_preorder_trans here (mem_preorder_of_mem_namedChildren hp)
    split
    · exact inside_declareName none fun m hm => by cases hm; exact here
    · split
      · apply inside_flatMap
        intro p hp
        exact inside_declareName none fun m hm => by
          cases hm
          exact each p (List.mem_filter.1 hp).1
      · exact inside_flatMap fun p hp => inside_declareParameter (each p hp)

theorem inside_declareFields (source : Source) (n : Node) : Inside source n (declareFields source n) := by
  apply inside_flatMap
  intro field hfield
  apply inside_flatMap
  intro d hd
  exact inside_declarePart _ (Node.mem_preorder_trans
    (mem_preorder_of_mem_namedChildren (List.mem_filter.1 hfield).1)
    (mem_preorder_of_mem_children (Node.mem_children_of_mem_childrenOf hd)))

theorem inside_steps (source : Source) (n : Node) : Inside source n (steps source n) := by
  have own {part : Java.Role} {type : Option Node} :
      Inside source n (declareName source (n.child? part) type) :=
    inside_declarePart type n.self_mem_preorder
  have declarator {d : Node} (h : d ∈ n.childrenOf .declarator) : d ∈ n.preorder :=
    mem_preorder_of_mem_children (Node.mem_children_of_mem_childrenOf h)
  have method : Inside source n (inScope ((((n.child? .parameters).map Node.namedChildren).getD []).flatMap
      (declareParameter source) ++ visitParts n [.body])) :=
    (inside_declareParameters.append (inside_visitParts ..)).inScope
  unfold steps
  split
  · exact .nil
  · split
    · rename_i label
      exact .mention n.self_mem_preorder (by rw [Node.is, label, beq_self_eq_true])
    · exact inside_visitParts ..
    · exact inside_visitParts ..
    · exact inside_visits fun c h => mem_preorder_of_mem_namedChildren (List.mem_of_mem_take h)
    · exact inside_visits fun c h => mem_preorder_of_mem_namedChildren (List.mem_filter.1 h).1
    iterate 4 · exact .nil
    iterate 3 · exact inside_visitParts ..
    · exact inside_flatMap fun d h =>
        (inside_declarePart _ (declarator h)).append (inside_values h)
    · exact inside_flatMap fun d h => inside_values h
    · exact ((inside_declareFields source n).append (inside_children n)).inScope
    · exact method
    · exact method
    · exact ((inside_declareLambdaParameters source n).append (inside_visitParts ..)).inScope
    · exact (((inside_visitParts ..).append own).append (inside_visitParts ..)).inScope
    iterate 7 · exact (inside_children n).inScope
    · exact own
    · split
      · exact inside_children n
      · rename_i name hname
        exact (inside_visitParts ..).append (hname ▸ own)
    · exact (inside_visitParts ..).append own
    · apply inside_flatMap
      intro c h
      split
      · exact inside_declareName none fun m hm => by
          cases hm
          exact mem_preorder_of_mem_namedChildren h
      · exact inside_visits fun d hd => List.mem_singleton.1 hd ▸ mem_preorder_of_mem_namedChildren h
    iterate 5
      · exact inside_visits fun c h => mem_preorder_of_part (Option.mem_toList.1 h)
    · exact inside_children n

end

/-- Every event of a walk is one of the steps over a node inside. -/
theorem exists_steps_of_mem_scopeEvents {source : Source} {n : Node} {e : ScopeEvent}
    (h : e ∈ scopeEvents source n) : ∃ m ∈ n.preorder, .event e ∈ steps source m := by
  generalize hsize : sizeOf n = size
  induction size using Nat.strongRecOn generalizing n with
  | ind size ih =>
    rw [scopeEvents_eq, eventsOf] at h
    obtain ⟨s, hs, he⟩ := List.mem_flatMap.1 h
    cases s with
    | event f =>
      cases List.mem_singleton.1 he
      exact ⟨n, n.self_mem_preorder, hs⟩
    | visit c =>
      have smaller : sizeOf c < size := hsize ▸ (inwards_steps source n).lt c hs
      obtain ⟨m, hm, here⟩ := ih _ smaller he rfl
      exact ⟨m, Node.mem_preorder_trans ((inside_steps source n).mem_of_visit c hs) hm, here⟩

/-- The names of a walk are those of nodes of the walk. -/
theorem namesIn_of_mem_scopeEvents {source : Source} {n : Node} {e : ScopeEvent}
    (h : e ∈ scopeEvents source n) : e.NamesIn source n := by
  obtain ⟨m, hm, here⟩ := exists_steps_of_mem_scopeEvents h
  have names := (inside_steps source m).event e here
  cases e with
  | enter | leave => exact True.intro
  | declare name type offset =>
    obtain ⟨k, hk, name⟩ := names
    exact ⟨k, Node.mem_preorder_trans hm hk, name⟩
  | mention name offset =>
    obtain ⟨k, hk, name⟩ := names
    exact ⟨k, Node.mem_preorder_trans hm hk, name⟩

/-- Names are declared and mentioned where nodes of the walk begin. -/
theorem exists_of_mem_scopeEvents {source : Source} {n : Node} {e : ScopeEvent}
    (h : e ∈ scopeEvents source n) {offset : Nat} (ho : e.offset? = some offset) :
    ∃ m ∈ n.preorder, m.start = offset := by
  have names := namesIn_of_mem_scopeEvents h
  cases e with
  | enter | leave => cases ho
  | declare name type at_ =>
    cases ho
    obtain ⟨m, hm, _, start⟩ := names
    exact ⟨m, hm, start⟩
  | mention name at_ =>
    cases ho
    obtain ⟨m, hm, _, _, start⟩ := names
    exact ⟨m, hm, start⟩

/-! ### Numbers of bindings -/

namespace Resolution

/-- All bindings of a state have a property. -/
structure All (P : Binding → Prop) (r : Resolution) : Prop where
  scopes : ∀ scope ∈ r.scopes, ∀ b ∈ scope, P b
  occurrences : ∀ o ∈ r.occurrences, P o.binding

theorem All.imp {P Q : Binding → Prop} {r : Resolution} (h : r.All P) (weaken : ∀ b, P b → Q b) :
    r.All Q := by
  constructor
  · intro scope hscope b hb
    exact weaken b (h.scopes scope hscope b hb)
  · intro o ho
    exact weaken o.binding (h.occurrences o ho)

theorem mem_of_lookup? {r : Resolution} {name : String} {b : Binding}
    (h : r.lookup? name = some b) : ∃ scope ∈ r.scopes, b ∈ scope ∧ b.name = name := by
  rw [lookup?] at h
  obtain ⟨scope, hscope, found⟩ := List.exists_of_findSome?_eq_some h
  have same : (b.name == name) = true :=
    List.find?_some (p := fun b : Binding => b.name == name) found
  exact ⟨scope, hscope, List.mem_of_find?_eq_some found, eq_of_beq same⟩

/-- An event makes no binding but the one with the next number. -/
theorem All.run {P : Binding → Prop} {r : Resolution} (h : r.All P) (e : ScopeEvent)
    (fresh : (r.run e).nextId = r.nextId + 1 → ∀ b, b.id = r.nextId → P b) :
    (r.run e).All P := by
  cases e with
  | enter =>
    constructor
    · intro scope hscope b hb
      rcases List.mem_cons.1 hscope with rfl | hscope
      · cases hb
      · exact h.scopes scope hscope b hb
    · exact h.occurrences
  | leave =>
    constructor
    · intro scope hscope
      exact h.scopes scope (List.mem_of_mem_tail hscope)
    · exact h.occurrences
  | declare name type offset =>
    rw [Resolution.run] at fresh ⊢
    split
    · exact h
    · rename_i scope outer hscopes
      rw [hscopes] at fresh
      constructor
      · intro inner hinner b hb
        have older : ∀ inner ∈ scope :: outer, ∀ b ∈ inner, P b := hscopes ▸ h.scopes
        rcases List.mem_cons.1 hinner with rfl | hinner
        · rcases List.mem_cons.1 hb with rfl | hb
          · exact fresh rfl _ rfl
          · exact older scope List.mem_cons_self b hb
        · exact older inner (List.mem_cons_of_mem _ hinner) b hb
      · exact h.occurrences
  | mention name offset =>
    rw [Resolution.run]
    split
    · rename_i b found
      constructor
      · exact h.scopes
      · intro o ho
        rcases List.mem_cons.1 ho with rfl | ho
        · obtain ⟨scope, hscope, hb, _⟩ := mem_of_lookup? found
          exact h.scopes scope hscope b hb
        · exact h.occurrences o ho
    · exact ⟨h.scopes, h.occurrences⟩

theorem nextId_le_run (r : Resolution) (e : ScopeEvent) : r.nextId ≤ (r.run e).nextId := by
  cases e with
  | enter | leave => exact Nat.le_refl _
  | declare name type offset =>
    rw [run]
    split
    · exact Nat.le_refl _
    · exact Nat.le_succ _
  | mention name offset =>
    rw [run]
    split <;> exact Nat.le_refl _

/-- The bindings of a state have numbers from one on that are taken. -/
structure Numbered (r : Resolution) : Prop where
  bindings : r.All fun b => 0 < b.id ∧ b.id < r.nextId
  next : 0 < r.nextId

theorem Numbered.run {r : Resolution} (h : r.Numbered) (e : ScopeEvent) : (r.run e).Numbered := by
  have le := nextId_le_run r e
  have positive := h.next
  constructor
  · have older : r.All fun b => 0 < b.id ∧ b.id < (r.run e).nextId := by
      apply h.bindings.imp
      intro b hb
      omega
    apply older.run
    intro next b hb
    omega
  · omega

theorem numbered_start (parameters : List (String × Option String)) :
    (start parameters).Numbered := by
  constructor
  · constructor
    · intro scope hscope b hb
      rw [start] at hscope
      cases List.mem_singleton.1 hscope
      rw [List.mem_reverse, parameterBindings] at hb
      obtain ⟨⟨p, i⟩, hp, rfl⟩ := List.mem_map.1 hb
      have bound := (List.mem_zipIdx hp).2.1
      simp only [start, parameterBindings, List.length_map, List.length_zipIdx]
      omega
    · intro o ho
      cases ho
  · exact Nat.succ_pos _

theorem Numbered.foldl {r : Resolution} (h : r.Numbered) (events : List ScopeEvent) :
    (events.foldl Resolution.run r).Numbered := by
  induction events generalizing r with
  | nil => exact h
  | cons e events ih => exact ih (h.run e)

/-- The offset at which some events, run from a state, declare the binding with the given number. -/
def declaredAt? (r : Resolution) : List ScopeEvent → Nat → Option Nat
  | [], _ => none
  | .declare name type offset :: events, id =>
    if !r.scopes.isEmpty && r.nextId == id then some offset
    else (r.run (.declare name type offset)).declaredAt? events id
  | e :: events, id => (r.run e).declaredAt? events id

theorem declaredAt?_append (r : Resolution) (first second : List ScopeEvent) (id : Nat) :
    r.declaredAt? (first ++ second) id =
      (r.declaredAt? first id).or ((first.foldl run r).declaredAt? second id) := by
  induction first generalizing r with
  | nil => rfl
  | cons e first ih =>
    cases e with
    | declare name type offset =>
      simp only [List.cons_append, declaredAt?]
      split
      · rfl
      · exact ih _
    | enter | leave | mention => exact ih _

/-- Numbers that are taken are not given again. -/
theorem declaredAt?_of_lt {r : Resolution} {id : Nat} (h : id < r.nextId)
    (events : List ScopeEvent) : r.declaredAt? events id = none := by
  induction events generalizing r with
  | nil => rfl
  | cons e events ih =>
    have later : (r.run e).declaredAt? events id = none :=
      ih (Nat.lt_of_lt_of_le h (nextId_le_run r e))
    cases e with
    | declare name type offset =>
      have other : (r.nextId == id) = false := by
        rw [beq_eq_false_iff_ne]
        omega
      simp only [declaredAt?, other, Bool.and_false, Bool.false_eq_true, ↓reduceIte]
      exact later
    | enter | leave | mention => exact later

/-- Every number given since is that of a declaration among the events. -/
theorem declaredAt?_isSome {r : Resolution} {events : List ScopeEvent} {id : Nat}
    (low : r.nextId ≤ id) (high : id < (events.foldl run r).nextId) :
    (r.declaredAt? events id).isSome := by
  induction events generalizing r with
  | nil =>
    rw [List.foldl_nil] at high
    omega
  | cons e events ih =>
    rw [List.foldl_cons] at high
    cases e with
    | declare name type offset =>
      rw [declaredAt?]
      split
      · rfl
      · rename_i other
        apply ih _ high
        rw [run]
        split
        · exact low
        · rename_i scope outer hscopes
          simp only [hscopes, List.isEmpty_cons, Bool.not_false, Bool.true_and,
            beq_iff_eq] at other
          show r.nextId + 1 ≤ id
          omega
    | enter | leave => exact ih low high
    | mention name offset =>
      apply ih _ high
      rw [run]
      split <;> exact low

/-- A declaration stands where one of the events has it. -/
theorem mem_of_declaredAt? {r : Resolution} {events : List ScopeEvent} {id offset : Nat}
    (h : r.declaredAt? events id = some offset) :
    ∃ e ∈ events, e.offset? = some offset := by
  induction events generalizing r with
  | nil => cases h
  | cons e events ih =>
    have later {r : Resolution} (h : r.declaredAt? events id = some offset) :
        ∃ f ∈ e :: events, f.offset? = some offset := by
      obtain ⟨f, hf, ho⟩ := ih h
      exact ⟨f, List.mem_cons_of_mem _ hf, ho⟩
    cases e with
    | declare name type at_ =>
      rw [declaredAt?] at h
      split at h
      · exact ⟨_, List.mem_cons_self, h⟩
      · exact later h
    | enter | leave | mention => exact later h

/-- A name that is found to denote a binding is mentioned among the events, or was before. -/
theorem mem_of_mem_occurrences {r : Resolution} {events : List ScopeEvent} {o : Occurrence}
    (h : o ∈ (events.foldl run r).occurrences) :
    o ∈ r.occurrences ∨ .mention o.binding.name o.offset ∈ events := by
  induction events generalizing r with
  | nil => exact Or.inl h
  | cons e events ih =>
    rcases ih h with h | later
    · cases e with
      | enter | leave => exact Or.inl h
      | declare name type offset =>
        rw [run] at h
        split at h <;> exact Or.inl h
      | mention name offset =>
        rw [run] at h
        split at h
        · rename_i b found
          rcases List.mem_cons.1 h with rfl | h
          · obtain ⟨_, _, _, named⟩ := mem_of_lookup? found
            exact Or.inr (named ▸ List.mem_cons_self)
          · exact Or.inl h
        · exact Or.inl h
    · exact Or.inr (List.mem_cons_of_mem _ later)

end Resolution

end MonoTap.Callback
