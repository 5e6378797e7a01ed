import Mathlib.Algebra.BigOperators.Group.List.Lemmas
import Mathlib.Data.Set.Insert
import MonoTap.Proofs.Scoping
import MonoTap.Proofs.Walk

/-!
# What a walk does about one name

A walk closes the scopes it opens, so all it does about a name is to let it denote something else in
the scope around, and to mention it here and there. Effects of this kind compose, and the effect of a
walk over nodes side by side is the product of the effects of the walks over each of them.
-/

set_option autoImplicit false

namespace MonoTap.Callback

open Java (Node Role)
open Text (Source)

/-! ### One name in a run -/

/-- What a name denotes by the declarations in each open scope, from the inside out. -/
abbrev View := List (Option Target)

namespace View

/-- What the name denotes. -/
def denoted (v : View) : Option Target :=
  v.findSome? id

@[simp] theorem denoted_nil : denoted [] = none := rfl

@[simp] theorem denoted_cons (here : Option Target) (v : View) :
    denoted (here :: v) = here.or (denoted v) := by
  cases here <;> rfl

/-- Runs one scope event. -/
def run (x : String) (v : View) : ScopeEvent → View
  | .enter => none :: v
  | .leave => v.tail
  | .declare name _ offset =>
    match v with
    | [] => []
    | here :: outer => (if name == x then some (.declared offset) else here) :: outer
  | .mention _ _ => v

/-- The mention of the name that an event is, with what the name denotes there. -/
def mention? (x : String) (v : View) : ScopeEvent → Option (Nat × Option Target)
  | .mention name offset => if name == x then some (offset, v.denoted) else none
  | _ => none

/-- The mentions of the name among some events. -/
def mentions (x : String) : View → List ScopeEvent → List (Nat × Option Target)
  | _, [] => []
  | v, e :: events => (v.mention? x e).toList ++ (v.run x e).mentions x events

theorem mentions_append (x : String) (v : View) (first second : List ScopeEvent) :
    v.mentions x (first ++ second) =
      v.mentions x first ++ (first.foldl (run x) v).mentions x second := by
  induction first generalizing v with
  | nil => rfl
  | cons e first ih => rw [List.cons_append, mentions, mentions, ih, List.append_assoc, List.foldl_cons]

end View

/-! ### Effects -/

/-- What events do about a name: what they let it denote in the scope where they happen, and where
they mention it, with what it denotes there, given what it denotes before. -/
@[ext] structure Effect where
  declared : Option Target
  mentions : Option Target → Set (Nat × Option Target)

namespace Effect

instance : One Effect := ⟨⟨none, fun _ => ∅⟩⟩

instance : Mul Effect :=
  ⟨fun a b => ⟨b.declared.or a.declared, fun o => a.mentions o ∪ b.mentions (a.declared.or o)⟩⟩

@[simp] theorem one_declared : (1 : Effect).declared = none := rfl

@[simp] theorem one_mentions (o : Option Target) : (1 : Effect).mentions o = ∅ := rfl

@[simp] theorem mul_declared (a b : Effect) : (a * b).declared = b.declared.or a.declared := rfl

@[simp] theorem mul_mentions (a b : Effect) (o : Option Target) :
    (a * b).mentions o = a.mentions o ∪ b.mentions (a.declared.or o) := rfl

instance : Monoid Effect where
  mul_assoc a b c := by
    ext1
    · simp [Option.or_assoc]
    · funext o
      simp [Option.or_assoc, Set.union_assoc]
  one_mul a := by
    ext1
    · simp
    · funext o
      simp
  mul_one a := by
    ext1
    · simp
    · funext o
      simp

/-- The effect of events in a scope of their own. -/
def scope (a : Effect) : Effect :=
  ⟨none, a.mentions⟩

theorem scope_of_declared {a : Effect} (h : a.declared = none) : a.scope = a := by
  ext1
  · exact h.symm
  · rfl

/-- Effects that declare nothing may change places. -/
theorem commute {a b : Effect} (ha : a.declared = none) (hb : b.declared = none) : Commute a b := by
  ext1
  · simp [ha, hb]
  · funext o
    simp [ha, hb, Set.union_comm]

theorem declared_prod {l : List Effect} (h : ∀ a ∈ l, a.declared = none) :
    l.prod.declared = none := by
  induction l with
  | nil => rfl
  | cons a l ih =>
    rw [List.prod_cons, mul_declared, h a List.mem_cons_self,
      ih fun b hb => h b (List.mem_cons_of_mem _ hb)]
    rfl

theorem mentions_prod {l : List Effect} (h : ∀ a ∈ l, ∀ o, a.mentions o = ∅) (o : Option Target) :
    l.prod.mentions o = ∅ := by
  induction l generalizing o with
  | nil => rfl
  | cons a l ih =>
    rw [List.prod_cons, mul_mentions, h a List.mem_cons_self,
      ih fun b hb => h b (List.mem_cons_of_mem _ hb), Set.empty_union]

end Effect

/-- In a product, factors that are one may be left out. -/
theorem prod_map_filter {α M : Type} [Monoid M] {f : α → M} {p : α → Bool} {l : List α}
    (h : ∀ a ∈ l, p a = false → f a = 1) : (l.map f).prod = ((l.filter p).map f).prod := by
  induction l with
  | nil => rfl
  | cons a l ih =>
    have ih := ih fun b hb => h b (List.mem_cons_of_mem _ hb)
    cases hp : p a with
    | true =>
      rw [List.filter_cons_of_pos hp, List.map_cons, List.map_cons, List.prod_cons, List.prod_cons, ih]
    | false =>
      rw [List.filter_cons_of_neg (by simp [hp]), List.map_cons, List.prod_cons, ih,
        h a List.mem_cons_self hp, one_mul]

/-! ### Effects of events -/

/-- Events that have some effect on a name, whatever it denotes before. -/
structure HasEffect (x : String) (events : List ScopeEvent) (a : Effect) : Prop where
  view : ∀ here v, events.foldl (View.run x) (here :: v) = a.declared.or here :: v
  mentions : ∀ here v k, k ∈ View.mentions x (here :: v) events ↔
    k ∈ a.mentions (View.denoted (here :: v))

namespace HasEffect

variable {x : String} {first second events : List ScopeEvent} {a b : Effect}

theorem nil : HasEffect x [] 1 := by
  constructor
  · intro here v
    rfl
  · intro here v k
    exact iff_of_false List.not_mem_nil (Set.notMem_empty k)

theorem append (ha : HasEffect x first a) (hb : HasEffect x second b) :
    HasEffect x (first ++ second) (a * b) := by
  constructor
  · intro here v
    rw [List.foldl_append, ha.view, hb.view, Effect.mul_declared, Option.or_assoc]
  · intro here v k
    rw [View.mentions_append, List.mem_append, ha.view, ha.mentions, hb.mentions,
      Effect.mul_mentions, Set.mem_union, View.denoted_cons, View.denoted_cons, Option.or_assoc]

theorem inScope (h : HasEffect x events a) :
    HasEffect x (.enter :: events ++ [.leave]) a.scope := by
  constructor
  · intro here v
    rw [List.cons_append, List.foldl_cons, List.foldl_append]
    show (events.foldl (View.run x) (none :: here :: v)).tail = _
    rw [h.view]
    rfl
  · intro here v k
    rw [List.cons_append, View.mentions, View.mentions_append]
    show k ∈ [] ++ (View.mentions x (none :: here :: v) events ++ []) ↔ _
    rw [List.nil_append, List.append_nil, h.mentions, View.denoted_cons, Option.none_or]
    rfl

end HasEffect

/-- The effect of some events that close the scopes they open. -/
def effectOf (x : String) (events : List ScopeEvent) : Effect where
  declared := (events.foldl (View.run x) [none]).head?.join
  mentions o := { k | k ∈ View.mentions x [o] events }

theorem HasEffect.effectOf_eq {x : String} {events : List ScopeEvent} {a : Effect}
    (h : HasEffect x events a) : effectOf x events = a := by
  ext1
  · show (events.foldl (View.run x) [none]).head?.join = a.declared
    rw [h.view]
    simp
  · funext o
    ext k
    show k ∈ View.mentions x [o] events ↔ k ∈ a.mentions o
    rw [h.mentions]
    simp

section

variable {source : Source} {x : String} {n m : Node}

/-- The effect of the declaration of a name. -/
def declaring (source : Source) (x : String) (m : Node) : Effect :=
  ⟨if m.text source == x then some (.declared m.start) else none, fun _ => ∅⟩

/-- The effect of the mention of a name. -/
def mentioning (source : Source) (x : String) (m : Node) : Effect :=
  ⟨none, fun o => if m.text source == x then {(m.start, o)} else ∅⟩

theorem declaring_of_ne (h : m.text source ≠ x) : declaring source x m = 1 := by
  rw [declaring, if_neg (by simpa using h)]
  rfl

theorem mentioning_of_ne (h : m.text source ≠ x) : mentioning source x m = 1 := by
  have other : (m.text source == x) = false := beq_false_of_ne h
  ext1
  · rfl
  · funext o
    simp [mentioning, other]

theorem hasEffect_declare (type : Option String) :
    HasEffect x [.declare (m.text source) type m.start] (declaring source x m) := by
  constructor
  · intro here v
    simp only [List.foldl_cons, List.foldl_nil, View.run, declaring]
    split <;> simp
  · intro here v k
    simp [View.mentions, View.mention?, declaring]

theorem hasEffect_mention :
    HasEffect x [.mention (m.text source) m.start] (mentioning source x m) := by
  constructor
  · intro here v
    rfl
  · intro here v k
    simp only [View.mentions, View.mention?, mentioning]
    split <;> simp

theorem hasEffect_flatMap {α : Type} {l : List α} {f : α → List ScopeEvent} {g : α → Effect}
    (each : ∀ a ∈ l, HasEffect x (f a) (g a)) : HasEffect x (l.flatMap f) (l.map g).prod := by
  induction l with
  | nil => exact .nil
  | cons a l ih =>
    rw [List.flatMap_cons, List.map_cons, List.prod_cons]
    apply HasEffect.append
    · exact each a List.mem_cons_self
    · exact ih fun b hb => each b (List.mem_cons_of_mem _ hb)

/-! ### Effects of walks -/

/-- Steps with names in a node have an effect, if the walks over the nodes to visit have. -/
theorem Inside.exists_effect {l : List Step} (h : Inside source n l)
    (each : ∀ c, .visit c ∈ l → ∃ a, HasEffect x (scopeEvents source c) a) :
    ∃ a, HasEffect x (eventsOf source l) a := by
  induction h with
  | nil => exact ⟨1, .nil⟩
  | declare type inside => exact ⟨_, hasEffect_declare type⟩
  | mention inside is => exact ⟨_, hasEffect_mention⟩
  | @visit c inside =>
    rw [eventsOf_cons, eventsOf_nil, List.append_nil]
    exact each c List.mem_cons_self
  | append first second ihFirst ihSecond =>
    obtain ⟨a, ha⟩ := ihFirst fun c hc => each c (List.mem_append_left _ hc)
    obtain ⟨b, hb⟩ := ihSecond fun c hc => each c (List.mem_append_right _ hc)
    rw [eventsOf_append]
    exact ⟨a * b, ha.append hb⟩
  | inScope inner ih =>
    obtain ⟨a, ha⟩ := ih fun c hc =>
      each c (List.mem_cons_of_mem _ (List.mem_append_left _ hc))
    rw [eventsOf_inScope]
    exact ⟨a.scope, ha.inScope⟩

/-- The effect of the walk over a node. -/
def walked (source : Source) (x : String) (n : Node) : Effect :=
  effectOf x (scopeEvents source n)

theorem hasEffect_scopeEvents (source : Source) (x : String) (n : Node) :
    HasEffect x (scopeEvents source n) (walked source x n) := by
  have known : ∃ a, HasEffect x (scopeEvents source n) a := by
    generalize hsize : sizeOf n = size
    induction size using Nat.strongRecOn generalizing n with
    | ind size ih =>
      rw [scopeEvents_eq]
      apply (inside_steps source n).exists_effect
      intro c hc
      exact ih _ (hsize ▸ (inwards_steps source n).lt c hc) c rfl
  obtain ⟨a, ha⟩ := known
  rw [walked, ha.effectOf_eq]
  exact ha

theorem hasEffect_visits (ns : List Node) :
    HasEffect x (eventsOf source (visits ns)) (ns.map (walked source x)).prod := by
  rw [eventsOf_visits]
  exact hasEffect_flatMap fun c _ => hasEffect_scopeEvents source x c

theorem text_ne_of_holds (h : holds source x n = false) (hm : m ∈ n.preorder) :
    m.text source ≠ x := by
  intro same
  have found : holds source x n = true := List.any_eq_true.2 ⟨m, hm, beq_iff_eq.2 same⟩
  rw [h] at found
  cases found

theorem holds_of_mem_preorder (h : holds source x n = false) (hm : m ∈ n.preorder) :
    holds source x m = false := by
  rw [holds, List.any_eq_false]
  intro k hk found
  exact text_ne_of_holds h (Node.mem_preorder_trans hm hk) (eq_of_beq found)

/-- Steps in a node without the name do nothing about it, if the walks over the nodes to visit do
nothing. -/
theorem Inside.no_effect {l : List Step} (h : Inside source n l) (absent : holds source x n = false)
    (each : ∀ c, .visit c ∈ l → HasEffect x (scopeEvents source c) 1) :
    HasEffect x (eventsOf source l) 1 := by
  induction h with
  | nil => exact .nil
  | declare type inside =>
    exact declaring_of_ne (text_ne_of_holds absent inside) ▸ hasEffect_declare type
  | mention inside is =>
    exact mentioning_of_ne (text_ne_of_holds absent inside) ▸ hasEffect_mention
  | @visit c inside =>
    rw [eventsOf_cons, eventsOf_nil, List.append_nil]
    exact each c List.mem_cons_self
  | append first second ihFirst ihSecond =>
    rw [eventsOf_append, ← mul_one (1 : Effect)]
    exact (ihFirst fun c hc => each c (List.mem_append_left _ hc)).append
      (ihSecond fun c hc => each c (List.mem_append_right _ hc))
  | inScope inner ih =>
    rw [eventsOf_inScope]
    exact (ih fun c hc => each c (List.mem_cons_of_mem _ (List.mem_append_left _ hc))).inScope

/-- A walk does nothing about a name that it does not meet. -/
theorem walked_eq_one (absent : holds source x n = false) : walked source x n = 1 := by
  have quiet : HasEffect x (scopeEvents source n) 1 := by
    generalize hsize : sizeOf n = size
    induction size using Nat.strongRecOn generalizing n with
    | ind size ih =>
      rw [scopeEvents_eq]
      apply (inside_steps source n).no_effect absent
      intro c hc
      exact ih _ (hsize ▸ (inwards_steps source n).lt c hc)
        (holds_of_mem_preorder absent ((inside_steps source n).mem_of_visit c hc)) rfl
  exact quiet.effectOf_eq

end

end MonoTap.Callback
